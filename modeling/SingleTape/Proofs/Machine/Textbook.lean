import SingleTape.Proofs.Machine.Symbols

/-!
# Machines as textbooks describe them

A textbook machine has a state, a head on some integer, and a symbol in every cell, given by a
function on the integers.  Its blank is one symbol, its cells need no map, and its counter of
steps has no end.  The only concession to a machine that runs is the row of cells on which the
head may stand: it has two ends, and a rule that would take the head past them is not applied.

`Machine.textbook` forgets of a machine everything that a textbook machine does not have: which
cells are kept, by which of two characters a blank cell is kept, and how many symbols were counted.
A machine and its textbook view then run side by side for ever, up to the moment when the next
step cannot be counted in 64 bits.

## Key results

- `Machine.textbook_step`: one step of a machine is one step of its textbook view
- `Machine.iterate_refines`, `Machine.run_refines`: so are any steps, and bounded runs
- `Machine.refines_textbook`: both, with what a machine keeps when no rule is applied
-/

namespace SingleTape

namespace Textbook

/-- What a textbook machine works on. -/
@[ext]
structure Configuration where
  /-- The current state. -/
  state : StateId
  /-- The cell under the head. -/
  head : Int
  /-- The symbol in every cell; the blank mark stands for the blank. -/
  cells : Int → Char

/-- A configuration, and what the run that led to it tells. -/
@[ext]
structure Run where
  /-- The configuration. -/
  config : Configuration
  /-- Whether the run is over. -/
  halted : Bool
  /-- The number of rules applied. -/
  transitions : Nat
  /-- The latest movement of the head. -/
  lastDirection : Direction

/-- How a step of a textbook machine ends. -/
inductive Result where
  /-- A rule was applied. -/
  | moved
  /-- A rule was applied that leads to the halt state. -/
  | halted
  /-- There is no rule for this state and this symbol. -/
  | noRule (state : StateId) (symbol : Char)
  /-- The rule would take the head past the end from this cell. -/
  | tapeEnd (head : Int)
  /-- The run was over before. -/
  | ended

/-- The head may stand on this cell. -/
def IsCell (i : Int) : Prop :=
  -0x8000000000000000 ≤ i ∧ i ≤ 0x7FFFFFFFFFFFFFFF

instance (i : Int) : Decidable (IsCell i) :=
  inferInstanceAs (Decidable (_ ∧ _))

/-- The configuration after a rule has been applied: the symbol is written under the head, where a
space is a blank as well, the head moves, and the next state is entered. -/
def Configuration.apply (c : Configuration) (rule : Rule) : Configuration where
  state := rule.next
  head := c.head + rule.direction.offset
  cells i := if i = c.head then Symbol.shown rule.write else c.cells i

namespace Run

/-- The run is over, and no rule was applied. -/
def stop (r : Run) : Run :=
  { r with halted := true, lastDirection := .stay }

/-- One step by the rules of a table. -/
def step (t : Table) (r : Run) : Run × Result :=
  if r.halted then (r, .ended)
  else match t.get? r.config.state (r.config.cells r.config.head) with
    | none => (r.stop, .noRule r.config.state (r.config.cells r.config.head))
    | some rule =>
      if IsCell (r.config.head + rule.direction.offset) then
        (⟨r.config.apply rule, rule.next = .halt, r.transitions + 1, rule.direction⟩,
          if rule.next = .halt then .halted else .moved)
      else (r.stop, .tapeEnd r.config.head)

/-- The run after `n` steps. -/
def iterate (t : Table) : Nat → Run → Run
  | 0, r => r
  | n + 1, r => iterate t n (r.step t).1

/-- The run after as many steps as say `moved`, and one more, but no more than `n`. -/
def run (t : Table) : Nat → Run → Run × Result
  | 0, r => (r, .moved)
  | n + 1, r =>
    match r.step t with
    | (r', .moved) => run t n r'
    | result => result

end Run

/-- A machine's report of a step says what the textbook machine says. -/
inductive Tells : Result → Step → Prop where
  | moved : Tells .moved .moved
  | halted : Tells .halted .halted
  | noRule (q : StateId) (a : Char) : Tells (.noRule q a) (.stopped (.noRule q a))
  | tapeEnd (p : Position) : Tells (.tapeEnd p.val) (.stopped (.tapeEnd p))
  | ended : Tells .ended (.stopped .machineHalted)

end Textbook

/-- The machine as a textbook machine.  A cell shows the blank mark if it holds a space or was
never written, and cells on which no head can stand are blank. -/
def Machine.textbook (m : Machine) : Textbook.Run where
  config :=
    { state := m.state
      head := m.position.val
      cells i := if Textbook.IsCell i then Symbol.shown (m.tape.read i) else Symbol.blankMark }
  halted := m.halted
  transitions := m.transitions.toNat
  lastDirection := m.lastDirection

namespace Textbook

/-! ## The counter of the textbook machine -/

/-- A step takes nothing off the counter. -/
theorem Run.transitions_le_step (t : Table) (r : Run) :
    r.transitions ≤ (r.step t).1.transitions := by
  unfold step
  split
  · exact Nat.le_refl _
  · split
    · exact Nat.le_refl _
    · split
      · exact Nat.le_succ _
      · exact Nat.le_refl _

/-- Steps take nothing off the counter. -/
theorem Run.transitions_le_iterate (t : Table) (n : Nat) (r : Run) :
    r.transitions ≤ (r.iterate t n).transitions := by
  induction n generalizing r with
  | zero => exact Nat.le_refl _
  | succ n ih => exact Nat.le_trans (r.transitions_le_step t) (ih _)

/-- A bounded run takes nothing off the counter, its first step included. -/
theorem Run.transitions_step_le_run (t : Table) (n : Nat) (r : Run) :
    (r.step t).1.transitions ≤ (r.run t (n + 1)).1.transitions := by
  induction n generalizing r with
  | zero =>
    simp only [run]
    split <;> rename_i h <;> simp [h]
  | succ n ih =>
    rw [run]
    split
    · rename_i r' h
      rw [h]
      exact Nat.le_trans (r'.transitions_le_step t) (ih r')
    · exact Nat.le_refl _

end Textbook

namespace Machine

open Textbook

/-! ## One step -/

/-- The symbol under the head is the same in both views. -/
theorem textbook_symbol (m : Machine) :
    m.textbook.config.cells m.textbook.config.head = m.symbol :=
  if_pos ⟨m.position.first_le, m.position.le_last⟩

/-- The head can be moved exactly if it then stands on a cell. -/
theorem move?_eq_some_iff {p q : Position} {d : Int} :
    p.move? d = some q ↔ IsCell (p.val + d) ∧ q.val = p.val + d := by
  constructor
  · intro h
    have hval := Position.val_ofInt? h
    exact ⟨hval ▸ ⟨q.first_le, q.le_last⟩, hval⟩
  · rintro ⟨hcell, hval⟩
    rw [Position.move?, ← hval, Position.ofInt?_val]

/-- The head cannot be moved exactly if it would leave the row of cells. -/
theorem move?_eq_none_iff {p : Position} {d : Int} : p.move? d = none ↔ ¬IsCell (p.val + d) := by
  rw [Position.move?, Position.ofInt?_eq_none, IsCell]
  omega

/-- What is stored for a symbol shows as that symbol, or as the blank. -/
theorem shown_stored (c : Char) : Symbol.shown (Symbol.stored c) = Symbol.shown c := by
  unfold Symbol.stored
  split
  · rename_i hmark
    subst hmark
    rfl
  · rfl

/-- Writing to the tape under the head changes the textbook view of that cell only. -/
theorem cells_write (m : Machine) (c : Char) (i : Int) :
    (if IsCell i then Symbol.shown ((m.tape.write m.position (Symbol.stored c)).read i)
      else Symbol.blankMark) =
      if i = m.position.val then Symbol.shown c else m.textbook.config.cells i := by
  rw [Tape.read_write]
  by_cases hi : i = m.position.val
  · subst hi
    rw [if_pos ⟨m.position.first_le, m.position.le_last⟩, if_pos rfl, if_pos rfl, shown_stored]
  · rw [if_neg hi, if_neg hi]
    rfl

/-- **One step.** A step of a machine is the step of its textbook view. -/
theorem textbook_step {m m' : Machine} {s : Step} (h : m.step = .ok (m', s)) :
    (m.textbook.step m.program.table).1 = m'.textbook ∧
      Tells (m.textbook.step m.program.table).2 s := by
  have hsymbol := m.textbook_symbol
  cases stepsTo_of_step h with
  | still hhalted =>
    have hstep : m.textbook.step m.program.table = (m.textbook, .ended) := if_pos hhalted
    rw [hstep]
    exact ⟨rfl, .ended⟩
  | noRule hlive hrule =>
    have hstep : m.textbook.step m.program.table =
        (m.textbook.stop, .noRule m.state m.symbol) := by
      simp only [Run.step, hsymbol]
      simp [textbook, hlive, hrule]
    rw [hstep]
    exact ⟨rfl, .noRule _ _⟩
  | tapeEnd hlive hrule hmove =>
    rename_i rule
    have hstep : m.textbook.step m.program.table =
        (m.textbook.stop, .tapeEnd m.position.val) := by
      simp only [Run.step, hsymbol]
      simp [textbook, hlive, hrule, move?_eq_none_iff.mp hmove]
    rw [hstep]
    exact ⟨rfl, .tapeEnd _⟩
  | rule hlive hrule hmove hcount hroom =>
    rename_i rule position symbols
    obtain ⟨hcell, hposition⟩ := move?_eq_some_iff.mp hmove
    have hstep : m.textbook.step m.program.table =
        (⟨m.textbook.config.apply rule, rule.next = .halt, m.textbook.transitions + 1,
          rule.direction⟩, if rule.next = .halt then .halted else .moved) := by
      simp only [Run.step, hsymbol]
      simp [textbook, hlive, hrule, hcell]
    -- the two counters agree because there was room for one step more
    have htransitions := toNat_transitions_succ hroom
    rw [hstep]
    refine ⟨?_, ?_⟩
    · apply Run.ext
      · apply Configuration.ext
        · rfl
        · exact hposition.symm
        · funext i
          exact (m.cells_write rule.write i).symm
      · rfl
      · exact htransitions.symm
      · rfl
    · by_cases hhalt : rule.next = .halt
      · simp only [hhalt, StateId.isHalt_iff, ↓reduceIte]
        exact .halted
      · simp only [hhalt, StateId.isHalt_iff, ↓reduceIte]
        exact .moved

/-- Where a step cannot be counted, the textbook machine counts past the end of the counter. -/
theorem size_le_textbook_step {m : Machine} (hm : m.Reachable) {fault : Fault}
    (h : m.step = .error fault) :
    fault = .transitionsFull ∧
      UInt64.size ≤ (m.textbook.step m.program.table).1.transitions := by
  obtain ⟨hfault, hfull⟩ := hm.fault_eq h
  obtain ⟨hlive, rule, position, hrule, hmove, -⟩ := fault_of_step h
  have hstep : (m.textbook.step m.program.table).1.transitions = m.transitions.toNat + 1 := by
    simp only [Run.step, m.textbook_symbol]
    simp [textbook, hlive, hrule, (move?_eq_some_iff.mp hmove).1]
  exact ⟨hfault, by omega⟩

/-- What a machine shows as a textbook machine, it counts in 64 bits. -/
theorem textbook_transitions_lt (m : Machine) : m.textbook.transitions < UInt64.size :=
  m.transitions.toNat_lt

/-! ## Any number of steps -/

/-- Steps of a machine are steps of its textbook view, as long as they can be counted. -/
theorem iterate_refines {m : Machine} (hm : m.Reachable) (n : Nat) :
    ((m.textbook.iterate m.program.table n).transitions < UInt64.size →
      ∃ m', m.iterate n = .ok m' ∧ m'.textbook = m.textbook.iterate m.program.table n) ∧
    (UInt64.size ≤ (m.textbook.iterate m.program.table n).transitions →
      m.iterate n = .error .transitionsFull) := by
  -- by induction on the number of steps, with the first one taken on both sides
  induction n generalizing m with
  | zero =>
    have hlt := m.textbook_transitions_lt
    exact ⟨fun _ => ⟨m, rfl, rfl⟩, fun hle => absurd hle (Nat.not_le.mpr hlt)⟩
  | succ n ih =>
    cases hstep : m.step with
    | error fault =>
      -- the textbook counter is past the end now and never comes back
      obtain ⟨rfl, hfull⟩ := size_le_textbook_step hm hstep
      have hle := Run.transitions_le_iterate m.program.table n (m.textbook.step m.program.table).1
      refine ⟨fun hlt => ?_, fun _ => by simp only [iterate, hstep]⟩
      simp only [Run.iterate] at hlt
      omega
    | ok result =>
      obtain ⟨m₁, s⟩ := result
      have ih₁ := ih (.step hm hstep)
      rw [program_step hstep, ← (textbook_step hstep).1] at ih₁
      rw [iterate_succ_of_step hstep]
      exact ih₁

/-- A first step that ends a bounded run is the whole run on both sides. -/
private theorem run_refines_of_last {m m₁ : Machine} {n : Nat} {s : Step} {r₁ : Run}
    {result : Result} (hstep : m.step = .ok (m₁, s))
    (hresult : m.textbook.step m.program.table = (r₁, result)) (hview : r₁ = m₁.textbook)
    (hs : s ≠ .moved) (htells : Tells result s) :
    ((m.textbook.run m.program.table (n + 1)).1.transitions < UInt64.size →
      ∃ m' s, m.run (n + 1) = .ok (m', s) ∧
        m'.textbook = (m.textbook.run m.program.table (n + 1)).1 ∧
        Tells (m.textbook.run m.program.table (n + 1)).2 s) ∧
    (UInt64.size ≤ (m.textbook.run m.program.table (n + 1)).1.transitions →
      m.run (n + 1) = .error .transitionsFull) := by
  have hrun : m.run (n + 1) = .ok (m₁, s) := by
    cases s with
    | moved => exact absurd rfl hs
    | halted => simp only [run, hstep]
    | stopped cause => simp only [run, hstep]
  have hbook : m.textbook.run m.program.table (n + 1) = (m₁.textbook, result) := by
    rw [← hview]
    cases htells with
    | moved => exact absurd rfl hs
    | halted => simp only [Run.run, hresult]
    | noRule => simp only [Run.run, hresult]
    | tapeEnd => simp only [Run.run, hresult]
    | ended => simp only [Run.run, hresult]
  rw [hbook, hrun]
  exact ⟨fun _ => ⟨m₁, s, rfl, rfl, htells⟩,
    fun hle => absurd hle (Nat.not_le.mpr m₁.textbook_transitions_lt)⟩

/-- A bounded run of a machine is a bounded run of its textbook view with the same report, as
long as its steps can be counted. -/
theorem run_refines {m : Machine} (hm : m.Reachable) (n : Nat) :
    ((m.textbook.run m.program.table n).1.transitions < UInt64.size →
      ∃ m' s, m.run n = .ok (m', s) ∧ m'.textbook = (m.textbook.run m.program.table n).1 ∧
        Tells (m.textbook.run m.program.table n).2 s) ∧
    (UInt64.size ≤ (m.textbook.run m.program.table n).1.transitions →
      m.run n = .error .transitionsFull) := by
  induction n generalizing m with
  | zero =>
    have hlt := m.textbook_transitions_lt
    exact ⟨fun _ => ⟨m, .moved, rfl, rfl, .moved⟩, fun hle => absurd hle (Nat.not_le.mpr hlt)⟩
  | succ n ih =>
    cases hstep : m.step with
    | error fault =>
      obtain ⟨rfl, hfull⟩ := size_le_textbook_step hm hstep
      have hle := Run.transitions_step_le_run m.program.table n m.textbook
      refine ⟨fun hlt => ?_, fun _ => by simp only [run, hstep]⟩
      omega
    | ok result =>
      obtain ⟨m₁, s⟩ := result
      obtain ⟨hview, htells⟩ := textbook_step hstep
      -- both sides go on after `moved` and end after anything else
      cases hresult : m.textbook.step m.program.table with
      | mk r₁ result =>
      rw [hresult] at hview htells
      dsimp only at hview htells
      cases htells with
      | moved =>
        have ih₁ := ih (.step hm hstep)
        rw [program_step hstep, ← hview] at ih₁
        simp only [run, Run.run, hstep, hresult]
        exact ih₁
      | halted => exact run_refines_of_last hstep hresult hview (by simp) .halted
      | noRule q a => exact run_refines_of_last hstep hresult hview (by simp) (.noRule q a)
      | tapeEnd p => exact run_refines_of_last hstep hresult hview (by simp) (.tapeEnd p)
      | ended => exact run_refines_of_last hstep hresult hview (by simp) .ended

/-- A step without a rule changes nothing, except that a machine that had not halted has halted
now and shows no movement. -/
theorem stopped_eq {m m' : Machine} {cause : Error} (h : m.step = .ok (m', .stopped cause)) :
    m' = if m.halted then m else { m with halted := true, lastDirection := .stay } := by
  generalize hs : Step.stopped cause = s at h
  cases stepsTo_of_step h with
  | still hhalted => rw [if_pos hhalted]
  | noRule hlive => simp [hlive, stop]
  | tapeEnd hlive => simp [hlive, stop]
  | rule =>
    split at hs
    · cases hs
    · cases hs

/-- **Refinement.** Every machine there can be, at the beginning of a program, restored from a
snapshot or after any steps, runs as a textbook machine does and reports the same, step by step and
in bounded runs, until it has applied as many rules as it can count.  Where it applies no rule, it
keeps its state, its head, its tape and its counters. -/
theorem refines_textbook {m : Machine} (hm : m.Reachable) :
    (∀ n, ((m.textbook.iterate m.program.table n).transitions < UInt64.size →
        ∃ m', m.iterate n = .ok m' ∧ m'.textbook = m.textbook.iterate m.program.table n) ∧
      (UInt64.size ≤ (m.textbook.iterate m.program.table n).transitions →
        m.iterate n = .error .transitionsFull)) ∧
    (∀ n, ((m.textbook.run m.program.table n).1.transitions < UInt64.size →
        ∃ m' s, m.run n = .ok (m', s) ∧ m'.textbook = (m.textbook.run m.program.table n).1 ∧
          Tells (m.textbook.run m.program.table n).2 s) ∧
      (UInt64.size ≤ (m.textbook.run m.program.table n).1.transitions →
        m.run n = .error .transitionsFull)) ∧
    (∀ m' s, m.step = .ok (m', s) →
      (m.textbook.step m.program.table).1 = m'.textbook ∧
        Tells (m.textbook.step m.program.table).2 s) ∧
    ∀ m' cause, m.step = .ok (m', .stopped cause) →
      m' = if m.halted then m else { m with halted := true, lastDirection := .stay } :=
  ⟨iterate_refines hm, run_refines hm, fun _ _ => textbook_step, fun _ _ => stopped_eq⟩

/-- A machine that no program text leads to: its head stands on the last cell, which holds the
blank mark, its one rule writes a space, and it can count a single step more. -/
def foreign : Machine where
  program := ⟨⟨(∅ : Std.ExtTreeMap StateId RuleMap).insert .initial
    ((∅ : RuleMap).insert Symbol.blankMark ⟨Symbol.blank, .left, .initial⟩)⟩, "", .last⟩
  state := .initial
  position := .last
  transitions := 0xFFFFFFFFFFFFFFFE
  symbols := 1
  lastDirection := .stay
  halted := false
  tape := Tape.empty.write .last Symbol.blankMark

/-- The machine is restored from its snapshot and takes one step as a textbook machine does; its
second step cannot be counted. -/
theorem refines_textbook_foreign :
    (∃ m', foreign.iterate 1 = .ok m' ∧
      m'.textbook = foreign.textbook.iterate foreign.program.table 1) ∧
    foreign.run 2 = .error .transitionsFull := by
  have hrestore : foreign.snapshot.restore = .ok foreign := by decide +kernel
  have hrefines := refines_textbook (.restore hrestore)
  exact ⟨(hrefines.1 1).1 (by decide +kernel), (hrefines.2.1 2).2 (by decide +kernel)⟩

end Machine

end SingleTape
