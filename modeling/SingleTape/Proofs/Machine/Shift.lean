import SingleTape.Proofs.Machine.Symbols
import SingleTape.Proofs.Tape.Shift

/-!
# Position independence

A program says how to move the head but never where it is, so it cannot tell on which part of the
row of cells it works.  Two machines with the same program text and the same initial tape, placed at
two offsets, run in lockstep: whatever one reports the other reports, and their heads and tapes stay
apart by the distance of the offsets.  Only the ends of the row can part them, because a rule that
moves the head past an end is not applied.

## Key results

- `Machine.ShiftedBy.step`: two such machines take the same step
- `Machine.shift_invariant`: so do they for any number of steps
-/

namespace SingleTape.Machine

/-- The results of the next `n` steps, up to one that cannot be counted. -/
def results (m : Machine) : Nat → List Step
  | 0 => []
  | n + 1 =>
    match m.step with
    | .error _ => []
    | .ok (m', s) => s :: m'.results n

/-- The second machine is the first one moved `d` cells to the right. -/
structure ShiftedBy (d : Int) (m₁ m₂ : Machine) : Prop where
  table : m₂.program.table = m₁.program.table
  state : m₂.state = m₁.state
  position : m₂.position.val = m₁.position.val + d
  transitions : m₂.transitions = m₁.transitions
  symbols : m₂.symbols = m₁.symbols
  lastDirection : m₂.lastDirection = m₁.lastDirection
  halted : m₂.halted = m₁.halted
  tape : Tape.ShiftedBy d m₁.tape m₂.tape
  onPositions₁ : m₁.tape.OnPositions
  onPositions₂ : m₂.tape.OnPositions

variable {d : Int} {m₁ m₂ : Machine}

/-! ## One step -/

theorem ShiftedBy.symbol (h : ShiftedBy d m₁ m₂) : m₂.symbol = m₁.symbol := by
  rw [Machine.symbol, Machine.symbol, h.position, h.tape.read]

theorem ShiftedBy.get? (h : ShiftedBy d m₁ m₂) :
    m₂.program.table.get? m₂.state m₂.symbol = m₁.program.table.get? m₁.state m₁.symbol := by
  rw [h.table, h.state, h.symbol]

theorem ShiftedBy.stop (h : ShiftedBy d m₁ m₂) : ShiftedBy d m₁.stop m₂.stop :=
  { h with halted := rfl, lastDirection := rfl }

/-- The two machines take the same step, or neither step can be counted. -/
def StepsAlike (d : Int) (m₁ m₂ : Machine) : Prop :=
  (∃ fault, m₁.step = .error fault ∧ m₂.step = .error fault) ∨
    ∃ m₁' m₂' s, m₁.step = .ok (m₁', s) ∧ m₂.step = .ok (m₂', s) ∧ ShiftedBy d m₁' m₂'

/-- A rule that both heads can follow is applied by both machines or by neither. -/
private theorem ShiftedBy.apply (h : ShiftedBy d m₁ m₂) {rule : Rule} {q₁ q₂ : Position}
    (hq : q₂.val = q₁.val + d) (hstep₁ : m₁.step = m₁.apply rule q₁)
    (hstep₂ : m₂.step = m₂.apply rule q₂) : StepsAlike d m₁ m₂ := by
  -- all that decides about counting is the same in both machines
  simp only [Machine.apply, h.symbols, h.symbol, h.transitions] at hstep₁ hstep₂
  cases hcount : recount m₁.symbols m₁.symbol rule.write with
  | error fault =>
    rw [hcount] at hstep₁ hstep₂
    exact .inl ⟨fault, hstep₁, hstep₂⟩
  | ok symbols =>
    rw [hcount] at hstep₁ hstep₂
    by_cases hroom : m₁.transitions.toNat + 1 < UInt64.size
    · simp only [hroom, ↓reduceIte] at hstep₁ hstep₂
      refine .inr ⟨_, _, _, hstep₁, hstep₂, ?_⟩
      exact
        { table := h.table
          state := rfl
          position := hq
          transitions := rfl
          symbols := rfl
          lastDirection := rfl
          halted := rfl
          tape := h.tape.write h.position _
          onPositions₁ := h.onPositions₁.write _ _
          onPositions₂ := h.onPositions₂.write _ _ }
    · simp only [hroom, ↓reduceIte] at hstep₁ hstep₂
      exact .inl ⟨_, hstep₁, hstep₂⟩

/-- **One step.** Unless one of them reports the end of the tape, two machines that differ by where
they are take the same step. -/
theorem ShiftedBy.step (h : ShiftedBy d m₁ m₂)
    (hend₁ : ∀ m' p, m₁.step ≠ .ok (m', .stopped (.tapeEnd p)))
    (hend₂ : ∀ m' p, m₂.step ≠ .ok (m', .stopped (.tapeEnd p))) : StepsAlike d m₁ m₂ := by
  cases hhalted : m₁.halted with
  | true =>
    have hhalted₂ := h.halted.trans hhalted
    exact .inr ⟨m₁, m₂, _, step_of_halted hhalted, step_of_halted hhalted₂, h⟩
  | false =>
    have hhalted₂ := h.halted.trans hhalted
    have hget := h.get?
    cases hrule : m₁.program.table.get? m₁.state m₁.symbol with
    | none =>
      rw [hrule] at hget
      have hstep₁ : m₁.step = .ok (m₁.stop, .stopped (.noRule m₁.state m₁.symbol)) := by
        simp [Machine.step, hhalted, hrule]
      have hstep₂ : m₂.step = .ok (m₂.stop, .stopped (.noRule m₁.state m₁.symbol)) := by
        rw [← h.state, ← h.symbol]
        simp [Machine.step, hhalted₂, hget]
      exact .inr ⟨_, _, _, hstep₁, hstep₂, h.stop⟩
    | some rule =>
      rw [hrule] at hget
      cases hmove₁ : m₁.position.move? rule.direction.offset with
      | none =>
        exact absurd (by simp [Machine.step, hhalted, hrule, hmove₁]) (hend₁ m₁.stop m₁.position)
      | some q₁ =>
        cases hmove₂ : m₂.position.move? rule.direction.offset with
        | none =>
          exact absurd (by simp [Machine.step, hhalted₂, hget, hmove₂]) (hend₂ m₂.stop m₂.position)
        | some q₂ =>
          have hq₁ := Position.val_ofInt? hmove₁
          have hq₂ := Position.val_ofInt? hmove₂
          have hposition := h.position
          have hstep₁ : m₁.step = m₁.apply rule q₁ := by
            simp [Machine.step, hhalted, hrule, hmove₁]
          have hstep₂ : m₂.step = m₂.apply rule q₂ := by
            simp [Machine.step, hhalted₂, hget, hmove₂]
          exact h.apply (by omega) hstep₁ hstep₂

/-! ## Any number of steps -/

/-- The two machines are still alike after `n` steps, or failed alike on the way. -/
def RunsAlike (d : Int) (m₁ m₂ : Machine) (n : Nat) : Prop :=
  (∃ fault, m₁.iterate n = .error fault ∧ m₂.iterate n = .error fault) ∨
    ∃ m₁' m₂', m₁.iterate n = .ok m₁' ∧ m₂.iterate n = .ok m₂' ∧ ShiftedBy d m₁' m₂'

theorem ShiftedBy.iterate (h : ShiftedBy d m₁ m₂) {n : Nat}
    (hend₁ : ∀ p, .stopped (.tapeEnd p) ∉ m₁.results n)
    (hend₂ : ∀ p, .stopped (.tapeEnd p) ∉ m₂.results n) :
    m₁.results n = m₂.results n ∧ RunsAlike d m₁ m₂ n := by
  -- by induction on the number of steps, the first of which is taken by both machines together
  induction n generalizing m₁ m₂ with
  | zero => exact ⟨rfl, .inr ⟨m₁, m₂, rfl, rfl, h⟩⟩
  | succ n ih =>
    have hfirst : ∀ {m : Machine}, (∀ p, .stopped (.tapeEnd p) ∉ m.results (n + 1)) →
        ∀ m' p, m.step ≠ .ok (m', .stopped (.tapeEnd p)) := by
      intro m hend m' p hstep
      apply hend p
      simp only [results, hstep]
      exact List.mem_cons_self
    rcases h.step (hfirst hend₁) (hfirst hend₂) with
      ⟨fault, hstep₁, hstep₂⟩ | ⟨m₁', m₂', s, hstep₁, hstep₂, h'⟩
    · constructor
      · simp only [results, hstep₁, hstep₂]
      · left
        exact ⟨fault, by simp only [Machine.iterate, hstep₁],
          by simp only [Machine.iterate, hstep₂]⟩
    · simp only [results, hstep₁] at hend₁
      simp only [results, hstep₂] at hend₂
      obtain ⟨hresults, hruns⟩ := ih h' (fun p hp => hend₁ p (List.mem_cons_of_mem s hp))
        (fun p hp => hend₂ p (List.mem_cons_of_mem s hp))
      constructor
      · simp only [results, hstep₁, hstep₂, hresults]
      · rw [RunsAlike, iterate_succ_of_step hstep₁, iterate_succ_of_step hstep₂]
        exact hruns

/-- Steps of a machine there can be fail only where the counter is full. -/
theorem Reachable.fault_of_iterate {m : Machine} {n : Nat} {fault : Fault} (hm : m.Reachable)
    (h : m.iterate n = .error fault) : fault = .transitionsFull := by
  induction n generalizing m with
  | zero => cases h
  | succ n ih =>
    cases hstep : m.step with
    | error cause =>
      simp only [Machine.iterate, hstep] at h
      cases h
      exact (hm.fault_eq hstep).1
    | ok result =>
      rw [iterate_succ_of_step hstep] at h
      exact ih (hm.step hstep) h

/-- Two machines at the beginning of the same text on the same tape, placed at two offsets. -/
theorem shiftedBy_start {source tape : String} {o₁ o₂ : Position} {p₁ p₂ : Program}
    (h₁ : Program.compile source tape o₁ = .ok p₁) (h₂ : Program.compile source tape o₂ = .ok p₂) :
    ShiftedBy (o₂.val - o₁.val) (start p₁) (start p₂) := by
  obtain ⟨hfits₁, htable₁, htape₁, hoffset₁⟩ := Program.compile_eq_ok h₁
  obtain ⟨hfits₂, htable₂, htape₂, hoffset₂⟩ := Program.compile_eq_ok h₂
  have hdistance : o₂.val = o₁.val + (o₂.val - o₁.val) := by omega
  have hload : Tape.ShiftedBy (o₂.val - o₁.val) (Tape.empty.load o₁ tape.toList)
      (Tape.empty.load o₂ tape.toList) :=
    Tape.ShiftedBy.load (fun i => rfl) hdistance (Program.room_of_fits hfits₁)
      (Program.room_of_fits hfits₂)
  exact
    { table := Except.ok.inj (htable₂.symm.trans htable₁)
      state := rfl
      position := by
        show p₂.offset.val = p₁.offset.val + (o₂.val - o₁.val)
        rw [hoffset₁, hoffset₂]
        exact hdistance
      transitions := rfl
      symbols := by
        show p₂.initialSymbols = p₁.initialSymbols
        rw [Program.initialSymbols, Program.initialSymbols, htape₁, htape₂]
      lastDirection := rfl
      halted := rfl
      tape := by
        show Tape.ShiftedBy _ (Tape.empty.load p₁.offset p₁.initialTape.toList)
          (Tape.empty.load p₂.offset p₂.initialTape.toList)
        rw [hoffset₁, hoffset₂, htape₁, htape₂]
        exact hload
      onPositions₁ := Tape.onPositions_empty.load _ _
      onPositions₂ := Tape.onPositions_empty.load _ _ }

/-- **Position independence.** A program text on an initial tape is placed at two offsets.  As long
as neither machine reports the end of the tape, both report the same, step by step and with the same
causes, and they agree on the state, the counters, the latest movement and on whether they have
halted.  Their heads, the cells of their tapes and the bounds of these are the distance of the
offsets apart.  Where a step cannot be counted, this happens to both at the same time. -/
theorem shift_invariant {source tape : String} {o₁ o₂ : Position} {p₁ p₂ : Program}
    (h₁ : Program.compile source tape o₁ = .ok p₁) (h₂ : Program.compile source tape o₂ = .ok p₂)
    {n : Nat} (hend₁ : ∀ p, .stopped (.tapeEnd p) ∉ (start p₁).results n)
    (hend₂ : ∀ p, .stopped (.tapeEnd p) ∉ (start p₂).results n) :
    (start p₁).results n = (start p₂).results n ∧
    ((start p₁).iterate n = .error .transitionsFull ∧
        (start p₂).iterate n = .error .transitionsFull ∨
      ∃ m₁ m₂, (start p₁).iterate n = .ok m₁ ∧ (start p₂).iterate n = .ok m₂ ∧
        m₁.state = m₂.state ∧ m₁.transitions = m₂.transitions ∧ m₁.symbols = m₂.symbols ∧
        m₁.lastDirection = m₂.lastDirection ∧ m₁.halted = m₂.halted ∧
        m₂.position.val - m₁.position.val = o₂.val - o₁.val ∧
        (∀ i, m₁.tape.read i = m₂.tape.read (i + (o₂.val - o₁.val))) ∧
        m₂.tape.bounds = m₁.tape.bounds.map fun ends =>
          (ends.1 + (o₂.val - o₁.val), ends.2 + (o₂.val - o₁.val))) := by
  obtain ⟨hresults, hruns⟩ := (shiftedBy_start h₁ h₂).iterate hend₁ hend₂
  refine ⟨hresults, ?_⟩
  rcases hruns with ⟨fault, hfault₁, hfault₂⟩ | ⟨m₁, m₂, hm₁, hm₂, h⟩
  · left
    cases (Reachable.start p₁).fault_of_iterate hfault₁
    exact ⟨hfault₁, hfault₂⟩
  · right
    have hposition := h.position
    exact ⟨m₁, m₂, hm₁, hm₂, h.state.symm, h.transitions.symm, h.symbols.symm,
      h.lastDirection.symm, h.halted.symm, by omega, fun i => (h.tape.read i).symm,
      h.tape.bounds h.onPositions₁ h.onPositions₂⟩

/-- A program that walks to and fro and misses a rule in the end, on a tape placed at `offset`. -/
def straying (offset : Position) : Program :=
  match Program.compile "1,a 1,_>\n1,b 2,c<\n2,_ 3,d<\n3,a H,a" "ab" offset with
  | .ok program => program
  | .error _ => ⟨.empty, "", .origin⟩

/-- The cell left of the origin. -/
def beforeOrigin : Position :=
  ⟨-1, by decide, by decide⟩

/-- At the origin the program leaves its tape on the left, and one cell before the origin its tape
lies on both sides.  It reports the same and ends one cell further to the left. -/
theorem shift_invariant_straying :
    (start (straying .origin)).results 5 =
      [.moved, .moved, .moved, .stopped (.noRule ⟨"3"⟩ '_'), .stopped .machineHalted] ∧
    (start (straying .origin)).results 5 = (start (straying beforeOrigin)).results 5 ∧
    ∃ m₁ m₂, (start (straying .origin)).iterate 5 = .ok m₁ ∧
      (start (straying beforeOrigin)).iterate 5 = .ok m₂ ∧
      m₂.position.val - m₁.position.val = -1 ∧
      m₂.tape.bounds = m₁.tape.bounds.map fun ends => (ends.1 + -1, ends.2 + -1) := by
  have hresults : ∀ o ∈ [Position.origin, beforeOrigin], (start (straying o)).results 5 =
      [.moved, .moved, .moved, .stopped (.noRule ⟨"3"⟩ '_'), .stopped .machineHalted] := by
    decide +kernel
  have hend : ∀ o ∈ [Position.origin, beforeOrigin], ∀ p,
      .stopped (.tapeEnd p) ∉ (start (straying o)).results 5 := by
    intro o ho p
    rw [hresults o ho]
    simp
  have h₁ : Program.compile "1,a 1,_>\n1,b 2,c<\n2,_ 3,d<\n3,a H,a" "ab" .origin =
      .ok (straying .origin) := by decide +kernel
  have h₂ : Program.compile "1,a 1,_>\n1,b 2,c<\n2,_ 3,d<\n3,a H,a" "ab" beforeOrigin =
      .ok (straying beforeOrigin) := by decide +kernel
  obtain ⟨hsame, hfault | ⟨m₁, m₂, hm₁, hm₂, -, -, -, -, -, hposition, -, hbounds⟩⟩ :=
    shift_invariant h₁ h₂ (n := 5) (hend _ (by simp)) (hend _ (by simp))
  · have hok : ((start (straying .origin)).iterate 5).toBool = true := by decide +kernel
    rw [hfault.1] at hok
    cases hok
  · exact ⟨hresults _ (by simp), hsame, m₁, m₂, hm₁, hm₂, hposition, hbounds⟩

end SingleTape.Machine
