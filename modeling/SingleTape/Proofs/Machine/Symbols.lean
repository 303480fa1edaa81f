import SingleTape.Snapshot
import SingleTape.Proofs.Machine.Steps
import SingleTape.Proofs.Program.Validity
import SingleTape.Proofs.Tape.Symbols

/-!
# The count of symbols of a machine

A machine counts the symbols on its tape as it writes, by what a cell *reads as*; the tape itself
counts by what a cell *holds*.  The two differ on a cell that holds the blank mark and on a rule
that writes a space.  Neither can come from program text, but both can come with a snapshot.

So there are two invariants.  Whatever the machine, it never counts fewer symbols than there are,
which is why an erasing step always has a symbol to take off the count.  A machine that runs a
compiled program counts exactly, which is why it can be restored from its own snapshot.

## Key results

- `Machine.Reachable.countSymbols_le`: no machine counts too few symbols
- `Machine.Reachable.fault_eq`: so counting the steps is all that can fail
- `Machine.Tidy.restore_snapshot`: a machine with a compiled program survives being copied
-/

namespace SingleTape

/-! ## What a step does to both counts -/

namespace Machine

/-- What a symbol adds to a machine's own count: the mark stands for an empty cell. -/
def weight (c : Char) : Nat :=
  if c = Symbol.blankMark then 0 else 1

/-- The machine exchanges the weight of what it reads for the weight of what it writes. -/
theorem recount_eq_ok {count n : Nat} {read write : Char}
    (h : recount count read write = .ok n) : n + weight read = count + weight write := by
  unfold recount at h
  split at h
  · -- a symbol is written onto an empty cell
    rename_i hwrites
    cases h
    simp [weight, hwrites]
  · split at h
    · -- a symbol is erased
      rename_i hwrites
      split at h
      · cases h
      · cases h
        simp only [weight, hwrites, ↓reduceIte]
        omega
    · -- an empty cell stays empty, or a symbol replaces a symbol
      cases h
      unfold weight
      split <;> split <;> simp_all

/-- The machine cannot count an erased symbol if it counts none. -/
theorem recount_eq_error {count : Nat} {read write : Char} {fault : Fault}
    (h : recount count read write = .error fault) :
    fault = .symbolsSpent ∧ count = 0 ∧ read ≠ Symbol.blankMark := by
  unfold recount at h
  split at h
  · cases h
  · split at h
    · rename_i hwrites
      split at h
      · rename_i hcount
        cases h
        exact ⟨rfl, hcount, hwrites.1⟩
      · cases h
    · cases h

/-- No cell weighs more, by what it reads as, than it adds to the count of its tape. -/
theorem weight_shown_le (c : Char) : weight (Symbol.shown c) ≤ Tape.amount c := by
  unfold weight Symbol.shown Tape.amount
  by_cases hc : c = Symbol.blank
  · simp [hc]
  · by_cases hmark : c = Symbol.blankMark <;> simp [hc, hmark]

/-- A cell that does not hold the mark weighs what it adds. -/
theorem weight_shown {c : Char} (h : c ≠ Symbol.blankMark) :
    weight (Symbol.shown c) = Tape.amount c := by
  unfold weight Symbol.shown Tape.amount
  by_cases hc : c = Symbol.blank <;> simp [hc, h]

/-- No written symbol adds more to the count of the tape than it weighs. -/
theorem amount_stored_le_weight (c : Char) : Tape.amount (Symbol.stored c) ≤ weight c := by
  unfold weight Symbol.stored
  by_cases hc : c = Symbol.blankMark
  · simp [hc]
  · simpa [hc] using Tape.amount_le_one c

/-- A written symbol that is not a space adds what it weighs. -/
theorem amount_stored_eq_weight {c : Char} (h : c ≠ Symbol.blank) :
    Tape.amount (Symbol.stored c) = weight c := by
  unfold weight Symbol.stored
  by_cases hc : c = Symbol.blankMark
  · simp [hc]
  · simp [hc, Tape.amount_of_ne_blank h]

/-! ## All machines -/

/-- The machines there can be: at the beginning of any program, restored from any snapshot, and
after any steps.  A machine that is reset is one at the beginning of its program. -/
inductive Reachable : Machine → Prop where
  | start (program : Program) : Reachable (start program)
  | restore {s : Snapshot} {m : Machine} (h : s.restore = .ok m) : Reachable m
  | step {m m' : Machine} {s : Step} (hm : Reachable m) (h : m.step = .ok (m', s)) : Reachable m'

/-- A restored machine counts exactly. -/
theorem countSymbols_of_restore {s : Snapshot} {m : Machine} (h : s.restore = .ok m) :
    m.tape.countSymbols = m.symbols := by
  unfold Snapshot.restore at h
  split at h
  · cases h
  · split at h
    · cases h
    · rename_i hcount
      cases h
      exact not_not.mp hcount

/-- A step of a machine that does not count too few symbols leads to another. -/
theorem countSymbols_le_of_step {m m' : Machine} {s : Step} (h : m.step = .ok (m', s))
    (hle : m.tape.countSymbols ≤ m.symbols) : m'.tape.countSymbols ≤ m'.symbols := by
  cases stepsTo_of_step h with
  | still => exact hle
  | noRule => exact hle
  | tapeEnd => exact hle
  | rule hlive hrule hmove hcount hroom =>
    rename_i rule _ _
    have hmachine := recount_eq_ok hcount
    have htape := m.tape.countSymbols_write m.position (Symbol.stored rule.write)
    -- what is read may weigh less than it adds, and what is written may weigh more
    have hread := weight_shown_le (m.tape.read m.position.val)
    have hwrite := amount_stored_le_weight rule.write
    rw [symbol] at hmachine
    dsimp only
    omega

/-- No machine counts fewer symbols than there are on its tape. -/
theorem Reachable.countSymbols_le {m : Machine} (h : m.Reachable) :
    m.tape.countSymbols ≤ m.symbols := by
  induction h with
  | start program =>
    have hload := Tape.empty.countSymbols_load_le program.offset program.initialTape.toList
    rw [Tape.countSymbols_empty, Nat.zero_add] at hload
    exact hload
  | restore h => exact Nat.le_of_eq (countSymbols_of_restore h)
  | step _ h ih => exact countSymbols_le_of_step h ih

/-- A symbol under the head is counted by the tape, and so by the machine. -/
theorem Reachable.one_le_symbols {m : Machine} (hm : m.Reachable)
    (hread : m.symbol ≠ Symbol.blankMark) : 1 ≤ m.symbols := by
  have hcell : m.tape.read m.position.val ≠ Symbol.blank := by
    intro hblank
    rw [symbol, hblank] at hread
    exact hread rfl
  have hone := Tape.one_le_countSymbols hcell
  have hle := hm.countSymbols_le
  omega

/-- The only thing that can fail is counting the steps, and it fails only where a rule applies and
the counter is full. -/
theorem Reachable.fault_eq {m : Machine} {fault : Fault} (hm : m.Reachable)
    (h : m.step = .error fault) :
    fault = .transitionsFull ∧ UInt64.size ≤ m.transitions.toNat + 1 := by
  obtain ⟨-, rule, position, -, -, hcount | hfull⟩ := fault_of_step h
  · obtain ⟨-, hzero, hread⟩ := recount_eq_error hcount
    have hone := hm.one_le_symbols hread
    omega
  · exact hfull

/-! ## Machines with compiled programs -/

/-- What holds of a machine that runs a compiled program. -/
structure Tidy (m : Machine) : Prop where
  /-- No rule writes a space. -/
  writes : ∀ q a rule, m.program.table.get? q a = some rule → rule.write ≠ Symbol.blank
  /-- No cell holds the mark. -/
  read_ne : ∀ i, m.tape.read i ≠ Symbol.blankMark
  /-- The machine counts the symbols that are there. -/
  count_eq : m.tape.countSymbols = m.symbols

/-- A step of a tidy machine leads to a tidy machine. -/
theorem Tidy.step {m m' : Machine} {s : Step} (hm : m.Tidy) (h : m.step = .ok (m', s)) :
    m'.Tidy := by
  cases stepsTo_of_step h with
  | still => exact hm
  | noRule => exact ⟨hm.writes, hm.read_ne, hm.count_eq⟩
  | tapeEnd => exact ⟨hm.writes, hm.read_ne, hm.count_eq⟩
  | rule hlive hrule hmove hcount hroom =>
    rename_i rule _ _
    refine ⟨hm.writes, ?_, ?_⟩
    · intro i
      dsimp only
      rw [Tape.read_write]
      split
      · exact Symbol.stored_ne_blankMark rule.write
      · exact hm.read_ne i
    · have hmachine := recount_eq_ok hcount
      have htape := m.tape.countSymbols_write m.position (Symbol.stored rule.write)
      have heq := hm.count_eq
      -- here both weigh what they add, so the two counts change alike
      rw [symbol, weight_shown (hm.read_ne m.position.val)] at hmachine
      rw [amount_stored_eq_weight (hm.writes _ _ _ hrule)] at htape
      dsimp only
      omega

/-- Any steps of a tidy machine lead to a tidy machine. -/
theorem Tidy.iterate {m m' : Machine} {n : Nat} (hm : m.Tidy) (h : m.iterate n = .ok m') :
    m'.Tidy :=
  iterate_induction (P := Tidy) (fun hs hp => hp.step hs) hm h

/-- A tidy machine is restored from its own copy. -/
theorem Tidy.restore_snapshot {m : Machine} (hm : m.Tidy) : m.snapshot.restore = .ok m := by
  rw [Machine.restore_snapshot, if_pos hm.count_eq]

end Machine

/-! ## Compiled programs -/

namespace Program

/-- What a compiled program consists of. -/
theorem compile_eq_ok {source tape : String} {offset : Position} {program : Program}
    (h : compile source tape offset = .ok program) :
    fits offset tape.length = true ∧ Table.ofSource source.toList = .ok program.table ∧
      program.initialTape = tape ∧ program.offset = offset := by
  unfold compile at h
  cases hfits : fits offset tape.length with
  | false =>
    rw [hfits] at h
    cases h
  | true =>
    cases htable : Table.ofSource source.toList with
    | error e =>
      rw [hfits, htable] at h
      cases h
    | ok table =>
      rw [hfits, htable] at h
      cases h
      exact ⟨rfl, rfl, rfl, rfl⟩

/-- No rule of a program text writes a space. -/
theorem write_ne_blank {source : List Char} {t : Table} (h : Table.ofSource source = .ok t)
    (q : StateId) (a : Char) (rule : Rule) (hrule : t.get? q a = some rule) :
    rule.write ≠ Symbol.blank := by
  obtain ⟨r, hr, -, -, rfl⟩ := ((Table.ofSource_lists h).get?_iff q a rule).mp hrule
  obtain ⟨text, -, hform⟩ := mem_rulesOn_iff.mp hr
  have hsymbol := Line.isSymbol_write (Line.parse?_of_form hform)
  intro hblank
  have hwrite : r.write = Symbol.blank := hblank
  rw [hwrite] at hsymbol
  exact absurd hsymbol (by decide)

/-- A tape that fits after its offset ends on a position. -/
theorem room_of_fits {offset : Position} {tape : String} (h : fits offset tape.length = true) :
    offset.val + tape.toList.length ≤ 0x8000000000000000 := by
  rw [String.length_toList]
  unfold fits Position.move? at h
  rw [Option.isSome_iff_ne_none, ne_eq, Position.ofInt?_eq_none] at h
  have hlast := offset.le_last
  omega

/-- A machine at the beginning of a program is tidy if no rule writes a space and there is room for
the initial tape. -/
theorem tidy_start_of_fits {program : Program}
    (hwrites : ∀ q a rule, program.table.get? q a = some rule → rule.write ≠ Symbol.blank)
    (hfits : fits program.offset program.initialTape.length = true) :
    (Machine.start program).Tidy := by
  refine ⟨hwrites, ?_, ?_⟩
  · intro i
    exact Tape.read_load_ne_blankMark (by simp [Symbol.blank, Symbol.blankMark]) _ _ i
  · -- the tape begins empty and has room for all of the initial symbols
    have hload := Tape.empty.countSymbols_load program.offset program.initialTape.toList
      (fun i _ => Tape.read_empty i) (room_of_fits hfits)
    rw [Tape.countSymbols_empty, Nat.zero_add] at hload
    exact hload

/-- A machine at the beginning of a compiled program is tidy. -/
theorem tidy_start {source tape : String} {offset : Position} {program : Program}
    (h : compile source tape offset = .ok program) : (Machine.start program).Tidy := by
  obtain ⟨hfits, htable, rfl, rfl⟩ := compile_eq_ok h
  exact tidy_start_of_fits (write_ne_blank htable) hfits

end Program

end SingleTape
