import SingleTape.Machine

/-!
# Steps and runs of a machine

`Machine.StepsTo` says once what a step can do, with everything that makes it do so; the proofs
about machines go by its four cases and do not open `Machine.step` again.

`Machine.iterate` is the machine after so many steps, whatever their results.  A bounded run is
such an iteration that ends early at the first result other than `moved`.

## Key results

- `Machine.stepsTo_of_step`: the cases of a step
- `Machine.iterate_add`: steps after steps
- `Machine.run_cases`: how a bounded run ends
- `Machine.run_add_eq`: how another one goes on
-/

namespace SingleTape.Machine

/-! ## One step -/

/-- What one step can do. -/
inductive StepsTo (m : Machine) : Machine → Step → Prop where
  /-- A machine that has halted does nothing. -/
  | still (hhalted : m.halted = true) : m.StepsTo m (.stopped .machineHalted)
  /-- There is no rule, and the machine halts. -/
  | noRule (hlive : m.halted = false) (hrule : m.program.table.get? m.state m.symbol = none) :
      m.StepsTo m.stop (.stopped (.noRule m.state m.symbol))
  /-- The rule would take the head past the last cell, and the machine halts. -/
  | tapeEnd {rule : Rule} (hlive : m.halted = false)
      (hrule : m.program.table.get? m.state m.symbol = some rule)
      (hmove : m.position.move? rule.direction.offset = none) :
      m.StepsTo m.stop (.stopped (.tapeEnd m.position))
  /-- The rule is applied. -/
  | rule {rule : Rule} {position : Position} {symbols : Nat} (hlive : m.halted = false)
      (hrule : m.program.table.get? m.state m.symbol = some rule)
      (hmove : m.position.move? rule.direction.offset = some position)
      (hcount : recount m.symbols m.symbol rule.write = .ok symbols)
      (hroom : m.transitions.toNat + 1 < UInt64.size) :
      m.StepsTo { m with
          state := rule.next
          position
          transitions := m.transitions + 1
          symbols
          lastDirection := rule.direction
          halted := rule.next.isHalt
          tape := m.tape.write m.position (Symbol.stored rule.write) }
        (if rule.next.isHalt then .halted else .moved)

/-- Every step is one of the cases. -/
theorem stepsTo_of_step {m m' : Machine} {s : Step} (h : m.step = .ok (m', s)) :
    m.StepsTo m' s := by
  unfold step at h
  split at h
  · rename_i hhalted
    cases h
    exact .still hhalted
  · rename_i hlive
    rw [Bool.not_eq_true] at hlive
    split at h
    · rename_i hrule
      cases h
      exact .noRule hlive hrule
    · rename_i rule hrule
      split at h
      · rename_i hmove
        cases h
        exact .tapeEnd hlive hrule hmove
      · rename_i position hmove
        unfold apply at h
        split at h
        · cases h
        · rename_i symbols hcount
          split at h
          · rename_i hroom
            cases h
            exact .rule hlive hrule hmove hcount hroom
          · cases h

/-- A step fails only where a rule would be applied: it cannot be counted, or the symbol that it
erases was not. -/
theorem fault_of_step {m : Machine} {fault : Fault} (h : m.step = .error fault) :
    m.halted = false ∧ ∃ rule position,
      m.program.table.get? m.state m.symbol = some rule ∧
      m.position.move? rule.direction.offset = some position ∧
      (recount m.symbols m.symbol rule.write = .error fault ∨
        fault = .transitionsFull ∧ UInt64.size ≤ m.transitions.toNat + 1) := by
  unfold step at h
  split at h
  · cases h
  · rename_i hlive
    rw [Bool.not_eq_true] at hlive
    split at h
    · cases h
    · rename_i rule hrule
      split at h
      · cases h
      · rename_i position hmove
        refine ⟨hlive, rule, position, hrule, hmove, ?_⟩
        unfold apply at h
        split at h
        · rename_i hcount
          cases h
          exact .inl hcount
        · split at h
          · cases h
          · rename_i hroom
            cases h
            exact .inr ⟨rfl, by omega⟩

/-- Where there is room for it, one more step is counted. -/
theorem toNat_transitions_succ {m : Machine} (hroom : m.transitions.toNat + 1 < UInt64.size) :
    (m.transitions + 1).toNat = m.transitions.toNat + 1 := by
  rw [UInt64.toNat_add]
  exact Nat.mod_eq_of_lt hroom

/-- A step does not change the program. -/
theorem program_step {m m' : Machine} {s : Step} (h : m.step = .ok (m', s)) :
    m'.program = m.program := by
  cases stepsTo_of_step h <;> rfl

/-- After a step the machine goes on exactly if the step says so. -/
theorem halted_step {m m' : Machine} {s : Step} (h : m.step = .ok (m', s)) :
    m'.halted = false ↔ s = .moved := by
  cases stepsTo_of_step h with
  | still hhalted => simp [hhalted]
  | noRule => simp [stop]
  | tapeEnd => simp [stop]
  | rule =>
    rename_i rule _ _ _ _ _ _ _
    cases hhalt : rule.next.isHalt <;> simp

/-! ## Iteration -/

/-- The machine after `n` steps, whatever their results. -/
def iterate (m : Machine) : Nat → Except Fault Machine
  | 0 => .ok m
  | n + 1 =>
    match m.step with
    | .error fault => .error fault
    | .ok (m', _) => m'.iterate n

@[simp] theorem iterate_zero (m : Machine) : m.iterate 0 = .ok m := rfl

/-- The first of several steps. -/
theorem iterate_succ_of_step {m m' : Machine} {s : Step} (h : m.step = .ok (m', s)) (n : Nat) :
    m.iterate (n + 1) = m'.iterate n := by
  simp only [iterate, h]

/-- Steps after steps. -/
theorem iterate_add {m m' : Machine} {a : Nat} (h : m.iterate a = .ok m') (b : Nat) :
    m.iterate (a + b) = m'.iterate b := by
  -- by induction on the steps that come first
  induction a generalizing m with
  | zero =>
    cases h
    rw [Nat.zero_add]
  | succ a ih =>
    rw [Nat.succ_add]
    simp only [iterate] at h ⊢
    split at h
    · cases h
    · exact ih h

/-- The last of several steps. -/
theorem iterate_succ {m p m' : Machine} {n : Nat} {s : Step} (h : m.iterate n = .ok p)
    (hs : p.step = .ok (m', s)) : m.iterate (n + 1) = .ok m' := by
  rw [iterate_add h, iterate_succ_of_step hs, iterate_zero]

/-- Whatever a step keeps is kept by any number of steps. -/
theorem iterate_induction {P : Machine → Prop} {m m' : Machine} {n : Nat}
    (hstep : ∀ {p p' s}, p.step = .ok (p', s) → P p → P p') (hm : P m)
    (h : m.iterate n = .ok m') : P m' := by
  induction n generalizing m with
  | zero =>
    cases h
    exact hm
  | succ n ih =>
    simp only [iterate] at h
    split at h
    · cases h
    · rename_i p s hp
      exact ih (hstep hp hm) h

/-! ## Bounded runs -/

/-- A bounded run goes by steps that say `moved` until the budget is spent or a step says
something else, which is then the result. -/
theorem run_cases {m m' : Machine} {n : Nat} {s : Step} (h : m.run n = .ok (m', s)) :
    (s = .moved ∧ m.iterate n = .ok m' ∧ (m.halted = false → m'.halted = false)) ∨
      ∃ k p, k < n ∧ m.iterate k = .ok p ∧ (m.halted = false → p.halted = false) ∧
        p.step = .ok (m', s) ∧ s ≠ .moved := by
  induction n generalizing m with
  | zero =>
    cases h
    exact .inl ⟨rfl, rfl, id⟩
  | succ n ih =>
    simp only [run] at h
    split at h
    · -- the first step says `moved`, so the machine has not halted and the run goes on
      rename_i m₁ hstep
      have hlive := (halted_step hstep).mpr rfl
      rcases ih h with ⟨hs, hiter, hm'⟩ | ⟨k, p, hk, hiter, hp, hlast, hs⟩
      · exact .inl ⟨hs, by rw [iterate_succ_of_step hstep, hiter], fun _ => hm' hlive⟩
      · exact .inr ⟨k + 1, p, by omega, by rw [iterate_succ_of_step hstep, hiter],
          fun _ => hp hlive, hlast, hs⟩
    · -- the first step says something else than `moved`
      rename_i hresult
      refine .inr ⟨0, m, by omega, rfl, id, h, ?_⟩
      rintro rfl
      exact hresult m' h

/-- Goes on after a result that says `moved`; any other result is final. -/
def andThen (result : Except Fault (Machine × Step))
    (next : Machine → Except Fault (Machine × Step)) : Except Fault (Machine × Step) :=
  match result with
  | .ok (m, .moved) => next m
  | result => result

theorem run_succ (m : Machine) (n : Nat) : m.run (n + 1) = andThen m.step (·.run n) := rfl

/-- **Runs after runs.** A run goes on where one with a smaller budget has spent it. -/
theorem run_add_eq (m : Machine) (a b : Nat) : m.run (a + b) = andThen (m.run a) (·.run b) := by
  induction a generalizing m with
  | zero =>
    rw [Nat.zero_add]
    rfl
  | succ a ih =>
    rw [Nat.succ_add, run_succ, run_succ]
    cases m.step with
    | error fault => rfl
    | ok result =>
      obtain ⟨m', s⟩ := result
      cases s with
      | moved => exact ih m'
      | halted | stopped => rfl

/-- A run after a run that has spent its budget. -/
theorem run_add {m m' : Machine} {a : Nat} (h : m.run a = .ok (m', .moved)) (b : Nat) :
    m.run (a + b) = m'.run b := by
  rw [run_add_eq, h]
  rfl

/-- A run is over with a step that says something else than `moved`. -/
theorem run_of_step_ne {m : Machine} (h : ∀ m', m.step ≠ .ok (m', .moved)) (n : Nat) :
    m.run (n + 1) = m.step := by
  rw [run]
  split
  · rename_i m' hstep
    exact absurd hstep (h m')
  · rfl

end SingleTape.Machine
