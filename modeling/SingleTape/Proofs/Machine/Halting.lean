import SingleTape.Proofs.Job.Protocol

/-!
# How a machine halts

A machine that halts does so once, by the last of its steps.  `Machine.EndsIn` counts the steps up to
the first one that does not say `moved`, and `Machine.HaltsIn` is the same for a machine that has not
halted before.  The last step applies a rule that leads to the halt state, or it applies none; `Machine.HaltsBy`
tells the two apart by the rule, without looking at the result of the step.

## Key results

- `Machine.EndsIn.run_of_le`, `Machine.EndsIn.exists_run_of_lt`: a machine runs to its end, or comes
  nearer to it
- `Machine.HaltsBy.unique`: a machine halts in one way only
- `Machine.haltsBy_iff_of_iterate`: it halts in the course of two runs if it does in one of them
- `Machine.RestsAs.haltsBy`: what the result of the last step says
-/

namespace SingleTape.Machine

variable {m m' p q : Machine} {n : Nat} {s : Step} {rule? : Option Rule}

/-- A machine that has halted stays as it is. -/
theorem iterate_of_halted (h : m.halted = true) (n : Nat) : m.iterate n = .ok m := by
  induction n with
  | zero => rfl
  | succ n ih => rw [iterate_succ_of_step (step_of_halted h), ih]

/-! ## Counting the steps -/

/-- The machine takes `n` steps one at a time, of which only the last does not say `moved`: it has
the given result and leaves the machine `m'`.  A machine that has halted says so by the first step. -/
inductive EndsIn : Machine → Nat → Machine → Step → Prop where
  | last {m m' : Machine} {s : Step} (hstep : m.step = .ok (m', s)) (hs : s ≠ .moved) :
      EndsIn m 1 m' s
  | more {m p m' : Machine} {n : Nat} {s : Step} (hstep : m.step = .ok (p, .moved))
      (h : EndsIn p n m' s) : EndsIn m (n + 1) m' s

theorem EndsIn.pos (h : m.EndsIn n m' s) : 0 < n := by
  cases h with
  | last => exact Nat.one_pos
  | more => exact Nat.succ_pos _

theorem EndsIn.ne_moved (h : m.EndsIn n m' s) : s ≠ .moved := by
  induction h with
  | last _ hs => exact hs
  | more _ _ ih => exact ih

/-- A run whose budget is enough leads to the end, also if the budget is just enough. -/
theorem EndsIn.run_of_le (h : m.EndsIn n m' s) {budget : Nat} (hle : n ≤ budget) :
    m.run budget = .ok (m', s) := by
  induction h generalizing budget with
  | last hstep hs =>
    obtain ⟨rest, rfl⟩ : ∃ rest, budget = rest + 1 := ⟨budget - 1, by omega⟩
    rw [run_of_step_ne, hstep]
    intro p hmoved
    cases hstep.symm.trans hmoved
    exact hs rfl
  | more hstep _ ih =>
    obtain ⟨rest, rfl⟩ : ∃ rest, budget = rest + 1 := ⟨budget - 1, by omega⟩
    rw [run_succ, hstep]
    exact ih (by omega)

/-- A run whose budget is not enough leads so many steps nearer to the end. -/
theorem EndsIn.exists_run_of_lt (h : m.EndsIn n m' s) {budget : Nat} (hlt : budget < n) :
    ∃ p, m.run budget = .ok (p, .moved) ∧ p.EndsIn (n - budget) m' s := by
  induction h generalizing budget with
  | last hstep hs =>
    obtain rfl : budget = 0 := by omega
    exact ⟨_, rfl, .last hstep hs⟩
  | more hstep h ih =>
    cases budget with
    | zero => exact ⟨_, rfl, .more hstep h⟩
    | succ budget =>
      obtain ⟨p, hrun, hp⟩ := ih (Nat.lt_of_succ_lt_succ hlt)
      rw [run_succ, hstep, Nat.add_sub_add_right]
      exact ⟨p, hrun, hp⟩

/-- The machine takes `n` steps, of which only the last does not say `moved`: it has the given
result and leaves the machine `m'`. -/
inductive HaltsIn : Machine → Nat → Machine → Step → Prop where
  | last {m m' : Machine} {s : Step} (hlive : m.halted = false) (hstep : m.step = .ok (m', s))
      (hs : s ≠ .moved) : HaltsIn m 1 m' s
  | more {m p m' : Machine} {n : Nat} {s : Step} (hstep : m.step = .ok (p, .moved))
      (h : HaltsIn p n m' s) : HaltsIn m (n + 1) m' s

theorem HaltsIn.endsIn (h : m.HaltsIn n m' s) : m.EndsIn n m' s := by
  induction h with
  | last _ hstep hs => exact .last hstep hs
  | more hstep _ ih => exact .more hstep ih

theorem EndsIn.haltsIn (h : m.EndsIn n m' s) (hlive : m.halted = false) : m.HaltsIn n m' s := by
  induction h with
  | last hstep hs => exact .last hlive hstep hs
  | more hstep _ ih => exact .more hstep (ih ((halted_step hstep).mpr rfl))

theorem HaltsIn.live (h : m.HaltsIn n m' s) : m.halted = false := by
  cases h with
  | last hlive => exact hlive
  | more hstep =>
    cases hhalted : m.halted with
    | false => rfl
    | true => cases (step_of_halted hhalted).symm.trans hstep

theorem HaltsIn.pos (h : m.HaltsIn n m' s) : 0 < n :=
  h.endsIn.pos

theorem HaltsIn.ne_moved (h : m.HaltsIn n m' s) : s ≠ .moved :=
  h.endsIn.ne_moved

theorem HaltsIn.iterate (h : m.HaltsIn n m' s) : m.iterate n = .ok m' := by
  induction h with
  | last _ hstep => exact iterate_succ (iterate_zero _) hstep
  | more hstep _ ih => rw [iterate_succ_of_step hstep, ih]

theorem HaltsIn.halted (h : m.HaltsIn n m' s) : m'.halted = true := by
  induction h with
  | last _ hstep hs =>
    rw [← Bool.not_eq_false, halted_step hstep]
    exact hs
  | more _ _ ih => exact ih

/-- A machine that has halted after some steps, and had not before, took so many or fewer. -/
theorem exists_haltsIn (hlive : m.halted = false) (h : m.iterate n = .ok m')
    (hhalted : m'.halted = true) : ∃ k s, k ≤ n ∧ m.HaltsIn k m' s := by
  induction n generalizing m with
  | zero =>
    cases h
    cases hlive.symm.trans hhalted
  | succ n ih =>
    simp only [Machine.iterate] at h
    split at h
    · cases h
    · rename_i p s hstep
      by_cases hs : s = .moved
      · subst hs
        obtain ⟨k, s, hk, hp⟩ := ih ((halted_step hstep).mpr rfl) h
        exact ⟨k + 1, s, by omega, .more hstep hp⟩
      · -- the first step makes the machine halt, and the others do nothing
        have hp : p.halted = true := by
          rw [← Bool.not_eq_false, halted_step hstep]
          exact hs
        rw [iterate_of_halted hp] at h
        cases h
        exact ⟨1, s, by omega, .last hlive hstep hs⟩

/-- A machine that has halted after some steps comes to an end, at once if it had halted before. -/
theorem exists_endsIn (h : m.iterate n = .ok m') (hhalted : m'.halted = true) :
    ∃ k s, m.EndsIn k m' s := by
  cases hlive : m.halted with
  | false =>
    obtain ⟨k, s, -, hhalts⟩ := exists_haltsIn hlive h hhalted
    exact ⟨k, s, hhalts.endsIn⟩
  | true =>
    rw [iterate_of_halted hlive] at h
    cases h
    exact ⟨1, _, .last (step_of_halted hlive) (by simp)⟩

/-- A bounded run of a machine that halts leads to the end, or so many steps nearer to it. -/
theorem HaltsIn.run (h : m.HaltsIn n m' s) (budget : Nat) :
    m.run budget = .ok (m', s) ∨
      ∃ p k, m.run budget = .ok (p, .moved) ∧ k + budget = n ∧ p.HaltsIn k m' s := by
  by_cases hle : n ≤ budget
  · exact .inl (h.endsIn.run_of_le hle)
  · obtain ⟨p, hrun, hp⟩ := h.endsIn.exists_run_of_lt (Nat.lt_of_not_le hle)
    -- a run that has spent its budget leaves a machine that has not halted
    have hlive : p.halted = false := by
      rcases run_cases hrun with ⟨-, -, hlive⟩ | ⟨_, _, -, -, -, -, hne⟩
      · exact hlive h.live
      · exact absurd rfl hne
    exact .inr ⟨p, n - budget, hrun, by omega, hp.haltsIn hlive⟩

/-! ## Ways to halt -/

/-- The rule that the next step applies, if it applies one. -/
def nextRule? (m : Machine) : Option Rule :=
  if m.halted then none
  else (m.program.table.get? m.state m.symbol).filter fun rule =>
    (m.position.move? rule.direction.offset).isSome

/-- What is in the way of a machine that applies no rule: there is none for its state and the symbol
under its head, or the rule there is leads past the last cell. -/
def obstacle (m : Machine) : Error :=
  match m.program.table.get? m.state m.symbol with
  | none => .noRule m.state m.symbol
  | some _ => .tapeEnd m.position

/-- Stopping changes nothing of what the obstacle is read off. -/
theorem obstacle_stop (m : Machine) : m.stop.obstacle = m.obstacle :=
  rfl

/-- The machine `m` becomes `m'`, which has halted, by steps of which the last applies the given
rule, or none. -/
def HaltsBy (m m' : Machine) (rule? : Option Rule) : Prop :=
  ∃ n p s, m.iterate n = .ok p ∧ p.halted = false ∧ p.nextRule? = rule? ∧
    p.step = .ok (m', s) ∧ m'.halted = true

/-- How a step of a machine that has not halted can end. -/
theorem step_cases (hlive : m.halted = false) (h : m.step = .ok (m', s)) :
    (s = .moved ∧ m'.halted = false) ∨
    (s = .halted ∧ m'.halted = true ∧ ∃ rule, m.nextRule? = some rule ∧ rule.next = .halt) ∨
    (s = .stopped m'.obstacle ∧ m'.halted = true ∧ m.nextRule? = none) := by
  cases stepsTo_of_step h with
  | still hhalted =>
    rw [hlive] at hhalted
    cases hhalted
  | noRule _ hrule =>
    have hobstacle : m.stop.obstacle = .noRule m.state m.symbol := by
      rw [obstacle_stop, obstacle, hrule]
    exact .inr (.inr ⟨by rw [hobstacle], rfl, by simp [nextRule?, hlive, hrule]⟩)
  | tapeEnd _ hrule hmove =>
    have hobstacle : m.stop.obstacle = .tapeEnd m.position := by
      rw [obstacle_stop, obstacle, hrule]
    exact .inr (.inr ⟨by rw [hobstacle], rfl, by simp [nextRule?, hlive, hrule, hmove]⟩)
  | rule _ hrule hmove =>
    rename_i rule _ _ _ _ _
    cases hhalt : rule.next.isHalt with
    | false => exact .inl ⟨by simp, rfl⟩
    | true =>
      refine .inr (.inl ⟨by simp, rfl, rule, ?_, StateId.isHalt_iff.mp hhalt⟩)
      simp [nextRule?, hlive, hrule, hmove]

/-- Only a machine that has not halted can halt. -/
theorem HaltsBy.live (h : m.HaltsBy m' rule?) : m.halted = false := by
  obtain ⟨n, p, s, hn, hp, -⟩ := h
  cases hhalted : m.halted with
  | false => rfl
  | true =>
    cases (iterate_of_halted hhalted n).symm.trans hn
    rw [hhalted] at hp
    cases hp

theorem HaltsBy.halted (h : m.HaltsBy m' rule?) : m'.halted = true := by
  obtain ⟨-, -, -, -, -, -, -, hhalted⟩ := h
  exact hhalted

/-- After a machine has halted nothing changes. -/
theorem HaltsBy.eq_of_iterate (h : m.HaltsBy p rule?) (hn : p.iterate n = .ok q) :
    q = p := by
  rw [iterate_of_halted h.halted] at hn
  cases hn
  rfl

/-- Where a step makes a machine halt, it has not halted before and has halted ever after. -/
private theorem le_of_halted_step {k : Nat} (hn : m.iterate n = .ok p)
    (hstep : p.step = .ok (m', s)) (hhalted : m'.halted = true) (hk : m.iterate k = .ok q)
    (hlive : q.halted = false) : k ≤ n := by
  apply Nat.le_of_not_lt
  intro hlt
  obtain ⟨j, rfl⟩ : ∃ j, k = n + 1 + j := ⟨k - (n + 1), by omega⟩
  rw [iterate_add (iterate_succ hn hstep), iterate_of_halted hhalted] at hk
  cases hk
  rw [hhalted] at hlive
  cases hlive

/-- A machine halts in one way only. -/
theorem HaltsBy.unique {m₁ m₂ : Machine} {rule₁? rule₂? : Option Rule} (h₁ : m.HaltsBy m₁ rule₁?)
    (h₂ : m.HaltsBy m₂ rule₂?) : m₁ = m₂ ∧ rule₁? = rule₂? := by
  obtain ⟨n₁, p₁, s₁, hn₁, hlive₁, hrule₁, hstep₁, hhalted₁⟩ := h₁
  obtain ⟨n₂, p₂, s₂, hn₂, hlive₂, hrule₂, hstep₂, hhalted₂⟩ := h₂
  -- both last steps are the same
  have hle₁ := le_of_halted_step hn₁ hstep₁ hhalted₁ hn₂ hlive₂
  have hle₂ := le_of_halted_step hn₂ hstep₂ hhalted₂ hn₁ hlive₁
  obtain rfl : n₁ = n₂ := by omega
  cases hn₁.symm.trans hn₂
  cases hstep₁.symm.trans hstep₂
  exact ⟨rfl, hrule₁.symm.trans hrule₂⟩

/-- Steps that lead to a machine which halts come before those by which it halts. -/
theorem HaltsBy.of_iterate (hn : m.iterate n = .ok p) (h : p.HaltsBy m' rule?) :
    m.HaltsBy m' rule? := by
  obtain ⟨k, q, s, hk, hlast⟩ := h
  exact ⟨n + k, q, s, by rw [iterate_add hn]; exact hk, hlast⟩

/-- A machine that has halted after some steps, and had not before, halted in some way. -/
theorem exists_haltsBy (hlive : m.halted = false) (h : m.iterate n = .ok m')
    (hhalted : m'.halted = true) : ∃ rule?, m.HaltsBy m' rule? := by
  obtain ⟨k, s, -, hhalts⟩ := exists_haltsIn hlive h hhalted
  clear h
  induction hhalts with
  | last hlive hstep => exact ⟨_, 0, _, _, rfl, hlive, rfl, hstep, hhalted⟩
  | more hstep _ ih =>
    obtain ⟨rule?, hhalts⟩ := ih ((halted_step hstep).mpr rfl) hhalted
    exact ⟨rule?, hhalts.of_iterate (iterate_succ (iterate_zero _) hstep)⟩

/-- A machine halts in the course of two runs exactly if it does so in one of them. -/
theorem haltsBy_iff_of_iterate {j k : Nat} (hp : m.iterate j = .ok p) (hq : p.iterate k = .ok q) :
    m.HaltsBy q rule? ↔ m.HaltsBy p rule? ∨ p.HaltsBy q rule? := by
  cases hhalted : p.halted with
  | true =>
    -- then the second run does nothing
    cases (iterate_of_halted hhalted k).symm.trans hq
    constructor
    · exact .inl
    · intro h
      rcases h with h | h
      · exact h
      · exact h.of_iterate hp
  | false =>
    constructor
    · intro h
      obtain ⟨other?, hother⟩ := exists_haltsBy hhalted hq h.halted
      obtain ⟨-, rfl⟩ := h.unique (hother.of_iterate hp)
      exact .inr hother
    · intro h
      rcases h with h | h
      · rw [h.halted] at hhalted
        cases hhalted
      · exact h.of_iterate hp

/-- The result of the last step says in which way the machine came to rest, and names the
obstacle if no rule was applied. -/
theorem RestsAs.haltsBy (h : m.RestsAs m' s) :
    (s = .halted ∧ ∃ rule, rule.next = .halt ∧ m.HaltsBy m' (some rule)) ∨
      (s = .stopped m'.obstacle ∧ m.HaltsBy m' none) := by
  obtain ⟨n, p, hn, hlive, hstep⟩ := h.last
  rcases step_cases hlive hstep with ⟨rfl, -⟩ | ⟨rfl, hhalted, rule, hrule, hnext⟩ |
    ⟨rfl, hhalted, hrule⟩
  · exact absurd rfl h.ne_moved
  · exact .inl ⟨rfl, rule, hnext, n, p, _, hn, hlive, hrule, hstep, hhalted⟩
  · exact .inr ⟨rfl, n, p, _, hn, hlive, hrule, hstep, hhalted⟩

end SingleTape.Machine
