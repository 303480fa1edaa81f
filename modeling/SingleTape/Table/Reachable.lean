import SingleTape.Table

/-!
# States that no run can enter

A state is reachable if a chain of rules leads to it from the initial state.  `unreached`
explores the table from a list of pending states and takes every state it meets off the list of
remaining ones; what remains in the end was not met, and stands in the order in which it was
given.  The exploration ends because every state is taken off once at most and brings as many
pending states as it has rules.

* `weight_erase` what taking a state off leaves to explore
-/

namespace SingleTape.Table

/-- There is a chain of zero or more rules from the first state to the second. -/
inductive Leads (t : Table) : StateId → StateId → Prop where
  /-- Every state leads to itself. -/
  | refl (q : StateId) : Leads t q q
  /-- A chain may be continued by one rule. -/
  | step {p q r : StateId} : Leads t p q → r ∈ t.successors q → Leads t p r

/-- The number of turns that exploring the given states can take: one for each state, and one for
each rule that leads away from it. -/
def weight (t : Table) : List StateId → Nat
  | [] => 0
  | q :: rest => (t.successors q).length + 1 + weight t rest

theorem weight_erase (t : Table) {q : StateId} {remaining : List StateId} (h : q ∈ remaining) :
    (t.successors q).length + 1 + t.weight (remaining.erase q) = t.weight remaining := by
  induction remaining with
  | nil => simp at h
  | cons p rest ih =>
    by_cases hp : p = q
    · simp [hp, weight]
    · have hmem : q ∈ rest := by simpa [Ne.symm hp] using h
      have := ih hmem
      rw [List.erase_cons_tail (by simpa using hp)]
      simp only [weight]
      omega

/-- Those of the remaining states that are not met when exploring from the pending ones. -/
def unreached (t : Table) : (remaining pending : List StateId) → List StateId
  | remaining, [] => remaining
  | remaining, q :: pending =>
    if q ∈ remaining then unreached t (remaining.erase q) (t.successors q ++ pending)
    else unreached t remaining pending
termination_by remaining pending => t.weight remaining + pending.length
decreasing_by
  · have := t.weight_erase ‹q ∈ remaining›
    simp only [List.length_append, List.length_cons]
    omega
  · simp

/-- The listed states that cannot be reached from the initial state, in ascending order. -/
def unreachable (t : Table) : List StateId :=
  t.unreached t.states [.initial]

end SingleTape.Table
