import SingleTape.Table.Reachable
import SingleTape.Proofs.ForStd.ExtTreeMap

/-!
# Exploring a table

`Table.unreached` takes states off a list while it follows the rules.  Two facts make up its loop
invariant (`Table.Explored`): no state is listed twice, so a state that was taken off is off for
good, and a state that is off has all its successors off or pending.  Once nothing is pending, the
states that are off are closed under the rules.

## Key results

- `Table.Explored.unreached`: the exploration ends with a closed set of states taken off
- `Table.not_mem_unreachable_of_leads`: a state to which the rules lead is not listed as unreachable
-/

namespace SingleTape.Table

variable {t : Table} {remaining pending : List StateId}

/-- The rule for a state and a symbol leads to a successor of the state. -/
theorem mem_successors_of_get? {q : StateId} {a : Char} {rule : Rule}
    (h : t.get? q a = some rule) : rule.next ∈ t.successors q := by
  obtain ⟨rules, hq, ha⟩ := Option.bind_eq_some_iff.mp h
  have hvalue := Std.ExtTreeMap.mem_values_of_getElem? ha
  simp only [successors, hq]
  exact List.mem_map.mpr ⟨rule, hvalue, rfl⟩

/-- What is true of the lists at every turn of the exploration. -/
structure Explored (t : Table) (remaining pending : List StateId) : Prop where
  nodup : remaining.Nodup
  /-- A state that was taken off has its successors off or pending. -/
  closed : ∀ q, q ∉ remaining → ∀ r ∈ t.successors q, r ∉ remaining ∨ r ∈ pending

/-- Taking a pending state off and putting its successors in its place. -/
theorem Explored.erase {q : StateId} (h : t.Explored remaining (q :: pending)) :
    t.Explored (remaining.erase q) (t.successors q ++ pending) := by
  have hmem : ∀ p, p ∈ remaining.erase q ↔ p ≠ q ∧ p ∈ remaining := fun p => h.nodup.mem_erase_iff
  constructor
  · exact h.nodup.erase q
  · intro p hp r hr
    rw [hmem, not_and] at hp
    rw [hmem, List.mem_append]
    by_cases hpq : p = q
    · -- the state that is taken off right now
      right
      left
      rwa [hpq] at hr
    · -- a state that was off before: what was pending is so still, or is the state taken off now
      rcases h.closed p (hp hpq) r hr with hoff | hpending
      · left
        exact fun hr' => hoff hr'.2
      · rcases List.mem_cons.mp hpending with hrq | hrest
        · left
          exact fun hr' => hr'.1 hrq
        · right
          right
          exact hrest

/-- Leaving out a pending state that is off already. -/
theorem Explored.skip {q : StateId} (h : t.Explored remaining (q :: pending))
    (hq : q ∉ remaining) : t.Explored remaining pending := by
  constructor
  · exact h.nodup
  · intro p hp r hr
    rcases h.closed p hp r hr with hoff | hpending
    · left
      exact hoff
    · rcases List.mem_cons.mp hpending with hrq | hrest
      · left
        rwa [hrq]
      · right
        exact hrest

/-- **Exploration.** In the end nothing is pending, so the states that were taken off have all their
successors off. -/
theorem Explored.unreached (h : t.Explored remaining pending) :
    t.Explored (t.unreached remaining pending) [] := by
  fun_induction Table.unreached t remaining pending with
  | case1 remaining => exact h
  | case2 remaining q pending _ ih => exact ih h.erase
  | case3 remaining q pending hq ih => exact ih (h.skip hq)

/-- Nothing is put back on the list. -/
theorem mem_of_mem_unreached {q : StateId} (h : q ∈ t.unreached remaining pending) :
    q ∈ remaining := by
  fun_induction Table.unreached t remaining pending with
  | case1 remaining => exact h
  | case2 remaining p pending _ ih => exact List.mem_of_mem_erase (ih h)
  | case3 remaining p pending _ ih => exact ih h

/-- What is pending is taken off. -/
theorem not_mem_unreached_of_mem_pending (hnodup : remaining.Nodup) {q : StateId}
    (hq : q ∈ pending) : q ∉ t.unreached remaining pending := by
  fun_induction Table.unreached t remaining pending with
  | case1 remaining => cases hq
  | case2 remaining p pending hp ih =>
    rcases List.mem_cons.mp hq with hqp | hrest
    · intro hmem
      have herase := mem_of_mem_unreached hmem
      rw [hnodup.mem_erase_iff] at herase
      exact herase.1 hqp
    · exact ih (hnodup.erase p) (List.mem_append_right _ hrest)
  | case3 remaining p pending hp ih =>
    rcases List.mem_cons.mp hq with hqp | hrest
    · rw [hqp]
      exact fun hmem => hp (mem_of_mem_unreached hmem)
    · exact ih hnodup hrest

theorem nodup_states (t : Table) : t.states.Nodup := by
  apply List.Pairwise.imp _ t.rules.distinct_keys
  intro a b hab heq
  exact hab (Std.LawfulEqCmp.compare_eq_iff_eq.mpr heq)

/-- A state that is not listed has no rules, so it leads nowhere. -/
theorem successors_of_not_mem_states {q : StateId} (h : q ∉ t.states) : t.successors q = [] := by
  have hnone : t.rulesOf? q = none := by
    rw [states, Std.ExtTreeMap.mem_keys] at h
    exact Std.ExtTreeMap.getElem?_eq_none h
  simp only [successors, hnone]

/-- The exploration may begin with all states, whatever is pending. -/
theorem explored_states (t : Table) (pending : List StateId) : t.Explored t.states pending := by
  constructor
  · exact t.nodup_states
  · intro q hq r hr
    rw [successors_of_not_mem_states hq] at hr
    cases hr

/-- A state to which the rules lead from the initial state is not listed as unreachable. -/
theorem not_mem_unreachable_of_leads {q : StateId} (h : t.Leads .initial q) :
    q ∉ t.unreachable := by
  -- by induction on the chain of rules, whose beginning is pending and whose links stay closed
  induction h with
  | refl => exact not_mem_unreached_of_mem_pending t.nodup_states List.mem_cons_self
  | step _ hr ih =>
    rcases (t.explored_states [.initial]).unreached.closed _ ih _ hr with hoff | hpending
    · exact hoff
    · cases hpending

end SingleTape.Table
