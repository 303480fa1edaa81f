import Mathlib.Data.List.Sort
import SingleTape.Proofs.Table.Exploration

/-!
# Traversals in any order

`Table.unreachable` follows the rules of a table in one fixed order.  A table has no order of its own,
though, and a traversal may go through the rules of a state in any order, and through the states when
it collects those that it has not visited.  `Table.Turn` is one turn of such a traversal, with every
order allowed: the next pending state is dropped if it was visited before, and otherwise visited, and
those of its successors that were not visited are put in front of what is pending.  A state may be
pending several times, by way of several rules.

Every turn uses up a pending state or the rules of a state for good, so a traversal ends.  What it
has visited and has yet to visit is reachable, and what the visited states lead to is visited or
pending (`Table.Traversal.Exact`).  So in the end exactly the reachable states are visited, and once
the others are sorted nothing is left of the order in which all this was done.

## Key results

- `Table.Turns.length_add_work_le`: a bound on the number of turns
- `Table.Traversal.Exact.mem_visited_iff`: a traversal that has ended has visited what is reachable
- `Table.mem_unreachable_iff`: the states that are listed as unreachable
- `Table.unreachable_exact`: every traversal ends and leaves exactly these states
-/

namespace SingleTape.Table

variable {t : Table}

/-! ## The listed order -/

/-- Exploring leaves the remaining states in their order. -/
theorem unreached_sublist (t : Table) (remaining pending : List StateId) :
    (t.unreached remaining pending).Sublist remaining := by
  fun_induction unreached t remaining pending with
  | case1 remaining => exact List.Sublist.refl _
  | case2 remaining q pending _ ih => exact ih.trans List.erase_sublist
  | case3 remaining q pending _ ih => exact ih

/-- The unreachable states are listed in ascending order. -/
theorem ordered_unreachable (t : Table) :
    t.unreachable.Pairwise fun a b => compare a b = .lt :=
  t.rules.ordered_keys.sublist (t.unreached_sublist _ _)

theorem nodup_unreachable (t : Table) : t.unreachable.Nodup :=
  t.nodup_states.sublist (t.unreached_sublist _ _)

/-- A state that is taken off can be reached, if what was pending can be. -/
theorem leads_of_not_mem_unreached {remaining pending : List StateId} {p q : StateId}
    (hpending : ∀ r ∈ pending, t.Leads p r) (hq : q ∈ remaining)
    (hoff : q ∉ t.unreached remaining pending) : t.Leads p q := by
  fun_induction unreached t remaining pending with
  | case1 remaining => exact absurd hq hoff
  | case2 remaining r pending _ ih =>
    have hr := hpending r List.mem_cons_self
    by_cases hqr : q = r
    · rw [hqr]
      exact hr
    · -- a rule of the state that is taken off leads on from it
      refine ih ?_ ((List.mem_erase_of_ne hqr).mpr hq) hoff
      intro r' hr'
      rcases List.mem_append.mp hr' with hnext | hrest
      · exact .step hr hnext
      · exact hpending r' (List.mem_cons_of_mem r hrest)
  | case3 remaining r pending _ ih =>
    exact ih (fun r' hr' => hpending r' (List.mem_cons_of_mem r hr')) hq hoff

/-- The listed states to which no chain of rules leads are the unreachable ones. -/
theorem mem_unreachable_iff {q : StateId} :
    q ∈ t.unreachable ↔ q ∈ t.states ∧ ¬t.Leads .initial q := by
  constructor
  · intro hq
    exact ⟨mem_of_mem_unreached hq, fun hleads => not_mem_unreachable_of_leads hleads hq⟩
  · intro hq
    by_contra hoff
    apply hq.2
    refine leads_of_not_mem_unreached ?_ hq.1 hoff
    intro r hr
    rw [List.mem_singleton.mp hr]
    exact .refl _

/-! ## Any order -/

/-- A traversal in the midst of its work. -/
structure Traversal where
  /-- The states that were visited. -/
  visited : List StateId
  /-- The states that have yet to be visited, the next one in front. -/
  pending : List StateId

/-- A traversal that has yet to visit the initial state. -/
def Traversal.start : Traversal := ⟨[], [.initial]⟩

/-- The states of a list that were not visited, sorted. -/
def Traversal.unvisited (s : Traversal) (states : List StateId) : List StateId :=
  (states.filter (· ∉ s.visited)).mergeSort fun a b => (compare a b).isLE

/-- One turn of a traversal. -/
inductive Turn (t : Table) : Traversal → Traversal → Prop where
  /-- The next state was visited before. -/
  | skip {visited pending : List StateId} {q : StateId} (hq : q ∈ visited) :
      Turn t ⟨visited, q :: pending⟩ ⟨visited, pending⟩
  /-- The next state is visited; its rules come in any order. -/
  | visit {visited pending order : List StateId} {q : StateId} (hq : q ∉ visited)
      (horder : order.Perm (t.successors q)) :
      Turn t ⟨visited, q :: pending⟩
        ⟨q :: visited, order.filter (· ∉ q :: visited) ++ pending⟩

/-- So many turns one after the other. -/
inductive Turns (t : Table) (s : Traversal) : Nat → Traversal → Prop where
  | refl : Turns t s 0 s
  | step {n : Nat} {s₁ s₂ : Traversal} : Turns t s n s₁ → Turn t s₁ s₂ → Turns t s (n + 1) s₂

/-- A traversal goes on as long as anything is pending. -/
theorem exists_turn (t : Table) {s : Traversal} (h : s.pending ≠ []) : ∃ s', t.Turn s s' := by
  obtain ⟨visited, pending⟩ := s
  cases pending with
  | nil => exact absurd rfl h
  | cons q pending =>
    by_cases hq : q ∈ visited
    · exact ⟨_, .skip hq⟩
    · exact ⟨_, .visit hq (List.Perm.refl _)⟩

/-! ### How long a traversal takes -/

/-- A bound on the turns that are left: what is pending, and what is to be explored. -/
def Traversal.work (t : Table) (s : Traversal) : Nat :=
  t.weight (t.states.filter (· ∉ s.visited)) + s.pending.length

/-- Visiting a state leaves less to be explored, by its rules at least. -/
theorem weight_filter_cons_le (t : Table) {visited : List StateId} {q : StateId}
    (hq : q ∉ visited) :
    t.weight (t.states.filter (· ∉ q :: visited)) + (t.successors q).length ≤
      t.weight (t.states.filter (· ∉ visited)) := by
  have hnodup := t.nodup_states.filter fun p => decide (p ∉ visited)
  have herase : t.states.filter (· ∉ q :: visited) = (t.states.filter (· ∉ visited)).erase q := by
    rw [hnodup.erase_eq_filter, List.filter_filter]
    apply List.filter_congr
    intro p _
    simp only [List.mem_cons, not_or, Bool.decide_and, decide_not, bne, beq_eq_decide]
  rw [herase]
  by_cases hlisted : q ∈ t.states
  · have hmem : q ∈ t.states.filter (· ∉ visited) := by simp [hlisted, hq]
    have hweight := t.weight_erase hmem
    omega
  · rw [successors_of_not_mem_states hlisted, List.length_nil, Nat.add_zero,
      List.erase_of_not_mem fun hmem => hlisted (List.mem_filter.mp hmem).1]

/-- **One turn** leaves fewer turns to be taken. -/
theorem Turn.work_lt {s s' : Traversal} (h : t.Turn s s') : s'.work t < s.work t := by
  cases h with
  | skip => simp [Traversal.work]
  | visit hq horder =>
    rename_i visited pending order q
    have hweight := t.weight_filter_cons_le hq
    have hfilter := List.length_filter_le (fun p => decide (p ∉ q :: visited)) order
    rw [horder.length_eq] at hfilter
    simp only [Traversal.work, List.length_append, List.length_cons]
    omega

/-- **Any turns** are paid for by the work that there was in the beginning. -/
theorem Turns.length_add_work_le {s s' : Traversal} {n : Nat} (h : t.Turns s n s') :
    n + s'.work t ≤ s.work t := by
  induction h with
  | refl => omega
  | step _ hturn ih =>
    have hlt := hturn.work_lt
    omega

/-- There is one turn to be explored for each rule and for each listed state. -/
theorem weight_states (t : Table) : t.weight t.states = t.size + t.stateCount := by
  have hentries : ∀ entries : List (StateId × RuleMap),
      (∀ e ∈ entries, t.rulesOf? e.1 = some e.2) →
      t.weight (entries.map Prod.fst) =
        (entries.map Prod.snd).foldr (fun rules n => rules.size + n) 0 + entries.length := by
    intro entries hrules
    induction entries with
    | nil => rfl
    | cons e entries ih =>
      have hlength : (t.successors e.1).length = e.2.size := by
        have hvalues : e.2.values.length = e.2.size := by
          rw [Std.ExtTreeMap.values_eq_map_toList, List.length_map, Std.ExtTreeMap.length_toList]
        simp only [successors, hrules e List.mem_cons_self, List.length_map, hvalues]
      have hrest := ih fun e' he' => hrules e' (List.mem_cons_of_mem e he')
      simp only [List.map_cons, weight, List.foldr_cons, List.length_cons, hlength, hrest]
      omega
  have hall := hentries t.rules.toList fun e he =>
    Std.ExtTreeMap.mem_toList_iff_getElem?_eq_some.mp he
  rw [Std.ExtTreeMap.map_fst_toList_eq_keys, ← Std.ExtTreeMap.values_eq_map_toList,
    Std.ExtTreeMap.length_toList] at hall
  exact hall

theorem work_start (t : Table) : Traversal.start.work t = t.size + t.stateCount + 1 := by
  have hall : t.states.filter (· ∉ Traversal.start.visited) = t.states := by
    simp [Traversal.start]
  rw [Traversal.work, hall, weight_states]
  rfl

/-! ### What a traversal visits -/

/-- What is true of a traversal at every turn. -/
structure Traversal.Exact (t : Table) (s : Traversal) : Prop where
  /-- Everything that was or will be visited can be reached. -/
  leads : ∀ q, q ∈ s.visited ∨ q ∈ s.pending → t.Leads .initial q
  initial : .initial ∈ s.visited ∨ .initial ∈ s.pending
  /-- What a visited state leads to was or will be visited. -/
  closed : ∀ q ∈ s.visited, ∀ r ∈ t.successors q, r ∈ s.visited ∨ r ∈ s.pending

theorem exact_start (t : Table) : Traversal.start.Exact t := by
  refine ⟨?_, .inr List.mem_cons_self, ?_⟩
  · intro q hq
    simp only [Traversal.start, List.not_mem_nil, List.mem_singleton, false_or] at hq
    rw [hq]
    exact .refl _
  · intro q hq
    exact absurd hq List.not_mem_nil

/-- What was or will be visited stays so. -/
theorem Turn.mem_of_mem {s s' : Traversal} (h : t.Turn s s') {q : StateId}
    (hq : q ∈ s.visited ∨ q ∈ s.pending) : q ∈ s'.visited ∨ q ∈ s'.pending := by
  cases h with
  | skip hvisited =>
    -- the state that is dropped was visited
    simp only [List.mem_cons] at hq ⊢
    rcases hq with hq | rfl | hq
    · exact .inl hq
    · exact .inl hvisited
    · exact .inr hq
  | visit hnew horder =>
    simp only [List.mem_cons, List.mem_append] at hq ⊢
    rcases hq with hq | rfl | hq
    · exact .inl (.inr hq)
    · exact .inl (.inl rfl)
    · exact .inr (.inr hq)

/-- **One turn** keeps the invariant, whatever the order of the rules. -/
theorem Traversal.Exact.turn {s s' : Traversal} (h : s.Exact t) (hturn : t.Turn s s') :
    s'.Exact t := by
  refine ⟨?_, hturn.mem_of_mem h.initial, ?_⟩
  · intro q hq
    cases hturn with
    | skip =>
      rcases hq with hq | hq
      · exact h.leads q (.inl hq)
      · exact h.leads q (.inr (List.mem_cons_of_mem _ hq))
    | visit hnew horder =>
      rename_i visited pending order p
      have hp := h.leads p (.inr List.mem_cons_self)
      simp only [List.mem_cons, List.mem_append, List.mem_filter] at hq
      rcases hq with (rfl | hq) | ⟨hq, -⟩ | hq
      · exact hp
      · exact h.leads q (.inl hq)
      · exact .step hp (horder.mem_iff.mp hq)
      · exact h.leads q (.inr (List.mem_cons_of_mem _ hq))
  · intro q hq r hr
    by_cases hold : q ∈ s.visited
    · exact hturn.mem_of_mem (h.closed q hold r hr)
    · cases hturn with
      | skip => exact absurd hq hold
      | visit hnew horder =>
        rename_i visited pending order p
        -- the state that is visited right now has its new successors put in front
        rcases List.mem_cons.mp hq with rfl | hq
        · by_cases hvisited : r ∈ q :: visited
          · exact .inl hvisited
          · right
            apply List.mem_append_left
            rw [List.mem_filter]
            exact ⟨horder.mem_iff.mpr hr, by simpa using hvisited⟩
        · exact absurd hq hold

theorem Traversal.Exact.turns {s s' : Traversal} {n : Nat} (h : s.Exact t)
    (hturns : t.Turns s n s') : s'.Exact t := by
  induction hturns with
  | refl => exact h
  | step _ hturn ih => exact ih.turn hturn

/-- A traversal that has ended has visited exactly the reachable states. -/
theorem Traversal.Exact.mem_visited_iff {s : Traversal} (h : s.Exact t) (hend : s.pending = [])
    {q : StateId} : q ∈ s.visited ↔ t.Leads .initial q := by
  have hpending : ∀ r, r ∉ s.pending := by
    intro r
    rw [hend]
    exact List.not_mem_nil
  constructor
  · intro hq
    exact h.leads q (.inl hq)
  · intro hleads
    -- by induction on the chain of rules, along which the visited states are closed
    induction hleads with
    | refl => exact h.initial.resolve_right (hpending _)
    | step _ hr ih => exact (h.closed _ ih _ hr).resolve_right (hpending _)

/-- What a traversal that has ended leaves is listed as unreachable, in whatever order the states of
the table are gone through. -/
theorem Traversal.Exact.unvisited_eq {s : Traversal} (h : s.Exact t) (hend : s.pending = [])
    {states : List StateId} (hstates : states.Perm t.states) : s.unvisited states = t.unreachable := by
  have hsort : (s.unvisited states).Perm (states.filter (· ∉ s.visited)) := List.mergeSort_perm _ _
  have hnodup : (s.unvisited states).Nodup :=
    hsort.nodup_iff.mpr ((hstates.nodup_iff.mpr t.nodup_states).filter _)
  have hperm : (s.unvisited states).Perm t.unreachable := by
    rw [List.perm_ext_iff_of_nodup hnodup t.nodup_unreachable]
    intro q
    rw [hsort.mem_iff, List.mem_filter, hstates.mem_iff, mem_unreachable_iff, decide_eq_true_eq,
      h.mem_visited_iff hend]
  -- both lists hold the same states, and each is sorted
  have hsorted : (s.unvisited states).Pairwise fun a b => (compare a b).isLE = true := by
    apply List.pairwise_mergeSort
    · intro a b c hab hbc
      exact Std.TransOrd.isLE_trans hab hbc
    · intro a b
      rw [Std.OrientedOrd.eq_swap (a := b)]
      cases compare a b <;> rfl
  have hlisted : t.unreachable.Pairwise fun a b => (compare a b).isLE = true :=
    t.ordered_unreachable.imp fun hab => by rw [hab]; rfl
  refine hperm.eq_of_pairwise ?_ hsorted hlisted
  intro a b _ _ hab hba
  exact Std.LawfulEqOrd.eq_of_compare (Std.OrientedCmp.isLE_antisymm hab hba)

/-- **Unreachable states.** For every table, whatever states its rules lead to, the states that are
listed as unreachable are exactly the listed states to which no chain of rules leads from the initial
state, each once and in strictly ascending order.  A traversal that starts at the initial state and
takes rules in any order goes on as long as anything is pending; it has ended after as many turns as
there are rules and listed states and one more, at the latest; and the states that it has not visited
in the end are these, in whatever order they are gone through before they are sorted. -/
theorem unreachable_exact (t : Table) :
    t.unreachable.Pairwise (fun a b => a.name < b.name) ∧
    (∀ q, q ∈ t.unreachable ↔ q ∈ t.states ∧ ¬t.Leads .initial q) ∧
    ∀ n s, t.Turns .start n s →
      n ≤ t.size + t.stateCount + 1 ∧
      (s.pending ≠ [] → ∃ s', t.Turn s s') ∧
      (s.pending = [] → ∀ states, states.Perm t.states → s.unvisited states = t.unreachable) := by
  refine ⟨?_, fun q => mem_unreachable_iff, ?_⟩
  · exact t.ordered_unreachable.imp fun hab => compareOfLessAndEq_eq_lt.mp hab
  · intro n s hturns
    have hbound := hturns.length_add_work_le
    rw [work_start] at hbound
    have hexact := (exact_start t).turns hturns
    exact ⟨by omega, t.exists_turn, fun hend states hstates => hexact.unvisited_eq hend hstates⟩

end SingleTape.Table
