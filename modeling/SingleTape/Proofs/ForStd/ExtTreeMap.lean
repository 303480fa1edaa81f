import Std.Data.ExtTreeMap
import Mathlib.Data.List.Perm.Basic

/-!
# Map lemmas for the standard library

Totals over the values of a `Std.ExtTreeMap`: what inserting an entry does to a sum over all
values, whether the key was there before or not.  The entries of a map are a list without
repeated keys, so inserting permutes that list up to the one entry that changes.  For the same
reason a map is made again from its entries, in whatever order they are given.

The least and the greatest key are told by `≤` where the keys have a linear order.
-/

namespace Std.ExtTreeMap

variable {α β : Type} {cmp : α → α → Ordering} [TransCmp cmp]

/-- The values are the second components of the entries, in the same order. -/
theorem values_eq_map_toList (t : ExtTreeMap α β cmp) : t.values = t.toList.map Prod.snd := by
  have hfold : t.values = t.foldr (fun _ v vs => v :: vs) [] := rfl
  rw [hfold, foldr_eq_foldr_toList]
  induction t.toList with
  | nil => rfl
  | cons p entries ih => simp [ih]

variable [LawfulEqCmp cmp]

/-- What stands under a key is one of the values. -/
theorem mem_values_of_getElem? {t : ExtTreeMap α β cmp} {k : α} {v : β} (h : t[k]? = some v) :
    v ∈ t.values := by
  rw [values_eq_map_toList, List.mem_map]
  exact ⟨(k, v), mem_toList_iff_getElem?_eq_some.mpr h, rfl⟩

/-- No entry is listed twice. -/
theorem nodup_toList (t : ExtTreeMap α β cmp) : t.toList.Nodup := by
  refine List.Pairwise.imp ?_ t.distinct_keys_toList
  rintro a b hab rfl
  exact hab (by simp)

variable [DecidableEq α]

/-- Inserting puts one entry in front of those with other keys, up to the order. -/
theorem toList_insert_perm_cons (t : ExtTreeMap α β cmp) (k : α) (v : β) :
    (t.insert k v).toList.Perm ((k, v) :: t.toList.filter fun p => p.1 ≠ k) := by
  -- neither list has repetitions, so it is enough to compare their members
  have hnot : (k, v) ∉ t.toList.filter fun p => p.1 ≠ k := by simp
  rw [List.perm_ext_iff_of_nodup (nodup_toList _)
    (List.nodup_cons.mpr ⟨hnot, (nodup_toList t).filter _⟩)]
  rintro ⟨k', v'⟩
  rw [mem_toList_iff_getElem?_eq_some, getElem?_insert]
  by_cases hk : k = k'
  · subst hk
    have hself : cmp k k = .eq := ReflCmp.compare_self
    simp only [hself, ↓reduceIte, Option.some.injEq, List.mem_cons, Prod.mk.injEq,
      true_and, List.mem_filter, ne_eq, not_true_eq_false, decide_false, Bool.false_eq_true,
      and_false, or_false]
    exact eq_comm
  · simp [hk, Ne.symm hk, mem_toList_iff_getElem?_eq_some]

/-- The entries are those with other keys and the one with the given key, if there is one. -/
theorem toList_perm_of_getElem? {t : ExtTreeMap α β cmp} {k : α} {v : β} (h : t[k]? = some v) :
    t.toList.Perm ((k, v) :: t.toList.filter fun p => p.1 ≠ k) := by
  -- inserting the entry again changes nothing
  have hsame : t.insert k v = t := by
    ext k' v'
    by_cases hk : k = k'
    · subst hk
      simp [h]
    · simp [getElem?_insert, hk]
  have hperm := toList_insert_perm_cons t k v
  rwa [hsame] at hperm

/-- What inserting does to a total over the values: the amount of the old value is exchanged for
the amount of the new one. -/
theorem foldr_values_insert (f : β → Nat) (t : ExtTreeMap α β cmp) (k : α) (v : β) :
    (t.insert k v).values.foldr (fun v n => f v + n) 0 + (t[k]?.map f).getD 0 =
      t.values.foldr (fun v n => f v + n) 0 + f v := by
  have htotal : ∀ l₁ l₂ : List (α × β), l₁.Perm l₂ →
      (l₁.map Prod.snd).foldr (fun v n => f v + n) 0 =
        (l₂.map Prod.snd).foldr (fun v n => f v + n) 0 := by
    intro l₁ l₂ hperm
    have : LeftCommutative fun (v : β) (n : Nat) => f v + n := ⟨fun a b n => by omega⟩
    exact (hperm.map Prod.snd).foldr_eq 0
  rw [values_eq_map_toList, values_eq_map_toList, htotal _ _ (toList_insert_perm_cons t k v)]
  cases hk : t[k]? with
  | none =>
    -- all entries have other keys
    have hfilter : (t.toList.filter fun p => p.1 ≠ k) = t.toList := by
      rw [List.filter_eq_self]
      rintro ⟨k', v'⟩ hmem
      rw [mem_toList_iff_getElem?_eq_some] at hmem
      by_cases hk' : k' = k
      · rw [hk', hk] at hmem
        cases hmem
      · simpa using hk'
    rw [hfilter]
    simp only [List.map_cons, List.foldr_cons, Option.map_none, Option.getD_none]
    omega
  | some v₀ =>
    rw [htotal _ _ (toList_perm_of_getElem? hk)]
    simp only [List.map_cons, List.foldr_cons, Option.map_some, Option.getD_some]
    omega

/-- A map is made from its entries, in whatever order they are given. -/
theorem ofList_eq_of_perm {l : List (α × β)} {t : ExtTreeMap α β cmp} (h : l.Perm t.toList) :
    ofList l cmp = t := by
  have hdistinct : l.Pairwise fun a b => ¬cmp a.1 b.1 = .eq := by
    refine (h.pairwise_iff ?_).mpr t.distinct_keys_toList
    intro a b hab heq
    exact hab (OrientedCmp.eq_symm heq)
  have hentry : ∀ {k v}, (k, v) ∈ l ↔ t[k]? = some v := by
    intro k v
    rw [h.mem_iff, mem_toList_iff_getElem?_eq_some]
  apply ext_getElem?
  intro k
  cases hk : t[k]? with
  | some v => exact getElem?_ofList_of_mem ReflCmp.compare_self hdistinct (hentry.mpr hk)
  | none =>
    have hnot : k ∉ l.map Prod.fst := by
      intro hmem
      obtain ⟨⟨_, v⟩, hv, rfl⟩ := List.mem_map.mp hmem
      rw [hentry.mp hv] at hk
      cases hk
    exact getElem?_ofList_of_contains_eq_false (by simpa using hnot)

section Order

variable {γ : Type} [Ord γ] [LE γ] [TransOrd γ] [LawfulEqOrd γ] [LawfulOrderOrd γ]
  {t : ExtTreeMap γ β compare} {k : γ}

theorem minKey?_eq_some_iff_le : t.minKey? = some k ↔ k ∈ t ∧ ∀ j ∈ t, k ≤ j := by
  simp only [minKey?_eq_some_iff_mem_and_forall, isLE_compare]

theorem maxKey?_eq_some_iff_le : t.maxKey? = some k ↔ k ∈ t ∧ ∀ j ∈ t, j ≤ k := by
  simp only [maxKey?_eq_some_iff_mem_and_forall, isLE_compare]

end Order

end Std.ExtTreeMap
