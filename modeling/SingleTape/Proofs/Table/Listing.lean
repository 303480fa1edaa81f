import Mathlib.Data.Finset.Card
import Mathlib.Data.Finset.Dedup
import SingleTape.Program.Line
import SingleTape.Proofs.ForStd.ExtTreeMap

/-!
# Tables as lists of rules

A table is a map of maps; a program text is a list of rules.  `Table.Lists t rules` says that
the table `t` holds the given rules and nothing else, in terms of everything that can be asked of
a table.  The order of the list does not matter, and repetitions are excluded by `size_eq`.

## Key results

- `Table.Lists.insertNew?`: adding a rule to the table adds it to the list
- `Table.defines_iff`: a state is defined exactly if some rule of the table belongs to it
-/

namespace SingleTape

/-- What a rule is looked up by: its state and the symbol under the head. -/
def RuleText.key (r : RuleText) : StateId × Char :=
  (r.source, r.read)

namespace Table

/-! ## Single insertions -/

/-- The map of maps after an insertion. -/
private theorem rules_of_insertNew? {t t' : Table} {q : StateId} {a : Char} {rule : Rule}
    (h : t.insertNew? q a rule = some t') :
    t.get? q a = none ∧ t'.rules = t.rules.insert q (((t.rulesOf? q).getD ∅).insert a rule) := by
  unfold insertNew? at h
  split at h
  · cases h
  · rename_i hnone
    cases h
    exact ⟨by simpa using hnone, rfl⟩

/-- One rule more. -/
theorem size_insertNew? {t t' : Table} {q : StateId} {a : Char} {rule : Rule}
    (h : t.insertNew? q a rule = some t') : t'.size = t.size + 1 := by
  obtain ⟨hnone, hrules⟩ := rules_of_insertNew? h
  have htotal : t'.size + ((t.rules[q]?).map fun rules => rules.size).getD 0 =
      t.size + (((t.rulesOf? q).getD ∅).insert a rule).size := by
    rw [size, hrules]
    exact Std.ExtTreeMap.foldr_values_insert _ t.rules q _
  rw [Std.ExtTreeMap.size_insert, Std.ExtTreeMap.contains_eq_isSome_getElem?] at htotal
  -- the state has no rule for this symbol yet, whether it is listed or not
  cases hq : t.rules[q]? with
  | none =>
    simp only [rulesOf?, hq, Option.getD_none, Option.map_none, Std.ExtTreeMap.getElem?_empty,
      Option.isSome_none, Bool.false_eq_true, ↓reduceIte, Std.ExtTreeMap.size_empty] at htotal
    omega
  | some rules =>
    have ha : rules[a]? = none := by simpa only [get?, rulesOf?, hq, Option.bind_some] using hnone
    simp only [rulesOf?, hq, Option.getD_some, Option.map_some, ha, Option.isSome_none,
      Bool.false_eq_true, ↓reduceIte] at htotal
    omega

/-- One state more, unless the state was listed already. -/
theorem stateCount_insertNew? {t t' : Table} {q : StateId} {a : Char} {rule : Rule}
    (h : t.insertNew? q a rule = some t') :
    t'.stateCount = if (t.rulesOf? q).isSome then t.stateCount else t.stateCount + 1 := by
  obtain ⟨-, hrules⟩ := rules_of_insertNew? h
  rw [stateCount, hrules, Std.ExtTreeMap.size_insert, Std.ExtTreeMap.contains_eq_isSome_getElem?]
  rfl

/-- The rules of a state after an insertion are those of before, or a map that is not empty. -/
theorem rulesOf?_insertNew? {t t' : Table} {q : StateId} {a : Char} {rule : Rule}
    (h : t.insertNew? q a rule = some t') {q' : StateId} {rules : RuleMap}
    (hq' : t'.rulesOf? q' = some rules) : t.rulesOf? q' = some rules ∨ rules ≠ ∅ := by
  obtain ⟨-, hrules⟩ := rules_of_insertNew? h
  rw [rulesOf?, hrules, Std.ExtTreeMap.getElem?_insert] at hq'
  split at hq'
  · cases hq'
    exact .inr Std.ExtTreeMap.insert_ne_empty
  · exact .inl hq'

/-- A state that is listed with rules has a rule. -/
theorem exists_get?_of_rulesOf? {t : Table} {q : StateId} {rules : RuleMap}
    (hq : t.rulesOf? q = some rules) (hne : rules ≠ ∅) : ∃ a rule, t.get? q a = some rule := by
  rw [ne_eq, Std.ExtTreeMap.eq_empty_iff_forall_not_mem, not_forall] at hne
  obtain ⟨a, ha⟩ := hne
  rw [not_not] at ha
  exact ⟨a, rules[a], by simp [get?, hq, ha]⟩

/-- A state is defined exactly if it has a rule. -/
theorem defines_iff {t : Table} {q : StateId} :
    t.defines q = true ↔ ∃ a rule, t.get? q a = some rule := by
  cases hq : t.rulesOf? q with
  | none => simp [defines, get?, hq]
  | some rules =>
    simp only [defines, hq, Option.any_some, Bool.not_eq_true',
      Std.ExtTreeMap.isEmpty_eq_false_iff]
    constructor
    · exact exists_get?_of_rulesOf? hq
    · rintro ⟨a, rule, ha⟩ hempty
      simp [get?, hq, hempty] at ha

/-! ## Lists of rules -/

/-- The table holds exactly the given rules. -/
structure Lists (t : Table) (rules : List RuleText) : Prop where
  /-- A rule is found exactly if it is one of the list. -/
  get?_iff : ∀ q a rule, t.get? q a = some rule ↔
    ∃ r ∈ rules, r.source = q ∧ r.read = a ∧ r.rule = rule
  /-- There are as many rules in the table as in the list. -/
  size_eq : t.size = rules.length
  /-- There are as many listed states as there are states with rules. -/
  stateCount_eq : t.stateCount = (rules.map RuleText.source).toFinset.card
  /-- No state is listed without rules. -/
  ne_empty : ∀ q m, t.rulesOf? q = some m → m ≠ ∅

namespace Lists

/-- The empty table holds no rule. -/
theorem empty : Table.empty.Lists [] where
  get?_iff q a rule := by simp
  size_eq := rfl
  stateCount_eq := rfl
  ne_empty q m h := by simp [rulesOf?, Table.empty] at h

variable {t t' : Table} {rules : List RuleText} {r : RuleText}

/-- A state is listed exactly if a rule belongs to it. -/
theorem isSome_rulesOf?_iff (h : t.Lists rules) {q : StateId} :
    (t.rulesOf? q).isSome = true ↔ ∃ r ∈ rules, r.source = q := by
  constructor
  · intro hq
    obtain ⟨m, hm⟩ := Option.isSome_iff_exists.mp hq
    obtain ⟨a, rule, hrule⟩ := exists_get?_of_rulesOf? hm (h.ne_empty q m hm)
    obtain ⟨r, hr, hsource, -⟩ := (h.get?_iff q a rule).mp hrule
    exact ⟨r, hr, hsource⟩
  · rintro ⟨r, hr, rfl⟩
    have hrule := (h.get?_iff r.source r.read r.rule).mpr ⟨r, hr, rfl, rfl, rfl⟩
    cases hq : t.rulesOf? r.source with
    | none => simp [get?, hq] at hrule
    | some m => rfl

/-- A state is defined exactly if a rule belongs to it. -/
theorem defines_iff (h : t.Lists rules) {q : StateId} :
    t.defines q = true ↔ ∃ r ∈ rules, r.source = q := by
  rw [Table.defines_iff]
  constructor
  · rintro ⟨a, rule, hrule⟩
    obtain ⟨r, hr, hsource, -⟩ := (h.get?_iff q a rule).mp hrule
    exact ⟨r, hr, hsource⟩
  · rintro ⟨r, hr, rfl⟩
    exact ⟨r.read, r.rule, (h.get?_iff _ _ _).mpr ⟨r, hr, rfl, rfl, rfl⟩⟩

/-- A rule can be added exactly if its key is not in the list. -/
theorem isSome_get?_iff (h : t.Lists rules) :
    (t.get? r.source r.read).isSome = true ↔ r.key ∈ rules.map RuleText.key := by
  rw [Option.isSome_iff_exists, List.mem_map]
  constructor
  · rintro ⟨rule, hrule⟩
    obtain ⟨r', hr', hsource, hread, -⟩ := (h.get?_iff _ _ _).mp hrule
    exact ⟨r', hr', Prod.ext hsource hread⟩
  · rintro ⟨r', hr', hkey⟩
    obtain ⟨hsource, hread⟩ := Prod.mk.inj hkey
    exact ⟨r'.rule, (h.get?_iff _ _ _).mpr ⟨r', hr', hsource, hread, rfl⟩⟩

/-- Adding a rule to the table adds it to the list. -/
theorem insertNew? (h : t.Lists rules) (hr : t.insertNew? r.source r.read r.rule = some t') :
    t'.Lists (rules ++ [r]) where
  get?_iff q a rule := by
    rw [get?_insertNew? hr q a]
    split
    · rename_i hkey
      obtain ⟨rfl, rfl⟩ := hkey
      -- no rule of the old list has this key
      have hnew : ∀ r' ∈ rules, r'.source = r.source → r'.read ≠ r.read := by
        intro r' hr' hsource hread
        have hsome := h.isSome_get?_iff.mpr (List.mem_map.mpr ⟨r', hr', Prod.ext hsource hread⟩)
        have hnone : t.insertNew? r.source r.read r.rule = none := insertNew?_eq_none.mpr hsome
        cases hnone.symm.trans hr
      constructor
      · intro hrule
        exact ⟨r, by simp, rfl, rfl, Option.some.inj hrule⟩
      · rintro ⟨r', hr', hsource, hread, hrule⟩
        rcases List.mem_append.mp hr' with hr' | hr'
        · exact absurd hread (hnew r' hr' hsource)
        · rw [List.mem_singleton] at hr'
          rw [← hrule, hr']
    · -- at any other key the table is the old one, and the new rule does not count
      rename_i hkey
      rw [h.get?_iff]
      constructor
      · rintro ⟨r', hr', hrest⟩
        exact ⟨r', by simp [hr'], hrest⟩
      · rintro ⟨r', hr', hsource, hread, hrule⟩
        rcases List.mem_append.mp hr' with hr' | hr'
        · exact ⟨r', hr', hsource, hread, hrule⟩
        · rw [List.mem_singleton] at hr'
          subst hr'
          exact absurd ⟨hsource.symm, hread.symm⟩ hkey
  size_eq := by
    rw [size_insertNew? hr, h.size_eq]
    simp
  stateCount_eq := by
    -- the state is new to the table exactly if it is new to the list
    have hmem : r.source ∈ (rules.map RuleText.source).toFinset ↔
        (t.rulesOf? r.source).isSome = true := by
      rw [h.isSome_rulesOf?_iff]
      simp
    rw [stateCount_insertNew? hr, h.stateCount_eq, List.map_append, List.toFinset_append,
      List.map_singleton, List.toFinset_cons, List.toFinset_nil, LawfulSingleton.insert_empty_eq,
      Finset.union_comm, ← Finset.insert_eq]
    split
    · rename_i hsome
      rw [Finset.insert_eq_of_mem (hmem.mpr hsome)]
    · rename_i hsome
      rw [Finset.card_insert_of_notMem (fun hin => hsome (hmem.mp hin))]
  ne_empty q m hq := by
    rcases rulesOf?_insertNew? hr hq with hold | hne
    · exact h.ne_empty q m hold
    · exact hne

end Lists

end Table

end SingleTape
