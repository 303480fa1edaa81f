import SingleTape.Program.Compile
import SingleTape.Proofs.Program.LineFormat
import SingleTape.Proofs.Table.Listing

/-!
# Valid programs

`Table.ofSource` reads a program text line by line, adds each rule to a table and checks the
table in the end.  `Program.Valid` says which texts are programs without any of that: it speaks of
the lines of the text and of the rules on them, and of no order among them.

The loop over the lines keeps one invariant: the table holds exactly the rules of the lines read
so far (`Table.Lists`), and the mentioned states are the targets of those rules.  That each of them
is listed at its first mention only makes no difference to which states there are.  So what the
checks find out about the table is found out about the rules of the whole text.

## Key results

- `Table.addLines_isOk_iff`: when all lines can be added
- `Table.addLines_lists`: what the table holds then
- `Table.ofSource_isOk_iff_valid`: the valid texts, and no others, define a table, which holds
  exactly their rules
-/

namespace SingleTape

namespace Program

/-- The rules on the given lines, in the order of the lines. -/
def rulesOn (texts : List (List Char)) : List RuleText :=
  texts.filterMap fun text =>
    match Line.parse? text with
    | some (.rule r) => some r
    | _ => none

/-- The rules of a program text, in the order of their lines. -/
def rules (source : List Char) : List RuleText :=
  rulesOn (Text.lines source)

/-- A text is a valid program. -/
structure Valid (source : List Char) : Prop where
  /-- Every line is blank, a comment or a rule. -/
  wellFormed : ∀ text ∈ Text.lines source, ∃ line, Line.Form text line
  /-- No rule belongs to the halt state. -/
  not_halt : ∀ r ∈ rules source, r.source ≠ .halt
  /-- No two rules belong to one state and one symbol. -/
  distinct : ((rules source).map RuleText.key).Nodup
  /-- There is a rule. -/
  ne_nil : rules source ≠ []
  /-- Every rule leads to the halt state or to a state that has rules. -/
  closed : ∀ r ∈ rules source, r.target = .halt ∨ ∃ r' ∈ rules source, r'.source = r.target
  /-- The initial state has a rule. -/
  starts : ∃ r ∈ rules source, r.source = .initial

/-- A rule is on one of the lines exactly if one of the lines is in the format of that rule. -/
theorem mem_rulesOn_iff {texts : List (List Char)} {r : RuleText} :
    r ∈ rulesOn texts ↔ ∃ text ∈ texts, Line.Form text (.rule r) := by
  simp only [rulesOn, List.mem_filterMap, ← Line.parse?_eq_some_iff]
  constructor
  · rintro ⟨text, htext, hr⟩
    refine ⟨text, htext, ?_⟩
    split at hr
    · rename_i hline
      rw [hline, Option.some.inj hr]
    · cases hr
  · rintro ⟨text, htext, hline⟩
    exact ⟨text, htext, by simp [hline]⟩

/-- A line without a rule adds no rule. -/
theorem rulesOn_cons_of_blank {text : List Char} (rest : List (List Char))
    (h : Line.parse? text = some .blank) : rulesOn (text :: rest) = rulesOn rest := by
  simp [rulesOn, h]

/-- A line with a rule adds that rule. -/
theorem rulesOn_cons_of_rule {text : List Char} {r : RuleText} (rest : List (List Char))
    (h : Line.parse? text = some (.rule r)) : rulesOn (text :: rest) = r :: rulesOn rest := by
  simp [rulesOn, h]

end Program

namespace Table

open Program

/-! ## Reading lines -/

/-- What it takes for lines to be added to a table that holds the given rules. -/
structure Addable (rules : List RuleText) (texts : List (List Char)) : Prop where
  isSome : ∀ text ∈ texts, (Line.parse? text).isSome = true
  not_halt : ∀ r ∈ rulesOn texts, r.source ≠ .halt
  distinct : ((rules ++ rulesOn texts).map RuleText.key).Nodup

/-- A blank line can be added to any table. -/
private theorem addable_cons_of_blank {rules : List RuleText} {text : List Char}
    {rest : List (List Char)} (h : Line.parse? text = some .blank) :
    Addable rules (text :: rest) ↔ Addable rules rest := by
  have hrules := rulesOn_cons_of_blank rest h
  constructor
  · rintro ⟨hsome, hhalt, hdistinct⟩
    rw [hrules] at hhalt hdistinct
    exact ⟨fun t ht => hsome t (by simp [ht]), hhalt, hdistinct⟩
  · rintro ⟨hsome, hhalt, hdistinct⟩
    refine ⟨?_, hrules ▸ hhalt, hrules ▸ hdistinct⟩
    intro t ht
    rcases List.mem_cons.mp ht with rfl | ht
    · simp [h]
    · exact hsome t ht

/-- A rule can be added if it has a key of its own and does not belong to the halt state. -/
private theorem addable_cons_of_rule {rules : List RuleText} {text : List Char} {r : RuleText}
    {rest : List (List Char)} (h : Line.parse? text = some (.rule r)) :
    Addable rules (text :: rest) ↔ r.source ≠ .halt ∧ Addable (rules ++ [r]) rest := by
  have hrules := rulesOn_cons_of_rule rest h
  have happend : rules ++ r :: rulesOn rest = rules ++ [r] ++ rulesOn rest := by simp
  constructor
  · rintro ⟨hsome, hhalt, hdistinct⟩
    rw [hrules] at hhalt hdistinct
    rw [happend] at hdistinct
    exact ⟨hhalt r (by simp), fun t ht => hsome t (by simp [ht]),
      fun r' hr' => hhalt r' (by simp [hr']), hdistinct⟩
  · rintro ⟨hr, hsome, hhalt, hdistinct⟩
    refine ⟨?_, ?_, by rwa [hrules, happend]⟩
    · intro t ht
      rcases List.mem_cons.mp ht with rfl | ht
      · simp [h]
      · exact hsome t ht
    · intro r' hr'
      rw [hrules] at hr'
      rcases List.mem_cons.mp hr' with rfl | hr'
      · exact hr
      · exact hhalt r' hr'

/-- A rule whose key is taken cannot be added. -/
private theorem not_addable_of_key_mem {rules : List RuleText} {r : RuleText}
    {rest : List (List Char)} (h : r.key ∈ rules.map RuleText.key) :
    ¬Addable (rules ++ [r]) rest := by
  intro hadd
  have hnodup := hadd.distinct
  rw [List.map_append, List.map_append] at hnodup
  -- the key stands on both sides of the first append
  have hleft := (List.nodup_append.mp hnodup).1
  exact (List.nodup_append.mp hleft).2.2 r.key h r.key (by simp) rfl

/-- Lines are added to a table exactly if they are well formed, give no rule to the halt state
and bring neither a key of the table nor one key twice. -/
theorem addLines_isOk_iff {t : Table} {rules : List RuleText} (h : t.Lists rules)
    (hdistinct : (rules.map RuleText.key).Nodup) (known : Std.ExtTreeSet StateId) (n : Nat)
    (texts : List (List Char)) :
    (∃ result, t.addLines known n texts = .ok result) ↔ Addable rules texts := by
  -- by induction on the lines; the table and the rules that it holds grow together
  induction texts generalizing t rules known n with
  | nil =>
    refine ⟨fun _ => ⟨by simp, by simp [rulesOn], by simpa [rulesOn] using hdistinct⟩, fun _ => ?_⟩
    exact ⟨(t, []), rfl⟩
  | cons text rest ih =>
    cases hline : Line.parse? text with
    | none =>
      simp only [addLines, hline, reduceCtorEq, exists_false, false_iff]
      intro hadd
      have hsome := hadd.isSome text (by simp)
      rw [hline] at hsome
      cases hsome
    | some line =>
      cases line with
      | blank =>
        rw [addable_cons_of_blank hline, ← ih h hdistinct known (n + 1)]
        simp only [addLines, hline]
      | rule r =>
        rw [addable_cons_of_rule hline]
        simp only [addLines, hline]
        by_cases hhalt : r.source = .halt
        · simp [hhalt]
        · have hnothalt : r.source.isHalt = false := by simpa [StateId.isHalt] using hhalt
          simp only [hnothalt, Bool.false_eq_true, ↓reduceIte, ne_eq, hhalt, not_false_eq_true,
            true_and]
          cases hinsert : t.insertNew? r.source r.read r.rule with
          | none =>
            -- the key is taken, by a rule of the table
            rw [insertNew?_eq_none, h.isSome_get?_iff] at hinsert
            simp [not_addable_of_key_mem hinsert]
          | some t' =>
            -- the key is new, so the keys remain distinct and the rest can be judged by `ih`
            have hnew : r.key ∉ rules.map RuleText.key := by
              intro hmem
              have hnone : t.insertNew? r.source r.read r.rule = none :=
                insertNew?_eq_none.mpr (h.isSome_get?_iff.mpr hmem)
              cases hnone.symm.trans hinsert
            have hdistinct' : ((rules ++ [r]).map RuleText.key).Nodup := by
              rw [List.map_append, List.map_singleton, List.nodup_append]
              refine ⟨hdistinct, List.nodup_singleton _, ?_⟩
              rintro a ha b hb rfl
              exact hnew (List.mem_singleton.mp hb ▸ ha)
            rw [← ih (h.insertNew? hinsert) hdistinct' (known.insert r.target) (n + 1)]
            dsimp only
            cases hrest : t'.addLines (known.insert r.target) (n + 1) rest <;> simp

/-- After lines have been added, the table holds the rules of before and those of the lines, and
the mentioned states are the targets of the latter, apart from those that were known. -/
theorem addLines_lists {t t' : Table} {rules : List RuleText} {known : Std.ExtTreeSet StateId}
    {n : Nat} {texts : List (List Char)} {references : List Reference} (h : t.Lists rules)
    (hadd : t.addLines known n texts = .ok (t', references)) :
    t'.Lists (rules ++ rulesOn texts) ∧ ∀ q, q ∈ references.map Reference.state ↔
      q ∉ known ∧ ∃ r ∈ rulesOn texts, r.target = q := by
  induction texts generalizing t rules known n references with
  | nil =>
    cases hadd
    exact ⟨by simpa [rulesOn] using h, by simp [rulesOn]⟩
  | cons text rest ih =>
    cases hline : Line.parse? text with
    | none =>
      simp only [addLines, hline] at hadd
      cases hadd
    | some line =>
      cases line with
      | blank =>
        simp only [addLines, hline] at hadd
        rw [rulesOn_cons_of_blank rest hline]
        exact ih h hadd
      | rule r =>
        simp only [addLines, hline] at hadd
        split at hadd
        · cases hadd
        · split at hadd
          · cases hadd
          · rename_i t₁ hinsert
            cases hrest : t₁.addLines (known.insert r.target) (n + 1) rest with
            | error e =>
              simp only [hrest] at hadd
              cases hadd
            | ok result =>
              obtain ⟨t₂, references₂⟩ := result
              simp only [hrest, Except.ok.injEq, Prod.mk.injEq] at hadd
              obtain ⟨rfl, rfl⟩ := hadd
              obtain ⟨hlists, hstates⟩ := ih (h.insertNew? hinsert) hrest
              rw [rulesOn_cons_of_rule rest hline]
              refine ⟨by simpa using hlists, fun q => ?_⟩
              simp only [Std.ExtTreeSet.mem_insert, Std.LawfulEqCmp.compare_eq_iff_eq,
                not_or] at hstates
              simp only [List.mem_cons, exists_eq_or_imp]
              -- the target of this rule is known to the lines after it
              by_cases hq : r.target = q
              · subst hq
                by_cases hknown : r.target ∈ known <;> simp [hknown, hstates]
              · by_cases hknown : r.target ∈ known <;> simp [hknown, hstates, hq, Ne.symm hq]

/-! ## The finished table -/

/-- The checks on a table are passed exactly if it has a rule, if a run may go on in every
mentioned state, and if the initial state is defined. -/
theorem check_eq_ok_iff {t : Table} {references : List Reference} :
    t.check references = .ok () ↔
      t.size ≠ 0 ∧ (∀ q ∈ references.map Reference.state, t.accepts q = true) ∧
        t.defines .initial = true := by
  unfold check
  split
  · rename_i hempty
    have hsize : t.size = 0 := by simpa [isEmpty] using hempty
    simp [hsize]
  · rename_i hempty
    have hsize : t.size ≠ 0 := by simpa [isEmpty] using hempty
    split
    · -- a mentioned state is found in which no run may go on
      rename_i r hfind
      have hr := List.find?_some hfind
      have hmem := List.mem_of_find?_eq_some hfind
      simp only [reduceCtorEq, false_iff]
      rintro ⟨-, haccepts, -⟩
      rw [haccepts r.state (List.mem_map.mpr ⟨r, hmem, rfl⟩)] at hr
      cases hr
    · rename_i hfind
      rw [List.find?_eq_none] at hfind
      have haccepts : ∀ q ∈ references.map Reference.state, t.accepts q = true := by
        intro q hq
        obtain ⟨r, hr, rfl⟩ := List.mem_map.mp hq
        simpa using hfind r hr
      cases hinitial : t.defines .initial with
      | true => exact iff_of_true (if_pos rfl) ⟨hsize, haccepts, rfl⟩
      | false => simp

/-- What makes a text define a table: its lines can be read, and the table passes the checks. -/
theorem ofSource_eq_ok_iff {source : List Char} {t : Table} :
    ofSource source = .ok t ↔ ∃ references,
      Table.empty.addLines ∅ 1 (Text.lines source) = .ok (t, references) ∧
        t.check references = .ok () := by
  simp only [ofSource]
  cases hadd : Table.empty.addLines ∅ 1 (Text.lines source) with
  | error e => simp [bind, Except.bind]
  | ok result =>
    obtain ⟨t₁, references⟩ := result
    simp only [bind, Except.bind, pure, Except.pure, Except.ok.injEq, Prod.mk.injEq]
    constructor
    · intro h
      split at h
      · cases h
      · rename_i hcheck
        cases h
        exact ⟨references, ⟨rfl, rfl⟩, hcheck⟩
    · rintro ⟨_, ⟨rfl, rfl⟩, hcheck⟩
      rw [hcheck]

/-- When all lines of a text have been read, the table holds exactly the rules of the text, and the
mentioned states are the targets of those rules. -/
theorem lists_of_addLines {source : List Char} {t : Table} {references : List Reference}
    (hadd : Table.empty.addLines ∅ 1 (Text.lines source) = .ok (t, references)) :
    t.Lists (Program.rules source) ∧ ∀ q, q ∈ references.map Reference.state ↔
      ∃ r ∈ Program.rules source, r.target = q := by
  obtain ⟨hlists, hstates⟩ := addLines_lists Lists.empty hadd
  refine ⟨by simpa [Program.rules] using hlists, fun q => ?_⟩
  rw [hstates, and_iff_right Std.ExtTreeSet.not_mem_empty]
  rfl

/-- The table that a text defines holds exactly the rules of the text. -/
theorem ofSource_lists {source : List Char} {t : Table} (h : ofSource source = .ok t) :
    t.Lists (Program.rules source) := by
  obtain ⟨references, hadd, -⟩ := ofSource_eq_ok_iff.mp h
  exact (lists_of_addLines hadd).1

/-- For a table that holds the rules of a text, the checks say that the text has a rule, that
its rules lead to the halt state or to states with rules, and that the initial state has one. -/
private theorem check_of_lists_iff {source : List Char} {t : Table} {references : List Reference}
    (h : t.Lists (Program.rules source))
    (hstates : ∀ q, q ∈ references.map Reference.state ↔
      ∃ r ∈ Program.rules source, r.target = q) :
    t.check references = .ok () ↔ Program.rules source ≠ [] ∧
      (∀ r ∈ Program.rules source,
        r.target = .halt ∨ ∃ r' ∈ Program.rules source, r'.source = r.target) ∧
      ∃ r ∈ Program.rules source, r.source = .initial := by
  rw [check_eq_ok_iff, h.size_eq, h.defines_iff]
  simp only [hstates, ne_eq, List.length_eq_zero_iff, forall_exists_index, and_imp,
    forall_apply_eq_imp_iff₂, accepts, Bool.or_eq_true, StateId.isHalt_iff, h.defines_iff]

/-- **Valid programs.** A text defines a table exactly if it is a valid program.  The table then
gives for a state and a symbol the right-hand side of the rule line with that state and that
symbol, it has as many rules as there are rule lines and as many states as those lines have
different states, and every state that it lists has a rule.  What a line says is what its format
says. -/
theorem ofSource_isOk_iff_valid (source : List Char) :
    ((∃ t, ofSource source = .ok t) ↔ Program.Valid source) ∧
      (∀ t, ofSource source = .ok t →
        (∀ q a rule, t.get? q a = some rule ↔
          ∃ r ∈ Program.rules source, r.source = q ∧ r.read = a ∧ r.rule = rule) ∧
        t.size = (Program.rules source).length ∧
        t.stateCount = ((Program.rules source).map RuleText.source).toFinset.card ∧
        ∀ q m, t.rulesOf? q = some m → m.isEmpty = false) ∧
      ∀ text line, Line.parse? text = some line ↔ Line.Form text line := by
  have hlines := addLines_isOk_iff Lists.empty List.nodup_nil ∅ 1 (Text.lines source)
  refine ⟨⟨?_, ?_⟩, ?_, fun _ _ => Line.parse?_eq_some_iff⟩
  · -- the lines could be added, and the table passed the checks
    rintro ⟨t, ht⟩
    obtain ⟨references, hadd, hcheck⟩ := ofSource_eq_ok_iff.mp ht
    obtain ⟨hlists, hstates⟩ := lists_of_addLines hadd
    obtain ⟨hne, hclosed, hstarts⟩ := (check_of_lists_iff hlists hstates).mp hcheck
    obtain ⟨hsome, hhalt, hdistinct⟩ := hlines.mp ⟨_, hadd⟩
    refine ⟨?_, hhalt, hdistinct, hne, hclosed, hstarts⟩
    intro text htext
    obtain ⟨line, hline⟩ := Option.isSome_iff_exists.mp (hsome text htext)
    exact ⟨line, Line.form_of_parse? hline⟩
  · -- the first three conditions are about the lines, the other three about the finished table
    intro hvalid
    have haddable : Addable [] (Text.lines source) := by
      refine ⟨?_, hvalid.not_halt, hvalid.distinct⟩
      intro text htext
      obtain ⟨line, hline⟩ := hvalid.wellFormed text htext
      simp [Line.parse?_of_form hline]
    obtain ⟨⟨t, references⟩, hadd⟩ := hlines.mpr haddable
    obtain ⟨hlists, hstates⟩ := lists_of_addLines hadd
    have hcheck : t.check references = .ok () :=
      (check_of_lists_iff hlists hstates).mpr ⟨hvalid.ne_nil, hvalid.closed, hvalid.starts⟩
    exact ⟨t, ofSource_eq_ok_iff.mpr ⟨references, hadd, hcheck⟩⟩
  · intro t ht
    have hlists := ofSource_lists ht
    refine ⟨hlists.get?_iff, hlists.size_eq, hlists.stateCount_eq, ?_⟩
    intro q m hm
    exact Std.ExtTreeMap.isEmpty_eq_false_iff.mpr (hlists.ne_empty q m hm)

end Table

end SingleTape
