import Mathlib.Order.Bounds.Basic
import Mathlib.Order.Nat
import SingleTape.Proofs.Program.Validity

/-!
# Diagnostics

A program text that defines no table is refused with one cause, although several may apply.  This
file says which one, in terms of the numbered lines of the text alone: the first bad line decides,
and only a text without a bad line is judged as a whole.

Reading stops at the first bad line, so the cause comes from the smallest number of such a line.
The invariant of the loop is again `Table.Lists`: whether a line repeats the key of an earlier line
is asked of the table, which holds exactly the rules of the lines before.  The states to which the
rules lead are listed once each, with the first line that mentions them and in the order of those
lines.  Later mentions are not missed: a state is undefined on all the lines that mention it, so the
first one in the list that is not defined stands on the smallest line that mentions an undefined
state.

## Key results

- `Table.addLines_eq_error_iff`: the first bad line ends the reading of lines, for its own cause
- `Table.check_eq_error_iff`: what the finished table is refused for
- `Table.ofSource_eq_error_iff`: the cause for which a program text is refused
-/

namespace SingleTape

namespace Program

/-- The lines of a program text with their numbers, which count from one. -/
def numbered (source : List Char) : List (List Char × Nat) :=
  (Text.lines source).zipIdx 1

/-! ## What can be wrong with numbered lines -/

section Faults

variable (lines : List (List Char × Nat))

/-- The rule `r` stands on the line with number `n`. -/
def HasRule (n : Nat) (r : RuleText) : Prop :=
  ∃ text, (text, n) ∈ lines ∧ Line.Form text (.rule r)

/-- The line with number `n` is neither a rule nor blank nor a comment. -/
def Malformed (n : Nat) : Prop :=
  ∃ text, (text, n) ∈ lines ∧ ∀ line, ¬Line.Form text line

/-- The line with number `n` gives a rule to the halt state. -/
def RulesHalt (n : Nat) : Prop :=
  ∃ r, HasRule lines n r ∧ r.source = .halt

/-- The line with number `n` gives a rule to a state and a symbol that have one on a line before. -/
def Repeats (n : Nat) : Prop :=
  ∃ r, HasRule lines n r ∧ ∃ m < n, ∃ r', HasRule lines m r' ∧ r'.key = r.key

/-- The line with number `n` ends the reading. -/
def Bad (n : Nat) : Prop :=
  Malformed lines n ∨ RulesHalt lines n ∨ Repeats lines n

/-- The rule on the line with number `n` leads to `q`, which is neither the halt state nor the
state of a rule on any line. -/
def LeadsAstray (n : Nat) (q : StateId) : Prop :=
  (∃ r, HasRule lines n r ∧ r.target = q) ∧ q ≠ .halt ∧ ∀ m r, HasRule lines m r → r.source ≠ q

/-- The rule on the line with number `n` leads to `q`. -/
def Mentions (n : Nat) (q : StateId) : Prop :=
  ∃ r, HasRule lines n r ∧ r.target = q

/-- For what a bad line is refused. -/
inductive LineFault (n : Nat) : Error → Prop where
  | malformed (h : Malformed lines n) : LineFault n (.malformedLine n)
  | ruleForHalt (hform : ¬Malformed lines n) (h : RulesHalt lines n) : LineFault n (.ruleForHalt n)
  | duplicateRule (hform : ¬Malformed lines n) (hhalt : ¬RulesHalt lines n) :
      LineFault n (.duplicateRule n)

/-- For what lines none of which is bad are refused as a whole. -/
inductive WholeFault : Error → Prop where
  | emptyProgram (h : ∀ n r, ¬HasRule lines n r) : WholeFault .emptyProgram
  | undefinedState {n : Nat} {q : StateId} (hfirst : IsLeast {n | ∃ q, LeadsAstray lines n q} n)
      (h : LeadsAstray lines n q) : WholeFault (.undefinedState q n)
  | noInitialRule (hsome : ∃ n r, HasRule lines n r) (hclosed : ∀ n q, ¬LeadsAstray lines n q)
      (h : ∀ n r, HasRule lines n r → r.source ≠ .initial) : WholeFault (.noInitialRule ⟨"1"⟩)

end Faults

/-! ## Lines one by one -/

section Cons

variable {text : List Char} {n i : Nat} {r : RuleText} {lines : List (List Char × Nat)}

/-- Something is on the line with number `i` of a list: on its first line, or on one after it. -/
private theorem exists_mem_cons_iff (P : List Char → Prop) :
    (∃ text', (text', i) ∈ (text, n) :: lines ∧ P text') ↔
      (i = n ∧ P text) ∨ ∃ text', (text', i) ∈ lines ∧ P text' := by
  simp only [List.mem_cons, Prod.mk.injEq]
  constructor
  · rintro ⟨text', ⟨rfl, rfl⟩ | hmem, h⟩
    · exact .inl ⟨rfl, h⟩
    · exact .inr ⟨text', hmem, h⟩
  · rintro (⟨rfl, h⟩ | ⟨text', hmem, h⟩)
    · exact ⟨text, .inl ⟨rfl, rfl⟩, h⟩
    · exact ⟨text', .inr hmem, h⟩

theorem hasRule_cons :
    HasRule ((text, n) :: lines) i r ↔ (i = n ∧ Line.Form text (.rule r)) ∨ HasRule lines i r :=
  exists_mem_cons_iff fun text => Line.Form text (.rule r)

theorem malformed_cons :
    Malformed ((text, n) :: lines) i ↔
      (i = n ∧ ∀ line, ¬Line.Form text line) ∨ Malformed lines i :=
  exists_mem_cons_iff fun text => ∀ line, ¬Line.Form text line

theorem rulesHalt_cons :
    RulesHalt ((text, n) :: lines) i ↔
      (i = n ∧ ∃ r, Line.Form text (.rule r) ∧ r.source = .halt) ∨ RulesHalt lines i := by
  simp only [RulesHalt, hasRule_cons]
  constructor
  · rintro ⟨r, ⟨hi, hform⟩ | hrule, hhalt⟩
    · exact .inl ⟨hi, r, hform, hhalt⟩
    · exact .inr ⟨r, hrule, hhalt⟩
  · rintro (⟨hi, r, hform, hhalt⟩ | ⟨r, hrule, hhalt⟩)
    · exact ⟨r, .inl ⟨hi, hform⟩, hhalt⟩
    · exact ⟨r, .inr hrule, hhalt⟩

theorem lineFault_of_malformed (h : Malformed lines n) {e : Error} :
    LineFault lines n e ↔ e = .malformedLine n := by
  constructor
  · rintro (_ | ⟨hform, _⟩ | ⟨hform, _⟩)
    · rfl
    · exact absurd h hform
    · exact absurd h hform
  · rintro rfl
    exact .malformed h

theorem lineFault_of_rulesHalt (hform : ¬Malformed lines n) (h : RulesHalt lines n) {e : Error} :
    LineFault lines n e ↔ e = .ruleForHalt n := by
  constructor
  · rintro (hmal | _ | ⟨_, hhalt⟩)
    · exact absurd hmal hform
    · rfl
    · exact absurd h hhalt
  · rintro rfl
    exact .ruleForHalt hform h

theorem lineFault_of_neither (hform : ¬Malformed lines n) (hhalt : ¬RulesHalt lines n) {e : Error} :
    LineFault lines n e ↔ e = .duplicateRule n := by
  constructor
  · rintro (hmal | ⟨_, h⟩ | _)
    · exact absurd hmal hform
    · exact absurd h hhalt
    · rfl
  · rintro rfl
    exact .duplicateRule hform hhalt

/-- Where there is a bad line, there is a first one, and it has a fault. -/
theorem exists_lineFault (h : Bad lines n) :
    ∃ m e, IsLeast {n | Bad lines n} m ∧ LineFault lines m e := by
  classical
  have hfirst := Nat.isLeast_find (p := Bad lines) ⟨n, h⟩
  by_cases hform : Malformed lines (Nat.find ⟨n, h⟩)
  · exact ⟨_, _, hfirst, .malformed hform⟩
  · by_cases hhalt : RulesHalt lines (Nat.find ⟨n, h⟩)
    · exact ⟨_, _, hfirst, .ruleForHalt hform hhalt⟩
    · exact ⟨_, _, hfirst, .duplicateRule hform hhalt⟩

end Cons

/-- Numbers that count from `n` are not below `n`. -/
theorem HasRule.le {texts : List (List Char)} {n i : Nat} {r : RuleText}
    (h : HasRule (texts.zipIdx n) i r) : n ≤ i := by
  obtain ⟨text, hmem, -⟩ := h
  exact List.le_snd_of_mem_zipIdx hmem

/-- One line holds at most one rule. -/
theorem HasRule.unique {texts : List (List Char)} {n i : Nat} {r r' : RuleText}
    (h : HasRule (texts.zipIdx n) i r) (h' : HasRule (texts.zipIdx n) i r') : r = r' := by
  obtain ⟨text, hmem, hform⟩ := h
  obtain ⟨text', hmem', hform'⟩ := h'
  rw [List.mk_mem_zipIdx_iff_le_and_getElem?_sub] at hmem hmem'
  have htext : text = text' := Option.some.inj (hmem.2.symm.trans hmem'.2)
  subst htext
  have hline := (Line.parse?_of_form hform).symm.trans (Line.parse?_of_form hform')
  exact Line.rule.inj (Option.some.inj hline)

/-- A text has a rule exactly if one of its lines has. -/
theorem mem_rules_iff {source : List Char} {r : RuleText} :
    r ∈ rules source ↔ ∃ n, HasRule (numbered source) n r := by
  rw [rules, mem_rulesOn_iff]
  constructor
  · rintro ⟨text, htext, hform⟩
    have hfst : text ∈ (numbered source).map Prod.fst := by
      rw [numbered, List.zipIdx_map_fst]
      exact htext
    obtain ⟨⟨_, n⟩, hmem, rfl⟩ := List.mem_map.mp hfst
    exact ⟨n, _, hmem, hform⟩
  · rintro ⟨n, text, hmem, hform⟩
    have hfst := List.mem_map_of_mem (f := Prod.fst) hmem
    rw [numbered, List.zipIdx_map_fst] at hfst
    exact ⟨text, hfst, hform⟩

end Program

namespace Table

open Program

/-! ## The first bad line -/

/-- The line with number `n` ends the reading, where the given rules were read before all lines. -/
private def BadAfter (rules : List RuleText) (lines : List (List Char × Nat)) (n : Nat) : Prop :=
  Malformed lines n ∨ RulesHalt lines n ∨ ∃ r, HasRule lines n r ∧
    (r.key ∈ rules.map RuleText.key ∨ ∃ m < n, ∃ r', HasRule lines m r' ∧ r'.key = r.key)

private theorem badAfter_nil_iff {lines : List (List Char × Nat)} {n : Nat} :
    BadAfter [] lines n ↔ Bad lines n := by
  simp [BadAfter, Bad, Repeats]

private theorem BadAfter.le {rules : List RuleText} {texts : List (List Char)} {n i : Nat}
    (h : BadAfter rules (texts.zipIdx n) i) : n ≤ i := by
  rcases h with ⟨text, hmem, -⟩ | ⟨r, hrule, -⟩ | ⟨r, hrule, -⟩
  · exact List.le_snd_of_mem_zipIdx hmem
  · exact hrule.le
  · exact hrule.le

/-- If the very first line is bad, it is the one that counts. -/
private theorem exists_isLeast_iff_of_bad {rules : List RuleText} {texts : List (List Char)}
    {n : Nat} {e : Error} (h : BadAfter rules (texts.zipIdx n) n) :
    (∃ i, IsLeast {i | BadAfter rules (texts.zipIdx n) i} i ∧ LineFault (texts.zipIdx n) i e) ↔
      LineFault (texts.zipIdx n) n e := by
  have hleast : IsLeast {i | BadAfter rules (texts.zipIdx n) i} n := ⟨h, fun _ hi => hi.le⟩
  constructor
  · rintro ⟨i, hi, hfault⟩
    rwa [hi.unique hleast] at hfault
  · exact fun hfault => ⟨n, hleast, hfault⟩

/-- If the first line is good, the lines after it decide. -/
private theorem exists_isLeast_iff_of_good {rules rules' : List RuleText}
    {lines lines' : List (List Char × Nat)} {e : Error}
    (hbad : ∀ i, BadAfter rules lines i ↔ BadAfter rules' lines' i)
    (hform : ∀ i, Malformed lines i ↔ Malformed lines' i)
    (hhalt : ∀ i, RulesHalt lines i ↔ RulesHalt lines' i) :
    (∃ i, IsLeast {i | BadAfter rules lines i} i ∧ LineFault lines i e) ↔
      ∃ i, IsLeast {i | BadAfter rules' lines' i} i ∧ LineFault lines' i e := by
  have hset : {i | BadAfter rules lines i} = {i | BadAfter rules' lines' i} := Set.ext hbad
  have hfault : ∀ i, LineFault lines i e ↔ LineFault lines' i e := by
    intro i
    by_cases hf : Malformed lines i
    · rw [lineFault_of_malformed hf, lineFault_of_malformed ((hform i).mp hf)]
    · have hf' := mt (hform i).mpr hf
      by_cases hh : RulesHalt lines i
      · rw [lineFault_of_rulesHalt hf hh, lineFault_of_rulesHalt hf' ((hhalt i).mp hh)]
      · rw [lineFault_of_neither hf hh, lineFault_of_neither hf' (mt (hhalt i).mpr hh)]
  simp only [hset, hfault]

section FirstLine

variable {text : List Char} {r : RuleText}

/-- A line that can be read says one thing only. -/
private theorem form_iff_eq {line line' : Line} (h : Line.parse? text = some line) :
    Line.Form text line' ↔ line' = line := by
  rw [← Line.parse?_eq_some_iff, h, Option.some.injEq]
  exact eq_comm

/-- What a line with a rule adds to the rules of the lines after it. -/
private theorem hasRule_cons_of_rule (h : Line.parse? text = some (.rule r)) {n i : Nat}
    {r' : RuleText} {lines : List (List Char × Nat)} :
    HasRule ((text, n) :: lines) i r' ↔ (i = n ∧ r' = r) ∨ HasRule lines i r' := by
  rw [hasRule_cons, form_iff_eq h, Line.rule.injEq]

variable (rest : List (List Char)) (n : Nat)

/-- A line that can be read leaves it to the lines after it to be malformed. -/
private theorem malformed_cons_of_some {line : Line} (h : Line.parse? text = some line) (i : Nat) :
    Malformed ((text :: rest).zipIdx n) i ↔ Malformed (rest.zipIdx (n + 1)) i := by
  have hwell : ¬∀ line, ¬Line.Form text line := fun hall => hall line (Line.form_of_parse? h)
  rw [List.zipIdx_cons, malformed_cons]
  simp only [hwell, and_false, false_or]

/-- A line that can be read is not malformed, as the lines after it have greater numbers. -/
private theorem not_malformed_of_some {line : Line} (h : Line.parse? text = some line) :
    ¬Malformed ((text :: rest).zipIdx n) n := by
  rw [malformed_cons_of_some rest n h]
  rintro ⟨_, hmem, -⟩
  have := List.le_snd_of_mem_zipIdx hmem
  omega

/-- A rule of another state leaves it to the lines after it to give rules to the halt state. -/
private theorem rulesHalt_cons_of_rule (h : Line.parse? text = some (.rule r))
    (hhalt : r.source ≠ .halt) (i : Nat) :
    RulesHalt ((text :: rest).zipIdx n) i ↔ RulesHalt (rest.zipIdx (n + 1)) i := by
  rw [List.zipIdx_cons, rulesHalt_cons]
  simp only [form_iff_eq h, Line.rule.injEq, exists_eq_left, hhalt, and_false, false_or]

/-- A blank line leaves everything to the lines after it. -/
private theorem hasRule_cons_of_blank (h : Line.parse? text = some .blank) (i : Nat)
    (r' : RuleText) :
    HasRule ((text :: rest).zipIdx n) i r' ↔ HasRule (rest.zipIdx (n + 1)) i r' := by
  rw [List.zipIdx_cons, hasRule_cons, form_iff_eq h]
  simp only [reduceCtorEq, and_false, false_or]

/-- A good rule counts for the lines after it as one of the rules that were read before. -/
private theorem badAfter_cons_of_rule {rules : List RuleText}
    (h : Line.parse? text = some (.rule r)) (hhalt : r.source ≠ .halt)
    (hnew : r.key ∉ rules.map RuleText.key) (i : Nat) :
    BadAfter rules ((text :: rest).zipIdx n) i ↔
      BadAfter (rules ++ [r]) (rest.zipIdx (n + 1)) i := by
  rw [BadAfter, BadAfter, malformed_cons_of_some rest n h, rulesHalt_cons_of_rule rest n h hhalt]
  refine or_congr Iff.rfl (or_congr Iff.rfl ?_)
  simp only [List.zipIdx_cons, hasRule_cons_of_rule h]
  constructor
  · rintro ⟨r', ⟨rfl, rfl⟩ | hrule, htaken⟩
    · -- nothing stands before the first line but `rules`, which do not hold its key
      rcases htaken with hmem | ⟨m, hm, r', ⟨rfl, -⟩ | hrule, -⟩
      · exact absurd hmem hnew
      · omega
      · have := hrule.le
        omega
    · refine ⟨r', hrule, ?_⟩
      rw [List.map_append, List.mem_append]
      rcases htaken with hmem | ⟨m, hm, r'', ⟨rfl, rfl⟩ | hearlier, hkey⟩
      · exact .inl (.inl hmem)
      · exact .inl (.inr (by simp [hkey]))
      · exact .inr ⟨m, hm, r'', hearlier, hkey⟩
  · rintro ⟨r', hrule, htaken⟩
    refine ⟨r', .inr hrule, ?_⟩
    rw [List.map_append, List.mem_append, List.map_singleton, List.mem_singleton] at htaken
    rcases htaken with (hmem | hkey) | ⟨m, hm, r'', hearlier, hkey⟩
    · exact .inl hmem
    · have := hrule.le
      exact .inr ⟨n, by omega, r, .inl ⟨rfl, rfl⟩, hkey.symm⟩
    · exact .inr ⟨m, hm, r'', .inr hearlier, hkey⟩

end FirstLine

/-- Reading lines into a table that holds `rules` fails exactly at the first bad line. -/
private theorem addLines_eq_error_iff_badAfter {t : Table} {rules : List RuleText}
    (h : t.Lists rules) (known : Std.ExtTreeSet StateId) (n : Nat) (texts : List (List Char))
    (e : Error) :
    t.addLines known n texts = .error e ↔
      ∃ i, IsLeast {i | BadAfter rules (texts.zipIdx n) i} i ∧ LineFault (texts.zipIdx n) i e := by
  -- by induction on the lines; a good line moves from the lines to the rules that were read
  induction texts generalizing t rules known n with
  | nil =>
    simp only [addLines, reduceCtorEq, false_iff]
    rintro ⟨i, hi, -⟩
    rcases hi.1 with ⟨text, hmem, -⟩ | ⟨r, ⟨text, hmem, -⟩, -⟩ | ⟨r, ⟨text, hmem, -⟩, -⟩
    all_goals exact absurd hmem (by simp)
  | cons text rest ih =>
    cases hline : Line.parse? text with
    | none =>
      have hform : ∀ line, ¬Line.Form text line := by
        intro line hform
        rw [Line.parse?_of_form hform] at hline
        cases hline
      have hmal : Malformed ((text :: rest).zipIdx n) n := malformed_cons.mpr (.inl ⟨rfl, hform⟩)
      rw [exists_isLeast_iff_of_bad (.inl hmal), lineFault_of_malformed hmal]
      simp only [addLines, hline, Except.error.injEq]
      exact eq_comm
    | some line =>
      have hform := malformed_cons_of_some rest n hline
      have hwell := not_malformed_of_some rest n hline
      cases line with
      | blank =>
        have hrule := hasRule_cons_of_blank rest n hline
        have hhalt : ∀ i, RulesHalt ((text :: rest).zipIdx n) i ↔
            RulesHalt (rest.zipIdx (n + 1)) i := by
          simp only [RulesHalt, hrule, implies_true]
        have hbad : ∀ i, BadAfter rules ((text :: rest).zipIdx n) i ↔
            BadAfter rules (rest.zipIdx (n + 1)) i := by
          simp only [BadAfter, hform, hhalt, hrule, implies_true]
        rw [exists_isLeast_iff_of_good hbad hform hhalt, ← ih h known (n + 1)]
        simp only [addLines, hline]
      | rule r =>
        have hrule : HasRule ((text :: rest).zipIdx n) n r :=
          (hasRule_cons_of_rule hline).mpr (.inl ⟨rfl, rfl⟩)
        simp only [addLines, hline]
        by_cases hhalt : r.source = .halt
        · have hruleshalt : RulesHalt ((text :: rest).zipIdx n) n := ⟨r, hrule, hhalt⟩
          rw [exists_isLeast_iff_of_bad (.inr (.inl hruleshalt)),
            lineFault_of_rulesHalt hwell hruleshalt]
          simp only [hhalt, StateId.isHalt, decide_true, ↓reduceIte, Except.error.injEq]
          exact eq_comm
        · have hnothalt : r.source.isHalt = false := by simpa [StateId.isHalt] using hhalt
          have hhalt' := rulesHalt_cons_of_rule rest n hline hhalt
          simp only [hnothalt, Bool.false_eq_true, ↓reduceIte]
          cases hinsert : t.insertNew? r.source r.read r.rule with
          | none =>
            -- the table has a rule for this key, and it holds nothing but `rules`
            have hmem := h.isSome_get?_iff.mp (insertNew?_eq_none.mp hinsert)
            have hnot : ¬RulesHalt ((text :: rest).zipIdx n) n := by
              rintro ⟨r', hrule', hsource⟩
              rw [hrule'.unique hrule] at hsource
              exact hhalt hsource
            rw [exists_isLeast_iff_of_bad (.inr (.inr ⟨r, hrule, .inl hmem⟩)),
              lineFault_of_neither hwell hnot, Except.error.injEq]
            exact eq_comm
          | some t' =>
            have hnew : r.key ∉ rules.map RuleText.key := by
              intro hmem
              have hnone : t.insertNew? r.source r.read r.rule = none :=
                insertNew?_eq_none.mpr (h.isSome_get?_iff.mpr hmem)
              cases hnone.symm.trans hinsert
            have hbad := badAfter_cons_of_rule rest n hline hhalt hnew
            rw [exists_isLeast_iff_of_good hbad hform hhalt',
              ← ih (h.insertNew? hinsert) (known.insert r.target) (n + 1)]
            dsimp only
            cases hrest : t'.addLines (known.insert r.target) (n + 1) rest <;> simp

/-- Reading the lines of a text fails exactly if there is a bad line, and then for the fault of
the first one. -/
theorem addLines_eq_error_iff (known : Std.ExtTreeSet StateId) (n : Nat)
    (texts : List (List Char)) (e : Error) :
    Table.empty.addLines known n texts = .error e ↔
      ∃ i, IsLeast {i | Bad (texts.zipIdx n) i} i ∧ LineFault (texts.zipIdx n) i e := by
  rw [addLines_eq_error_iff_badAfter Lists.empty known n texts e]
  simp only [badAfter_nil_iff]

/-! ## The mentioned states -/

section Mentions

variable {text : List Char} {r : RuleText} (rest : List (List Char)) (n : Nat)

/-- A line with a rule mentions the target of that rule. -/
private theorem mentions_cons_of_rule (h : Line.parse? text = some (.rule r)) (i : Nat)
    (q : StateId) :
    Mentions ((text :: rest).zipIdx n) i q ↔
      (i = n ∧ r.target = q) ∨ Mentions (rest.zipIdx (n + 1)) i q := by
  simp only [Mentions, List.zipIdx_cons, hasRule_cons_of_rule h]
  constructor
  · rintro ⟨r', ⟨rfl, rfl⟩ | hrule, htarget⟩
    · exact .inl ⟨rfl, htarget⟩
    · exact .inr ⟨r', hrule, htarget⟩
  · rintro (⟨rfl, htarget⟩ | ⟨r', hrule, htarget⟩)
    · exact ⟨r, .inl ⟨rfl, rfl⟩, htarget⟩
    · exact ⟨r', .inr hrule, htarget⟩

/-- The line that is read first is the first one to mention the target of its rule. -/
private theorem isLeast_mentions_target (h : Line.parse? text = some (.rule r)) (i : Nat) :
    IsLeast {i | Mentions ((text :: rest).zipIdx n) i r.target} i ↔ i = n := by
  have hleast : IsLeast {i | Mentions ((text :: rest).zipIdx n) i r.target} n := by
    refine ⟨(mentions_cons_of_rule rest n h n r.target).mpr (.inl ⟨rfl, rfl⟩), ?_⟩
    rintro i ⟨_, hrule, -⟩
    exact hrule.le
  constructor
  · exact fun hi => hi.unique hleast
  · rintro rfl
    exact hleast

/-- It leaves other states to the lines after it. -/
private theorem isLeast_mentions_of_ne (h : Line.parse? text = some (.rule r)) {q : StateId}
    (hq : r.target ≠ q) (i : Nat) :
    IsLeast {i | Mentions ((text :: rest).zipIdx n) i q} i ↔
      IsLeast {i | Mentions (rest.zipIdx (n + 1)) i q} i := by
  simp only [mentions_cons_of_rule rest n h, hq, and_false, false_or]

end Mentions

/-- The states that the rules lead to, apart from those that were known, are listed with the first
lines that mention them, and in the order of the lines. -/
theorem addLines_references {t t' : Table} {known : Std.ExtTreeSet StateId} {n : Nat}
    {texts : List (List Char)} {references : List Reference}
    (h : t.addLines known n texts = .ok (t', references)) :
    (∀ q i, ⟨q, i⟩ ∈ references ↔
      q ∉ known ∧ IsLeast {i | Mentions (texts.zipIdx n) i q} i) ∧
      references.Pairwise fun a b => a.line < b.line := by
  induction texts generalizing t known n references with
  | nil =>
    cases h
    refine ⟨fun q i => ?_, List.Pairwise.nil⟩
    simp [Mentions, HasRule, IsLeast]
  | cons text rest ih =>
    cases hline : Line.parse? text with
    | none =>
      simp only [addLines, hline] at h
      cases h
    | some line =>
      cases line with
      | blank =>
        simp only [addLines, hline] at h
        obtain ⟨hmem, hsorted⟩ := ih h
        refine ⟨fun q i => ?_, hsorted⟩
        simp only [hmem, Mentions, hasRule_cons_of_blank rest n hline]
      | rule r =>
        simp only [addLines, hline] at h
        split at h
        · cases h
        · split at h
          · cases h
          · rename_i t₁ hinsert
            cases hrest : t₁.addLines (known.insert r.target) (n + 1) rest with
            | error e =>
              simp only [hrest] at h
              cases h
            | ok result =>
              obtain ⟨t₂, references₂⟩ := result
              simp only [hrest, Except.ok.injEq, Prod.mk.injEq] at h
              obtain ⟨rfl, rfl⟩ := h
              obtain ⟨hmem, hsorted⟩ := ih hrest
              simp only [Std.ExtTreeSet.mem_insert, Std.LawfulEqCmp.compare_eq_iff_eq,
                not_or] at hmem
              constructor
              · intro q i
                -- what is listed for the lines after this one does not hold the target
                by_cases hq : r.target = q
                · subst hq
                  rw [isLeast_mentions_target rest n hline]
                  by_cases hknown : r.target ∈ known <;> simp [hknown, hmem]
                · rw [isLeast_mentions_of_ne rest n hline hq]
                  by_cases hknown : r.target ∈ known <;> simp [hknown, hmem, hq, Ne.symm hq]
              · -- the lines after this one have greater numbers
                split
                · exact hsorted
                · refine List.pairwise_cons.mpr ⟨?_, hsorted⟩
                  rintro ⟨q, i⟩ hlater
                  obtain ⟨r', hrule, -⟩ := ((hmem q i).mp hlater).2.1
                  exact hrule.le

/-! ## The finished table -/

section Whole

variable {source : List Char} {t : Table} {references : List Reference}

/-- A state is defined exactly if a rule on some line belongs to it. -/
private theorem defines_iff_hasRule (h : t.Lists (Program.rules source)) {q : StateId} :
    t.defines q = true ↔ ∃ n r, HasRule (numbered source) n r ∧ r.source = q := by
  rw [h.defines_iff]
  simp only [mem_rules_iff]
  constructor
  · rintro ⟨r, ⟨n, hrule⟩, hq⟩
    exact ⟨n, r, hrule, hq⟩
  · rintro ⟨n, r, hrule, hq⟩
    exact ⟨r, ⟨n, hrule⟩, hq⟩

/-- The table is empty exactly if no line has a rule. -/
private theorem isEmpty_iff_not_hasRule (h : t.Lists (Program.rules source)) :
    t.isEmpty = true ↔ ∀ n r, ¬HasRule (numbered source) n r := by
  rw [isEmpty, decide_eq_true_eq, h.size_eq, List.length_eq_zero_iff,
    List.eq_nil_iff_forall_not_mem]
  simp only [mem_rules_iff]
  constructor
  · intro hall n r hrule
    exact hall r ⟨n, hrule⟩
  · rintro hall r ⟨n, hrule⟩
    exact hall n r hrule

/-- A rule leads astray exactly if its line mentions a state that is refused. -/
private theorem leadsAstray_iff (h : t.Lists (Program.rules source)) {q : StateId} {i : Nat} :
    LeadsAstray (numbered source) i q ↔ Mentions (numbered source) i q ∧ t.accepts q = false := by
  rw [LeadsAstray, Mentions, accepts, Bool.or_eq_false_iff, ← Bool.not_eq_true, ← Bool.not_eq_true,
    StateId.isHalt_iff, defines_iff_hasRule h, not_exists]
  simp only [not_exists, not_and, ne_eq]

/-- A state that is mentioned on a line is listed with that line or with one before it. -/
private theorem exists_reference
    (hmem : ∀ q i, ⟨q, i⟩ ∈ references ↔ IsLeast {i | Mentions (numbered source) i q} i)
    {q : StateId} {i : Nat} (h : Mentions (numbered source) i q) :
    ∃ m ≤ i, ⟨q, m⟩ ∈ references := by
  classical
  have hfirst := Nat.isLeast_find (p := fun i => Mentions (numbered source) i q) ⟨i, h⟩
  exact ⟨_, hfirst.2 h, (hmem q _).mpr hfirst⟩

/-- The first state in the list that is refused is listed with the first line that leads astray. -/
private theorem isLeast_of_find? (h : t.Lists (Program.rules source))
    (hmem : ∀ q i, ⟨q, i⟩ ∈ references ↔ IsLeast {i | Mentions (numbered source) i q} i)
    (hsorted : references.Pairwise fun a b => a.line < b.line) {reference : Reference}
    (hfind : (references.find? fun r => !t.accepts r.state) = some reference) :
    IsLeast {n | ∃ q, LeadsAstray (numbered source) n q} reference.line ∧
      LeadsAstray (numbered source) reference.line reference.state := by
  obtain ⟨hrefused, before, after, hsplit, hbefore⟩ := List.find?_eq_some_iff_append.mp hfind
  have hhere : LeadsAstray (numbered source) reference.line reference.state :=
    (leadsAstray_iff h).mpr
      ⟨((hmem reference.state reference.line).mp (by simp [hsplit])).1, by simpa using hrefused⟩
  refine ⟨⟨⟨_, hhere⟩, ?_⟩, hhere⟩
  rintro i ⟨q, hq⟩
  obtain ⟨hmentions, hrefused'⟩ := (leadsAstray_iff h).mp hq
  obtain ⟨m, hm, hin⟩ := exists_reference hmem hmentions
  refine Nat.le_trans ?_ hm
  rw [hsplit, List.mem_append, List.mem_cons] at hin
  rcases hin with hin | rfl | hin
  · -- what is listed before the first refused state is not refused
    have haccepts := hbefore _ hin
    simp only [hrefused', Bool.not_false, Bool.not_true, Bool.false_eq_true] at haccepts
  · exact Nat.le_refl _
  · rw [hsplit, List.pairwise_append, List.pairwise_cons] at hsorted
    exact Nat.le_of_lt (hsorted.2.1.1 _ hin)

/-- A table that holds the rules of a text is refused for what is wrong with the text as a whole. -/
theorem check_eq_error_iff (h : t.Lists (Program.rules source))
    (hmem : ∀ q i, ⟨q, i⟩ ∈ references ↔ IsLeast {i | Mentions (numbered source) i q} i)
    (hsorted : references.Pairwise fun a b => a.line < b.line) (e : Error) :
    t.check references = .error e ↔ WholeFault (numbered source) e := by
  unfold check
  split
  · rename_i hempty
    rw [isEmpty_iff_not_hasRule h] at hempty
    rw [Except.error.injEq]
    constructor
    · rintro rfl
      exact .emptyProgram hempty
    · rintro (_ | ⟨_, ⟨⟨r, hrule, -⟩, -⟩⟩ | ⟨⟨n, r, hrule⟩, _, _⟩)
      · rfl
      · exact absurd hrule (hempty _ _)
      · exact absurd hrule (hempty _ _)
  · rename_i hempty
    rw [isEmpty_iff_not_hasRule h] at hempty
    split
    · rename_i reference hfind
      obtain ⟨hfirst, hhere⟩ := isLeast_of_find? h hmem hsorted hfind
      rw [Except.error.injEq]
      constructor
      · rintro rfl
        exact .undefinedState hfirst hhere
      · rintro (hnone | ⟨hfirst', hq⟩ | ⟨_, hclosed, _⟩)
        · exact absurd hnone hempty
        · -- the first line is the same one, and it holds one rule with one target
          rw [hfirst'.unique hfirst] at hq ⊢
          obtain ⟨⟨r, hrule, rfl⟩, -⟩ := hq
          obtain ⟨⟨r', hrule', htarget⟩, -⟩ := hhere
          rw [← htarget, hrule'.unique hrule]
        · exact absurd hhere (hclosed _ _)
    · rename_i hfind
      have hclosed : ∀ n q, ¬LeadsAstray (numbered source) n q := by
        intro n q hq
        obtain ⟨hmentions, hrefused⟩ := (leadsAstray_iff h).mp hq
        obtain ⟨m, -, hin⟩ := exists_reference hmem hmentions
        have haccepts := List.find?_eq_none.mp hfind _ hin
        simp only [hrefused, Bool.not_false, not_true_eq_false] at haccepts
      split
      · rename_i hinitial
        obtain ⟨n, r, hrule, hsource⟩ := (defines_iff_hasRule h).mp hinitial
        simp only [reduceCtorEq, false_iff]
        rintro (hnone | ⟨_, hq⟩ | ⟨_, _, hnone⟩)
        · exact hempty hnone
        · exact hclosed _ _ hq
        · exact hnone n r hrule hsource
      · rename_i hinitial
        rw [defines_iff_hasRule h] at hinitial
        rw [Except.error.injEq]
        constructor
        · rintro rfl
          refine .noInitialRule ?_ hclosed fun n r hrule hsource => hinitial ⟨n, r, hrule, hsource⟩
          simpa only [not_forall, not_not] using hempty
        · rintro (hnone | ⟨_, hq⟩ | _)
          · exact absurd hnone hempty
          · exact absurd hq (hclosed _ _)
          · rfl

end Whole

/-! ## Program texts -/

/-- **Diagnostics.** A program text is refused exactly for the fault of its first bad line, or, if
no line is bad, for what is wrong with it as a whole.  A line is bad if it is malformed, gives a
rule to the halt state, or gives a second rule to a state and a symbol; the first of these that
applies to the first bad line is its fault.  A text without bad lines is refused because it has no
rule, because a rule leads to a state that is neither the halt state nor the state of any rule (the
first such line is named), or, failing both, because the initial state has no rule. -/
theorem ofSource_eq_error_iff (source : List Char) (e : Error) :
    ofSource source = .error e ↔
      (∃ n, IsLeast {n | Bad (numbered source) n} n ∧ LineFault (numbered source) n e) ∨
        (∀ n, ¬Bad (numbered source) n) ∧ WholeFault (numbered source) e := by
  have hlines : ∀ e, Table.empty.addLines ∅ 1 (Text.lines source) = .error e ↔
      ∃ n, IsLeast {n | Bad (numbered source) n} n ∧ LineFault (numbered source) n e :=
    addLines_eq_error_iff ∅ 1 (Text.lines source)
  cases hadd : Table.empty.addLines ∅ 1 (Text.lines source) with
  | error e' =>
    obtain ⟨n, hfirst, -⟩ := (hlines e').mp hadd
    have hbad : ¬∀ n, ¬Bad (numbered source) n := fun hall => hall n hfirst.1
    rw [← hlines e, hadd]
    simp only [ofSource, hadd, bind, Except.bind, hbad, false_and, or_false, Except.error.injEq]
  | ok result =>
    obtain ⟨t, references⟩ := result
    -- no line was refused, so none is bad, and the table was checked
    have hnobad : ∀ n, ¬Bad (numbered source) n := by
      intro n hn
      obtain ⟨m, e', hfirst, hfault⟩ := exists_lineFault hn
      cases hadd.symm.trans ((hlines e').mpr ⟨m, hfirst, hfault⟩)
    obtain ⟨hlists, -⟩ := lists_of_addLines hadd
    obtain ⟨hlisted, hsorted⟩ := addLines_references hadd
    have hmem : ∀ q i, ⟨q, i⟩ ∈ references ↔ IsLeast {i | Mentions (numbered source) i q} i := by
      intro q i
      rw [hlisted, and_iff_right Std.ExtTreeSet.not_mem_empty]
      rfl
    have hcheck := check_eq_error_iff hlists hmem hsorted e
    rw [← hlines e, hadd, ← hcheck]
    simp only [ofSource, hadd, bind, Except.bind, pure, Except.pure, reduceCtorEq, hnobad,
      not_false_eq_true, implies_true, true_and, false_or]
    cases t.check references <;> simp

-- the first bad line counts, not the worst one, and undefined states wait for the end of the text
example : ofSource "2,a 3,b\n\n H,a 3,b\n1,a".toList = .error (.ruleForHalt 3) := by
  decide +kernel
example : ofSource "2,a 2,b\n2,b 1,b\n2,c 3,c\n2,d 1,d".toList =
    .error (.undefinedState .initial 2) := by
  decide +kernel

end Table

end SingleTape
