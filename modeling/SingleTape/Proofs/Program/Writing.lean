import SingleTape.Proofs.Program.Validity

/-!
# Tables written out as program text

Not every table comes from a program text: names of states are short, symbols are neither commas nor
white space, and the checks on the finished table have to be passed.  `Table.Programmable` collects
what a table needs, and `Table.text` writes a table out, one rule a line.

States need some care.  Reading a name drops up to two zeros in front, so the name of a state is not
always a way to write it: the state with the empty name is written as `0` and the state `0` as
`000`.  Every other state that can be named at all is written as its own name.

A symbol may be `#`, `<`, `_` or `>`, which have a meaning of their own elsewhere in a line.  Every
movement is marked, with a comma before the marker, so no symbol can be taken for anything else.

## Key results

- `StateId.isNameable_iff`: the states that can be named are those that a name stands for
- `Text.lines_flatMap`: lines that are written out are the lines that are read
- `Table.eq_of_get?`: a table is known by its rules, if no state is listed without any
- `Table.comes_from_text_iff`: the tables that come from a text, and from their own text
-/

namespace SingleTape

/-! ## Names of states -/

namespace StateId

/-- A name that begins with no zero: one to three digits and capital letters. -/
structure IsPlain (name : List Char) : Prop where
  ne_nil : name ≠ []
  length_le : name.length ≤ 3
  isDigit_or_isUpper : ∀ c ∈ name, c.isDigit = true ∨ c.isUpper = true
  head_ne : name.head? ≠ some '0'

/-- A state that can be named in program text: its name is empty, or a zero, or plain. -/
def IsNameable (q : StateId) : Prop :=
  q.name = "" ∨ q.name = "0" ∨ IsPlain q.name.toList

/-- How a state is written in program text. -/
def spelling (q : StateId) : List Char :=
  if q.name = "" then ['0']
  else if q.name = "0" then ['0', '0', '0']
  else q.name.toList

/-- Digits and capital letters stay as they are. -/
private theorem toUpper_of_isDigit_or_isUpper {c : Char} (h : c.isDigit = true ∨ c.isUpper = true) :
    c.toUpper = c := by
  have hsmall : ¬('a'.val ≤ c.val ∧ c.val ≤ 'z'.val) := by
    rintro ⟨hle, -⟩
    have hcode : 97 ≤ c.toNat := hle
    rcases h with hdigit | hupper
    · have hrange : 48 ≤ c.toNat ∧ c.toNat ≤ 57 := Char.isDigit_iff_toNat.mp hdigit
      omega
    · have hrange : 65 ≤ c.toNat ∧ c.toNat ≤ 90 := of_decide_eq_true hupper
      omega
  exact dif_neg hsmall

/-- Small letters become capital letters. -/
private theorem isUpper_toUpper {c : Char} (h : c.isLower = true) : c.toUpper.isUpper = true := by
  have hrange : (decide (97 ≤ c.toNat) && decide (c.toNat ≤ 122)) = true := h
  rw [Bool.and_eq_true, decide_eq_true_eq, decide_eq_true_eq] at hrange
  have hsmall : 'a'.val ≤ c.val ∧ c.val ≤ 'z'.val := hrange
  have hval : c.toUpper.val = c.val + ('A'.val - 'a'.val) := by
    have hpos : c.toUpper = _ := dif_pos hsmall
    rw [hpos]
  -- the codes of the capital letters are lower by 32, which is added as a word that wraps around
  have hshift : ('A'.val - 'a'.val).toNat = 4294967264 := by decide
  have hcode : c.toUpper.val.toNat = (c.toNat + 4294967264) % 4294967296 := by
    rw [hval, UInt32.toNat_add, hshift]
    rfl
  have hupper : 65 ≤ c.toUpper.val.toNat ∧ c.toUpper.val.toNat ≤ 90 := by omega
  exact decide_eq_true hupper

/-- What becomes of letters and digits. -/
private theorem toUpper_of_isAlphanum {c : Char} (h : c.isAlphanum = true) :
    (c.toUpper.isDigit = true ∨ c.toUpper.isUpper = true) ∧ (c.toUpper = '0' → c = '0') := by
  have hkind : (c.isUpper || c.isLower || c.isDigit) = true := h
  rw [Bool.or_eq_true, Bool.or_eq_true] at hkind
  rcases hkind with (hupper | hlower) | hdigit
  · rw [toUpper_of_isDigit_or_isUpper (.inr hupper)]
    exact ⟨.inr hupper, id⟩
  · have hupper := isUpper_toUpper hlower
    refine ⟨.inr hupper, fun hzero => ?_⟩
    rw [hzero] at hupper
    cases hupper
  · rw [toUpper_of_isDigit_or_isUpper (.inl hdigit)]
    exact ⟨.inl hdigit, id⟩

/-- A zero is dropped from the front, or there is none. -/
private theorem dropZero_cases (cs : List Char) :
    cs = '0' :: dropZero cs ∨ dropZero cs = cs ∧ cs.head? ≠ some '0' := by
  unfold dropZero
  split
  · exact .inl rfl
  · rename_i hne
    refine .inr ⟨rfl, fun hhead => ?_⟩
    cases cs with
    | nil => cases hhead
    | cons c cs =>
      rw [List.head?_cons, Option.some.injEq] at hhead
      exact hne cs (hhead ▸ rfl)

/-- Of a name, a zero is left in front only if nothing follows it. -/
private theorem dropZero_dropZero_of_isName {raw : List Char} (h : Line.IsName raw) :
    ∃ zeros, raw = zeros ++ dropZero (dropZero raw) ∧
      ((dropZero (dropZero raw)).head? = some '0' → dropZero (dropZero raw) = ['0']) := by
  have hlength := h.length_le
  rcases dropZero_cases raw with hfirst | ⟨hfirst, hhead⟩
  · rcases dropZero_cases (dropZero raw) with hsecond | ⟨hsecond, hhead⟩
    · -- two zeros are gone, so there is room for one character at most
      generalize dropZero (dropZero raw) = rest at hsecond
      rw [hsecond] at hfirst
      refine ⟨['0', '0'], hfirst, fun hhead => ?_⟩
      rw [hfirst, List.length_cons, List.length_cons] at hlength
      cases rest with
      | nil => cases hhead
      | cons c rest =>
        rw [List.head?_cons, Option.some.injEq] at hhead
        have hrest : rest = [] := by
          apply List.eq_nil_of_length_eq_zero
          rw [List.length_cons] at hlength
          omega
        rw [hhead, hrest]
    · rw [hsecond]
      exact ⟨['0'], hfirst, fun hzero => absurd hzero hhead⟩
  · rw [hfirst, hfirst]
    exact ⟨[], rfl, fun hzero => absurd hzero hhead⟩

/-- A name stands for a state that can be named. -/
theorem isNameable_normalize {raw : List Char} (h : Line.IsName raw) :
    (normalize raw).IsNameable := by
  obtain ⟨zeros, hraw, hzero⟩ := dropZero_dropZero_of_isName h
  have hlength := h.length_le
  have halphanum := h.isAlphanum
  unfold IsNameable normalize
  generalize dropZero (dropZero raw) = rest at hraw hzero
  subst hraw
  cases rest with
  | nil => exact .inl rfl
  | cons c rest =>
    by_cases hc : c = '0'
    · subst hc
      obtain ⟨-, rfl⟩ := List.cons.inj (hzero rfl)
      exact .inr (.inl rfl)
    · refine .inr (.inr ?_)
      rw [String.toList_ofList]
      refine ⟨by simp, ?_, ?_, ?_⟩
      · rw [List.length_append] at hlength
        rw [List.length_map]
        omega
      · intro d hd
        obtain ⟨e, he, rfl⟩ := List.mem_map.mp hd
        exact (toUpper_of_isAlphanum (halphanum e (List.mem_append_right _ he))).1
      · rw [List.map_cons, List.head?_cons, ne_eq, Option.some.injEq]
        intro hupper
        exact hc ((toUpper_of_isAlphanum (halphanum c (by simp))).2 hupper)

/-- A plain name stands for itself. -/
private theorem normalize_of_isPlain {name : List Char} (h : IsPlain name) :
    normalize name = ⟨String.ofList name⟩ := by
  have hdrop : dropZero name = name := by
    rcases dropZero_cases name with hzero | ⟨hsame, -⟩
    · exact absurd (congrArg List.head? hzero) h.head_ne
    · exact hsame
  have hupper : name.map Char.toUpper = name := by
    rw [List.map_congr_left fun c hc => toUpper_of_isDigit_or_isUpper (h.isDigit_or_isUpper c hc)]
    exact List.map_id' name
  rw [normalize, hdrop, hdrop, hupper]

/-- A plain name may be written. -/
private theorem isName_of_isPlain {name : List Char} (h : IsPlain name) : Line.IsName name where
  ne_nil := h.ne_nil
  length_le := h.length_le
  isAlphanum c hc := by
    show (c.isUpper || c.isLower || c.isDigit) = true
    rw [Bool.or_eq_true, Bool.or_eq_true]
    rcases h.isDigit_or_isUpper c hc with hdigit | hupper
    · exact .inr hdigit
    · exact .inl (.inl hupper)

/-- So may one to three zeros. -/
private theorem isName_zeros {n : Nat} (hpos : n ≠ 0) (hle : n ≤ 3) :
    Line.IsName (List.replicate n '0') where
  ne_nil := by simpa using hpos
  length_le := by rw [List.length_replicate]; exact hle
  isAlphanum c hc := by rw [List.eq_of_mem_replicate hc]; rfl

/-- The spelling of a state is a name that stands for it. -/
theorem spelling_of_isNameable {q : StateId} (h : q.IsNameable) :
    Line.IsName q.spelling ∧ normalize q.spelling = q := by
  obtain ⟨name⟩ := q
  unfold spelling
  split
  · rename_i hempty
    cases hempty
    exact ⟨isName_zeros (n := 1) (by decide) (by decide), rfl⟩
  · rename_i hne
    split
    · rename_i hzero
      cases hzero
      exact ⟨isName_zeros (n := 3) (by decide) (by decide), rfl⟩
    · rename_i hne'
      rcases h with hempty | hzero | hplain
      · exact absurd hempty hne
      · exact absurd hzero hne'
      · refine ⟨isName_of_isPlain hplain, ?_⟩
        rw [normalize_of_isPlain hplain, String.ofList_toList]

/-- The states that can be named are exactly those that a name stands for. -/
theorem isNameable_iff {q : StateId} :
    q.IsNameable ↔ ∃ raw, Line.IsName raw ∧ normalize raw = q := by
  constructor
  · intro h
    exact ⟨q.spelling, spelling_of_isNameable h⟩
  · rintro ⟨raw, hraw, rfl⟩
    exact isNameable_normalize hraw

end StateId

/-! ## Lines -/

namespace Text

/-- A line ends at the line feed after it, if it holds neither a line feed nor a carriage return. -/
theorem lines_append_lineFeed {line : List Char} (hfeed : '\n' ∉ line) (hreturn : '\r' ∉ line)
    (rest : List Char) : lines (line ++ '\n' :: rest) = line :: lines rest := by
  induction line with
  | nil => rfl
  | cons c line ih =>
    rw [List.mem_cons, not_or] at hfeed hreturn
    rw [List.cons_append, lines, ih hfeed.2 hreturn.2]
    · exact fun hc => hfeed.1 hc.symm
    · exact fun _ hc => absurd hc.symm hreturn.1

/-- Lines that are written out are the lines that are read. -/
theorem lines_flatMap {texts : List (List Char)}
    (h : ∀ text ∈ texts, '\n' ∉ text ∧ '\r' ∉ text) :
    lines (texts.flatMap fun text => text ++ ['\n']) = texts := by
  induction texts with
  | nil => rfl
  | cons text texts ih =>
    obtain ⟨hfeed, hreturn⟩ := h text List.mem_cons_self
    rw [List.flatMap_cons, List.append_assoc, List.singleton_append,
      lines_append_lineFeed hfeed hreturn]
    rw [ih fun other hother => h other (List.mem_cons_of_mem text hother)]

end Text

namespace RuleText

/-- A rule that may stand in a program text: its states are names and its symbols are symbols. -/
structure WellFormed (r : RuleText) : Prop where
  state : Line.IsName r.state
  read : Line.isSymbol r.read = true
  next : Line.IsName r.next
  write : Line.isSymbol r.write = true

/-- The marker of a movement, with a comma before it. -/
def mark : Option Direction → List Char
  | none => []
  | some d => [',', d.marker]

/-- A rule written out as a line. -/
def line (r : RuleText) : List Char :=
  r.state ++ ',' :: r.read :: ' ' :: (r.next ++ ',' :: r.write :: mark r.direction)

variable {r : RuleText}

/-- A rule that is written out is read as that rule. -/
theorem WellFormed.parse?_line (h : r.WellFormed) : Line.parse? r.line = some (.rule r) := by
  apply Line.parse?_of_form
  have hmark : Line.Marks (mark r.direction) r.direction := by
    cases r.direction with
    | none => exact .absent
    | some d => exact .comma d
  have htail : Line.IsTail [] := ⟨[], by simp, .inl rfl⟩
  have hform : Line.Form ([] ++ (r.state ++ ',' :: r.read :: ([' '] ++
      (r.next ++ ',' :: r.write :: (mark r.direction ++ []))))) (.rule r) :=
    .rule (by simp) h.state h.read (by simp) (by simp) h.next h.write hmark htail
  simpa [line] using hform

/-- A rule that is on a line of a program text is well formed. -/
theorem wellFormed_of_form {text : List Char} (h : Line.Form text (.rule r)) : r.WellFormed := by
  cases h with
  | rule _ hstate hread _ _ hnext hwrite => exact ⟨hstate, hread, hnext, hwrite⟩

/-- A rule that is written out is one line. -/
theorem WellFormed.not_mem_line (h : r.WellFormed) {c : Char} (hc : c = '\n' ∨ c = '\r') :
    c ∉ r.line := by
  have hname : ∀ {name}, Line.IsName name → c ∉ name := by
    intro name hname hmem
    have halphanum := hname.isAlphanum c hmem
    rcases hc with rfl | rfl <;> cases halphanum
  have hsymbol : ∀ {d}, Line.isSymbol d = true → c ≠ d := by
    rintro d hd rfl
    rcases hc with rfl | rfl <;> cases hd
  have hmark : c ∉ mark r.direction := by
    rcases hc with rfl | rfl <;> rcases r.direction with _ | (_ | _ | _) <;> decide
  have hsep : c ≠ ',' ∧ c ≠ ' ' := by
    rcases hc with rfl | rfl <;> decide
  simp [line, hname h.state, hsymbol h.read, hname h.next, hsymbol h.write, hmark, hsep]

end RuleText

/-! ## Tables -/

namespace Table

variable {t t' : Table}

/-- A table is known by its rules, if no state is listed without any. -/
theorem eq_of_get? (ht : ∀ q m, t.rulesOf? q = some m → m ≠ ∅)
    (ht' : ∀ q m, t'.rulesOf? q = some m → m ≠ ∅) (h : ∀ q a, t.get? q a = t'.get? q a) :
    t = t' := by
  -- a state is listed in a table exactly if it has a rule there
  have hlisted : ∀ {s : Table} {q : StateId}, (∀ q m, s.rulesOf? q = some m → m ≠ ∅) →
      (s.rulesOf? q = none ↔ ∀ a, s.get? q a = none) := by
    intro s q hs
    constructor
    · intro hnone a
      simp [get?, hnone]
    · intro hnone
      cases hq : s.rulesOf? q with
      | none => rfl
      | some m =>
        obtain ⟨a, rule, hrule⟩ := exists_get?_of_rulesOf? hq (hs q m hq)
        cases (hnone a).symm.trans hrule
  apply Table.ext
  apply Std.ExtTreeMap.ext_getElem?
  intro q
  show t.rulesOf? q = t'.rulesOf? q
  cases hq : t.rulesOf? q with
  | none =>
    have hnone := (hlisted ht).mp hq
    rw [eq_comm, hlisted ht']
    intro a
    rw [← h]
    exact hnone a
  | some m =>
    cases hq' : t'.rulesOf? q with
    | none =>
      have hnone : t.rulesOf? q = none := by
        rw [hlisted ht]
        intro a
        rw [h]
        exact (hlisted ht').mp hq' a
      cases hnone.symm.trans hq
    | some m' =>
      congr 1
      apply Std.ExtTreeMap.ext_getElem?
      intro a
      simpa [get?, hq, hq'] using h q a

/-- What a table needs to come from a program text. -/
structure Programmable (t : Table) : Prop where
  /-- The initial state has a rule. -/
  starts : ∃ a rule, t.get? .initial a = some rule
  /-- The halt state is not listed. -/
  not_halt : t.rulesOf? .halt = none
  /-- No state is listed without rules. -/
  ne_empty : ∀ q m, t.rulesOf? q = some m → m ≠ ∅
  /-- Every listed state can be named. -/
  nameable : ∀ q m, t.rulesOf? q = some m → q.IsNameable
  /-- Every state to which a rule leads can be named. -/
  nameable_next : ∀ q a rule, t.get? q a = some rule → rule.next.IsNameable
  /-- The symbols that are read and written are neither commas nor white space. -/
  symbols : ∀ q a rule, t.get? q a = some rule → ∀ c ∈ [a, rule.write],
    c ≠ ',' ∧ Text.isWhiteSpace c = false
  /-- Every rule leads to the halt state or to a listed state. -/
  closed : ∀ q a rule, t.get? q a = some rule →
    rule.next = .halt ∨ (t.rulesOf? rule.next).isSome = true

/-- A rule of a table as it is written. -/
def ruleText (q : StateId) (a : Char) (rule : Rule) : RuleText :=
  ⟨q.spelling, a, rule.next.spelling, rule.write, some rule.direction⟩

/-- The rules of a table as they are written. -/
def ruleTexts (t : Table) : List RuleText :=
  t.rules.toList.flatMap fun (q, rules) => rules.toList.map fun (a, rule) => ruleText q a rule

/-- A table written out, one rule a line. -/
def text (t : Table) : List Char :=
  (t.ruleTexts.map RuleText.line).flatMap fun line => line ++ ['\n']

theorem mem_ruleTexts_iff {r : RuleText} :
    r ∈ t.ruleTexts ↔ ∃ q a rule, t.get? q a = some rule ∧ r = ruleText q a rule := by
  simp only [ruleTexts, List.mem_flatMap, List.mem_map, Prod.exists,
    Std.ExtTreeMap.mem_toList_iff_getElem?_eq_some]
  constructor
  · rintro ⟨q, rules, hq, a, rule, ha, rfl⟩
    exact ⟨q, a, rule, by simp [get?, rulesOf?, hq, ha], rfl⟩
  · rintro ⟨q, a, rule, hrule, rfl⟩
    obtain ⟨rules, hq, ha⟩ := Option.bind_eq_some_iff.mp hrule
    exact ⟨q, rules, hq, a, rule, ha, rfl⟩

/-- A state with a rule is listed. -/
theorem exists_rulesOf?_of_get? {q : StateId} {a : Char} {rule : Rule}
    (h : t.get? q a = some rule) : ∃ m, t.rulesOf? q = some m ∧ m[a]? = some rule :=
  Option.bind_eq_some_iff.mp h

namespace Programmable

variable {q : StateId} {a : Char} {rule : Rule}

theorem nameable_of_get? (h : t.Programmable) (hrule : t.get? q a = some rule) : q.IsNameable := by
  obtain ⟨m, hq, -⟩ := exists_rulesOf?_of_get? hrule
  exact h.nameable q m hq

/-- The rules of the table are well formed when they are written. -/
theorem wellFormed (h : t.Programmable) (hrule : t.get? q a = some rule) :
    (ruleText q a rule).WellFormed := by
  have hsymbol : ∀ c ∈ [a, rule.write], Line.isSymbol c = true := by
    intro c hc
    obtain ⟨hcomma, hwhite⟩ := h.symbols q a rule hrule c hc
    simp [Line.isSymbol, hcomma, hwhite]
  exact ⟨(StateId.spelling_of_isNameable (h.nameable_of_get? hrule)).1, hsymbol a (by simp),
    (StateId.spelling_of_isNameable (h.nameable_next q a rule hrule)).1,
    hsymbol rule.write (by simp)⟩

/-- A rule that is written means the rule of the table. -/
theorem ruleText_eq (h : t.Programmable) (hrule : t.get? q a = some rule) :
    (ruleText q a rule).source = q ∧ (ruleText q a rule).rule = rule := by
  have hsource := (StateId.spelling_of_isNameable (h.nameable_of_get? hrule)).2
  have htarget := (StateId.spelling_of_isNameable (h.nameable_next q a rule hrule)).2
  exact ⟨hsource, Rule.ext rfl rfl htarget⟩

/-- The lines of the text are the rules as they are written. -/
theorem lines_text (h : t.Programmable) : Text.lines t.text = t.ruleTexts.map RuleText.line := by
  apply Text.lines_flatMap
  intro line hline
  obtain ⟨r, hr, rfl⟩ := List.mem_map.mp hline
  obtain ⟨q, a, rule, hrule, rfl⟩ := mem_ruleTexts_iff.mp hr
  have hwell := h.wellFormed hrule
  exact ⟨hwell.not_mem_line (.inl rfl), hwell.not_mem_line (.inr rfl)⟩

/-- The rules on the lines of the text are those of the table. -/
theorem rulesOn_text (h : t.Programmable) :
    Program.rulesOn (t.ruleTexts.map RuleText.line) = t.ruleTexts := by
  have hparse : ∀ r ∈ t.ruleTexts, Line.parse? r.line = some (.rule r) := by
    intro r hr
    obtain ⟨q, a, rule, hrule, rfl⟩ := mem_ruleTexts_iff.mp hr
    exact (h.wellFormed hrule).parse?_line
  generalize t.ruleTexts = rules at hparse
  induction rules with
  | nil => rfl
  | cons r rules ih =>
    rw [List.map_cons, Program.rulesOn_cons_of_rule _ (hparse r List.mem_cons_self)]
    rw [ih fun other hother => hparse other (List.mem_cons_of_mem r hother)]

/-- No two rules of the text belong to one state and one symbol. -/
theorem nodup_keys (h : t.Programmable) : (t.ruleTexts.map RuleText.key).Nodup := by
  -- the keys are those of the map of maps, in the same order
  have hkeys : t.ruleTexts.map RuleText.key =
      t.rules.toList.flatMap fun entry => entry.2.toList.map fun p => (entry.1, p.1) := by
    rw [ruleTexts, List.map_flatMap]
    apply List.flatMap_congr
    rintro ⟨q, rules⟩ hq
    rw [List.map_map]
    apply List.map_congr_left
    rintro ⟨a, rule⟩ ha
    rw [Std.ExtTreeMap.mem_toList_iff_getElem?_eq_some] at hq ha
    have hrule : t.get? q a = some rule := by simp [get?, rulesOf?, hq, ha]
    exact Prod.ext (h.ruleText_eq hrule).1 rfl
  rw [hkeys, List.nodup_flatMap]
  constructor
  · rintro ⟨q, rules⟩ -
    rw [List.Nodup, List.pairwise_map]
    refine rules.distinct_keys_toList.imp ?_
    rintro p p' hne heq
    exact hne (by rw [(Prod.mk.inj heq).2]; simp)
  · refine t.rules.distinct_keys_toList.imp ?_
    intro entry other hne
    apply List.disjoint_left.mpr
    rintro key hkey hkey'
    obtain ⟨p, -, rfl⟩ := List.mem_map.mp hkey
    obtain ⟨p', -, heq⟩ := List.mem_map.mp hkey'
    exact hne (by rw [(Prod.mk.inj heq).1]; simp)

/-- The lines of the text can be read. -/
theorem addable (h : t.Programmable) : Addable [] (Text.lines t.text) := by
  rw [h.lines_text]
  refine ⟨?_, ?_, ?_⟩
  · intro line hline
    obtain ⟨r, hr, rfl⟩ := List.mem_map.mp hline
    obtain ⟨q, a, rule, hrule, rfl⟩ := mem_ruleTexts_iff.mp hr
    rw [(h.wellFormed hrule).parse?_line]
    rfl
  · rw [h.rulesOn_text]
    rintro r hr hhalt
    obtain ⟨q, a, rule, hrule, rfl⟩ := mem_ruleTexts_iff.mp hr
    rw [(h.ruleText_eq hrule).1] at hhalt
    subst hhalt
    obtain ⟨m, hm, -⟩ := exists_rulesOf?_of_get? hrule
    cases h.not_halt.symm.trans hm
  · rw [h.rulesOn_text]
    exact h.nodup_keys

/-- The table that holds the rules of the text is the table itself. -/
theorem eq_of_lists (h : t.Programmable) (hlists : t'.Lists t.ruleTexts) : t' = t := by
  apply eq_of_get? hlists.ne_empty h.ne_empty
  intro q a
  apply Option.ext
  intro rule
  rw [hlists.get?_iff]
  constructor
  · rintro ⟨r, hr, hsource, hread, hrule⟩
    obtain ⟨q', a', rule', hrule', rfl⟩ := mem_ruleTexts_iff.mp hr
    obtain ⟨hsource', hmeans⟩ := h.ruleText_eq hrule'
    cases hsource'.symm.trans hsource
    cases hmeans.symm.trans hrule
    cases hread
    exact hrule'
  · intro hrule
    obtain ⟨hsource, hmeans⟩ := h.ruleText_eq hrule
    exact ⟨ruleText q a rule, mem_ruleTexts_iff.mpr ⟨q, a, rule, hrule, rfl⟩, hsource, rfl, hmeans⟩

/-- A run may go on in every listed state. -/
theorem accepts_of_listed (h : t.Programmable) (hq : (t.rulesOf? q).isSome = true) :
    t.accepts q = true := by
  obtain ⟨m, hm⟩ := Option.isSome_iff_exists.mp hq
  have hdefines := defines_iff.mpr (exists_get?_of_rulesOf? hm (h.ne_empty q m hm))
  rw [accepts, hdefines, Bool.or_true]

/-- A table that is written out is read back unchanged. -/
theorem ofSource_text (h : t.Programmable) : ofSource t.text = .ok t := by
  obtain ⟨⟨t', references⟩, hadd⟩ :=
    (addLines_isOk_iff Lists.empty List.nodup_nil ∅ 1 (Text.lines t.text)).mpr h.addable
  obtain ⟨hlists, hstates⟩ := lists_of_addLines hadd
  rw [Program.rules, h.lines_text, h.rulesOn_text] at hlists hstates
  cases h.eq_of_lists hlists
  obtain ⟨a, rule, hinitial⟩ := h.starts
  refine ofSource_eq_ok_iff.mpr ⟨references, hadd, check_eq_ok_iff.mpr ⟨?_, ?_, ?_⟩⟩
  · -- the rule of the initial state is one of the rules
    rw [hlists.size_eq, ne_eq, List.length_eq_zero_iff]
    exact List.ne_nil_of_mem (mem_ruleTexts_iff.mpr ⟨_, a, rule, hinitial, rfl⟩)
  · intro q hq
    obtain ⟨r, hr, rfl⟩ := (hstates q).mp hq
    obtain ⟨q', a', rule', hrule, rfl⟩ := mem_ruleTexts_iff.mp hr
    rw [show (ruleText q' a' rule').target = rule'.next from
      congrArg Rule.next (h.ruleText_eq hrule).2]
    rcases h.closed q' a' rule' hrule with hhalt | hlisted
    · rw [hhalt]
      rfl
    · exact h.accepts_of_listed hlisted
  · exact defines_iff.mpr ⟨a, rule, hinitial⟩

end Programmable

/-- A table that comes from a program text has what it needs. -/
theorem programmable_of_ofSource {source : List Char} (h : ofSource source = .ok t) :
    t.Programmable := by
  obtain ⟨references, hadd, hcheck⟩ := ofSource_eq_ok_iff.mp h
  obtain ⟨hlists, hstates⟩ := lists_of_addLines hadd
  obtain ⟨-, haccepts, hinitial⟩ := check_eq_ok_iff.mp hcheck
  obtain ⟨-, hhalt, -⟩ :=
    (addLines_isOk_iff Lists.empty List.nodup_nil ∅ 1 (Text.lines source)).mp ⟨_, hadd⟩
  -- a rule of the table is on a line of the text
  have hrules : ∀ q a rule, t.get? q a = some rule →
      ∃ r ∈ Program.rules source, r.source = q ∧ r.read = a ∧ r.rule = rule ∧ r.WellFormed := by
    intro q a rule hrule
    obtain ⟨r, hr, hsource, hread, hmeans⟩ := (hlists.get?_iff q a rule).mp hrule
    obtain ⟨text, -, hform⟩ := Program.mem_rulesOn_iff.mp hr
    exact ⟨r, hr, hsource, hread, hmeans, RuleText.wellFormed_of_form hform⟩
  have hsymbol : ∀ {c}, Line.isSymbol c = true → c ≠ ',' ∧ Text.isWhiteSpace c = false := by
    intro c hc
    simpa [Line.isSymbol] using hc
  refine ⟨defines_iff.mp hinitial, ?_, hlists.ne_empty, ?_, ?_, ?_, ?_⟩
  · cases hlisted : t.rulesOf? .halt with
    | none => rfl
    | some m =>
      obtain ⟨r, hr, hsource⟩ := hlists.isSome_rulesOf?_iff.mp (by rw [hlisted]; rfl)
      exact absurd hsource (hhalt r hr)
  · intro q m hq
    obtain ⟨a, rule, hrule⟩ := exists_get?_of_rulesOf? hq (hlists.ne_empty q m hq)
    obtain ⟨r, -, rfl, -, -, hwell⟩ := hrules q a rule hrule
    exact StateId.isNameable_iff.mpr ⟨r.state, hwell.state, rfl⟩
  · intro q a rule hrule
    obtain ⟨r, -, -, -, rfl, hwell⟩ := hrules q a rule hrule
    exact StateId.isNameable_iff.mpr ⟨r.next, hwell.next, rfl⟩
  · intro q a rule hrule c hc
    obtain ⟨r, -, -, rfl, rfl, hwell⟩ := hrules q a rule hrule
    rw [List.mem_pair] at hc
    rcases hc with rfl | rfl
    · exact hsymbol hwell.read
    · exact hsymbol hwell.write
  · intro q a rule hrule
    obtain ⟨r, hr, -, -, rfl, -⟩ := hrules q a rule hrule
    have haccept := haccepts r.target ((hstates r.target).mpr ⟨r, hr, rfl⟩)
    rw [accepts, Bool.or_eq_true, StateId.isHalt_iff, hlists.defines_iff,
      ← hlists.isSome_rulesOf?_iff] at haccept
    exact haccept

/-- **Programmable tables.** A table comes from a program text exactly if the initial state has a
rule, the halt state is not listed and no state is listed without rules, states and symbols can be
written, and every rule leads to the halt state or to a listed state.  Every such table comes from
the text that it is written out as. -/
theorem comes_from_text_iff (t : Table) :
    ((∃ source, ofSource source = .ok t) ↔ t.Programmable) ∧
      (t.Programmable ↔ ofSource t.text = .ok t) := by
  have hback : ofSource t.text = .ok t → t.Programmable := programmable_of_ofSource
  refine ⟨⟨?_, ?_⟩, Programmable.ofSource_text, hback⟩
  · rintro ⟨source, hsource⟩
    exact programmable_of_ofSource hsource
  · intro h
    exact ⟨t.text, h.ofSource_text⟩

-- states whose names are not written as they are, and symbols that could be taken for syntax
example : (ofSource "1,# 000,<\n000,_ 0,#>\n0,_ h,_".toList).map text =
    .ok "0,_ H,_,_\n000,_ 0,#,>\n1,# 000,<,_\n".toList := by decide +kernel

end Table

end SingleTape
