import SingleTape.Program.Line
import SingleTape.Proofs.Text.Trim

/-!
# The format of a line

`Line.parse?` reads a line from left to right and never gives back what it has taken.  This file
says the same without an order of reading: a line is a rule if it can be cut into the parts of a
rule, each of the right kind, with white space and a comment around them.

No two cuts of one line differ, because each part ends at a character that cannot continue it:
a name at a comma, the spaces at a letter or digit, the marker at white space or at the `#` of a
comment.  So the greedy reader finds the cut whenever there is one.

## Key results

- `Line.parse?_eq_some_iff`: a line is read as what its format says, and only so
- `Line.parse?_append_whiteSpace`, `Line.parse?_append_of_isTail`: white space at the end of a line
  is never noticed, nor a comment after a line that can be read
- `Line.isSymbol_write`: the symbols of a rule are symbols, so no rule writes a space
-/

namespace SingleTape.Line

/-- The name of a state as it may be written: one to three letters or digits. -/
structure IsName (name : List Char) : Prop where
  ne_nil : name ≠ []
  length_le : name.length ≤ 3
  isAlphanum : ∀ c ∈ name, c.isAlphanum = true

/-- What may follow a rule: white space, and then perhaps a comment. -/
def IsTail (cs : List Char) : Prop :=
  ∃ space, (∀ c ∈ space, Text.isWhiteSpace c = true) ∧
    (cs = space ∨ ∃ comment, cs = space ++ '#' :: comment)

/-- How a movement is marked: by nothing, by its marker, or by a comma and its marker. -/
inductive Marks : List Char → Option Direction → Prop where
  | absent : Marks [] none
  | marker (d : Direction) : Marks [d.marker] (some d)
  | comma (d : Direction) : Marks [',', d.marker] (some d)

/-- `Form cs line` says that the text `cs` is written in the format of a line and says `line`. -/
inductive Form : List Char → Line → Prop where
  /-- A line without a rule. -/
  | blank {tail : List Char} (htail : IsTail tail) : Form tail .blank
  /-- A line with a rule. -/
  | rule {space gap mark tail : List Char} {r : RuleText}
      (hspace : ∀ c ∈ space, Text.isWhiteSpace c = true)
      (hstate : IsName r.state) (hread : isSymbol r.read = true)
      (hgap : gap ≠ []) (hgap' : ∀ c ∈ gap, c = ' ')
      (hnext : IsName r.next) (hwrite : isSymbol r.write = true)
      (hmark : Marks mark r.direction) (htail : IsTail tail) :
      Form (space ++ (r.state ++ ',' :: r.read :: (gap ++
        (r.next ++ ',' :: r.write :: (mark ++ tail))))) (.rule r)

/-! ## What each part takes -/

/-- A name is taken up to the comma that follows it. -/
private theorem takeName?_append {name rest : List Char} (h : IsName name) :
    takeName? (name ++ ',' :: rest) = some (name, ',' :: rest) := by
  -- at most three characters are looked at, and the comma ends the name before that or there
  have htake : ((name ++ ',' :: rest).take 3).takeWhile Char.isAlphanum = name := by
    rw [List.take_append, List.takeWhile_append_of_pos]
    · have hlen := h.length_le
      rw [List.take_of_length_le hlen]
      cases hk : 3 - name.length with
      | zero => simp
      | succ k => simp [show ','.isAlphanum = false from rfl]
    · intro c hc
      exact h.isAlphanum c (List.mem_of_mem_take hc)
  simp [takeName?, htake, h.ne_nil]

/-- What is taken as a name is a name. -/
private theorem isName_of_takeName? {cs name rest : List Char}
    (h : takeName? cs = some (name, rest)) : IsName name ∧ cs = name ++ rest := by
  simp only [takeName?] at h
  split at h
  · cases h
  · rename_i hne
    simp only [Option.some.injEq, Prod.mk.injEq] at h
    obtain ⟨rfl, rfl⟩ := h
    have hprefix : (cs.take 3).takeWhile Char.isAlphanum <+: cs :=
      (List.takeWhile_prefix _).trans (List.take_prefix 3 cs)
    refine ⟨⟨hne, ?_, ?_⟩, ?_⟩
    · exact Nat.le_trans (List.takeWhile_prefix _).length_le (List.length_take_le 3 cs)
    · intro c hc
      exact List.all_eq_true.mp List.all_takeWhile c hc
    · exact (List.prefix_iff_eq_append.mp hprefix).symm

/-- A state and a symbol are taken together, up to what follows the symbol. -/
private theorem takePair?_append {name rest : List Char} {c : Char} (h : IsName name)
    (hc : isSymbol c = true) :
    takePair? (name ++ ',' :: c :: rest) = some (name, c, rest) := by
  simp [takePair?, takeName?_append h, expect?, takeSymbol?, hc]

/-- What is taken as a state and a symbol is written with a comma between them. -/
private theorem form_of_takePair? {cs name rest : List Char} {c : Char}
    (h : takePair? cs = some (name, c, rest)) :
    IsName name ∧ isSymbol c = true ∧ cs = name ++ ',' :: c :: rest := by
  simp only [takePair?, Option.bind_eq_bind, Option.bind_eq_some_iff, Option.pure_def,
    Option.some.injEq, Prod.mk.injEq, Prod.exists] at h
  -- a name, then a comma, then a symbol
  obtain ⟨name', cs₁, hname, cs₂, hcomma, c', cs₃, hsymbol, rfl, rfl, rfl⟩ := h
  obtain ⟨hname', rfl⟩ := isName_of_takeName? hname
  cases cs₁ with
  | nil => cases hcomma
  | cons d cs₁ =>
    simp only [expect?, Option.ite_none_right_eq_some, Option.some.injEq] at hcomma
    obtain ⟨rfl, rfl⟩ := hcomma
    cases cs₁ with
    | nil => cases hsymbol
    | cons e cs₁ =>
      simp only [takeSymbol?, Option.ite_none_right_eq_some, Option.some.injEq,
        Prod.mk.injEq] at hsymbol
      obtain ⟨he, rfl, rfl⟩ := hsymbol
      exact ⟨hname', he, rfl⟩

/-- Spaces are taken up to the name that follows them. -/
private theorem takeSpaces?_append {gap name rest : List Char} (hne : gap ≠ [])
    (hgap : ∀ c ∈ gap, c = ' ') (h : IsName name) :
    takeSpaces? (gap ++ (name ++ rest)) = some (name ++ rest) := by
  obtain ⟨c, name, rfl⟩ := List.exists_cons_of_ne_nil h.ne_nil
  -- the name begins with a letter or digit, which ends the spaces
  have hc : c ≠ ' ' := by
    rintro rfl
    exact absurd (h.isAlphanum ' ' (by simp)) (by decide)
  cases gap with
  | nil => exact absurd rfl hne
  | cons d gap =>
    have hd : d = ' ' := hgap d (by simp)
    have hdrop : (gap ++ (c :: name ++ rest)).dropWhile (· = ' ') = c :: name ++ rest := by
      rw [List.dropWhile_append_of_pos]
      · simp [hc]
      · intro e he
        simpa using hgap e (by simp [he])
    simp only [takeSpaces?, List.cons_append, expect?, hd, ↓reduceIte, Option.map_some]
    rw [← List.cons_append, hdrop]

/-- What is taken as spaces is one space or more. -/
private theorem gap_of_takeSpaces? {cs rest : List Char} (h : takeSpaces? cs = some rest) :
    ∃ gap, gap ≠ [] ∧ (∀ c ∈ gap, c = ' ') ∧ cs = gap ++ rest := by
  cases cs with
  | nil => cases h
  | cons d cs =>
    simp only [takeSpaces?, expect?, Option.map_eq_some_iff, Option.ite_none_right_eq_some,
      Option.some.injEq] at h
    obtain ⟨_, ⟨rfl, rfl⟩, rfl⟩ := h
    refine ⟨' ' :: cs.takeWhile (· = ' '), by simp, ?_, by simp⟩
    intro c hc
    rcases List.mem_cons.mp hc with rfl | hc
    · rfl
    · simpa using List.all_eq_true.mp List.all_takeWhile c hc

/-- Neither a comma nor a marker is white space, and neither begins a comment. -/
private theorem takeDirection_of_isTail {tail : List Char} (h : IsTail tail) :
    takeDirection tail = (none, tail) := by
  have key : ∀ c rest, Text.isWhiteSpace c = true ∨ c = '#' →
      takeDirection (c :: rest) = (none, c :: rest) := by
    intro c rest hc
    have hcomma : c ≠ ',' := by
      rintro rfl
      exact absurd hc (by decide)
    have hmark : Direction.ofMarker? c = none := by
      cases hd : Direction.ofMarker? c with
      | none => rfl
      | some d =>
        rw [Direction.ofMarker?_eq_some] at hd
        subst hd
        cases d <;> exact absurd hc (by decide)
    simp [takeDirection, expect?, hcomma, hmark]
  obtain ⟨space, hspace, rfl | ⟨comment, rfl⟩⟩ := h
  · cases tail with
    | nil => rfl
    | cons c tail => exact key c tail (.inl (hspace c (by simp)))
  · cases space with
    | nil => exact key '#' comment (.inr rfl)
    | cons c space => exact key c _ (.inl (hspace c (by simp)))

/-- A marked movement is taken together with its comma. -/
private theorem takeDirection_append {mark tail : List Char} {d : Option Direction}
    (hmark : Marks mark d) (htail : IsTail tail) : takeDirection (mark ++ tail) = (d, tail) := by
  cases hmark with
  | absent => exact takeDirection_of_isTail htail
  | marker d => cases d <;> rfl
  | comma d => cases d <;> rfl

/-- What is taken as a movement marks it. -/
private theorem marks_of_takeDirection {cs rest : List Char} {d : Option Direction}
    (h : takeDirection cs = (d, rest)) : ∃ mark, Marks mark d ∧ cs = mark ++ rest := by
  simp only [takeDirection] at h
  split at h
  · -- nothing is left
    obtain ⟨rfl, rfl⟩ := Prod.mk.inj h
    exact ⟨[], .absent, rfl⟩
  · rename_i c after hafter
    split at h
    · -- what follows is no marker, so a comma before it is not taken either
      obtain ⟨rfl, rfl⟩ := Prod.mk.inj h
      exact ⟨[], .absent, rfl⟩
    · rename_i d' hd
      obtain ⟨rfl, rfl⟩ := Prod.mk.inj h
      rw [Direction.ofMarker?_eq_some] at hd
      subst hd
      cases hcomma : expect? ',' cs with
      | none =>
        rw [hcomma, Option.getD_none] at hafter
        exact ⟨[d'.marker], .marker d', hafter⟩
      | some cs₁ =>
        rw [hcomma, Option.getD_some] at hafter
        cases cs with
        | nil => cases hcomma
        | cons e cs =>
          simp only [expect?, Option.ite_none_right_eq_some, Option.some.injEq] at hcomma
          obtain ⟨rfl, rfl⟩ := hcomma
          exact ⟨[',', d'.marker], .comma d', by rw [hafter]; rfl⟩

/-! ## Whole lines -/

/-- `isRest` decides what may follow a rule. -/
theorem isRest_iff {cs : List Char} : isRest cs = true ↔ IsTail cs := by
  constructor
  · intro h
    have hcs : cs = cs.takeWhile Text.isWhiteSpace ++ Text.trimStart cs := by
      simp [Text.trimStart]
    refine ⟨cs.takeWhile Text.isWhiteSpace, List.all_eq_true.mp List.all_takeWhile, ?_⟩
    simp only [isRest] at h
    split at h
    · rename_i hnil
      exact .inl (by rw [hnil, List.append_nil] at hcs; exact hcs)
    · rename_i c comment hcons
      rw [decide_eq_true_eq] at h
      exact .inr ⟨comment, by rw [hcons, h] at hcs; exact hcs⟩
  · rintro ⟨space, hspace, rfl | ⟨comment, rfl⟩⟩
    · have hnil : cs.dropWhile Text.isWhiteSpace = [] := by
        rw [← List.append_nil cs, List.dropWhile_append_of_pos hspace, List.dropWhile_nil]
      simp [isRest, Text.trimStart, hnil]
    · simp [isRest, Text.trimStart_append_cons hspace (show Text.isWhiteSpace '#' = false from rfl)]

/-- A rule is taken from the front of its written form, and what may follow it is left. -/
private theorem takeRule?_append {gap mark tail : List Char} {r : RuleText}
    (hstate : IsName r.state) (hread : isSymbol r.read = true)
    (hgap : gap ≠ []) (hgap' : ∀ c ∈ gap, c = ' ')
    (hnext : IsName r.next) (hwrite : isSymbol r.write = true)
    (hmark : Marks mark r.direction) (htail : IsTail tail) :
    takeRule? (r.state ++ ',' :: r.read :: (gap ++
      (r.next ++ ',' :: r.write :: (mark ++ tail)))) = some (r, tail) := by
  simp only [takeRule?, takePair?_append hstate hread, Option.bind_eq_bind, Option.bind_some,
    takeSpaces?_append hgap hgap' hnext, takePair?_append hnext hwrite,
    takeDirection_append hmark htail, Option.pure_def]

/-- Nothing that may follow a rule begins with a rule. -/
private theorem takeRule?_of_isTail {tail : List Char} (h : IsTail tail) :
    takeRule? (Text.trimStart tail) = none := by
  have hrest := isRest_iff.mpr h
  simp only [isRest] at hrest
  split at hrest
  · rename_i hnil
    rw [hnil]
    rfl
  · rename_i c comment hcons
    rw [decide_eq_true_eq] at hrest
    subst hrest
    have hname : takeName? ('#' :: comment) = none := by
      simp [takeName?, show '#'.isAlphanum = false from rfl]
    rw [hcons]
    simp [takeRule?, takePair?, hname]

/-- A line in the format of a line is read as what it says. -/
theorem parse?_of_form {cs : List Char} {line : Line} (h : Form cs line) :
    parse? cs = some line := by
  cases h with
  | blank htail =>
    simp [parse?, takeRule?_of_isTail htail, isRest_iff.mpr htail]
  | rule hspace hstate hread hgap hgap' hnext hwrite hmark htail =>
    rename_i space gap mark tail r
    -- the name of the state begins with a letter or digit, which ends the white space
    obtain ⟨c, name, hname⟩ := List.exists_cons_of_ne_nil hstate.ne_nil
    have hc : Text.isWhiteSpace c = false :=
      Text.isWhiteSpace_of_isAlphanum (hstate.isAlphanum c (by simp [hname]))
    have htrim : ∀ rest, Text.trimStart (space ++ (r.state ++ rest)) = r.state ++ rest := by
      intro rest
      rw [hname, List.cons_append, Text.trimStart_append_cons hspace hc]
    simp [parse?, htrim, takeRule?_append hstate hread hgap hgap' hnext hwrite hmark htail,
      isRest_iff.mpr htail]

/-- A line that is read is in the format of a line. -/
theorem form_of_parse? {cs : List Char} {line : Line} (h : parse? cs = some line) :
    Form cs line := by
  have hcs : cs = cs.takeWhile Text.isWhiteSpace ++ Text.trimStart cs := by
    simp [Text.trimStart]
  simp only [parse?] at h
  split at h
  · simp only [Option.ite_none_right_eq_some, Option.some.injEq] at h
    obtain ⟨hrest, rfl⟩ := h
    exact .blank (isRest_iff.mp hrest)
  · rename_i r tail hrule
    simp only [Option.ite_none_right_eq_some, Option.some.injEq] at h
    obtain ⟨hrest, rfl⟩ := h
    -- the parts of the rule, in the order in which they are taken
    simp only [takeRule?, Option.bind_eq_bind, Option.bind_eq_some_iff, Option.pure_def,
      Option.some.injEq, Prod.mk.injEq, Prod.exists] at hrule
    obtain ⟨state, read, cs₁, hfirst, cs₂, hspaces, next, write, cs₃, hsecond, rfl, rfl⟩ := hrule
    obtain ⟨hstate, hread, htrim⟩ := form_of_takePair? hfirst
    obtain ⟨gap, hgap, hgap', rfl⟩ := gap_of_takeSpaces? hspaces
    obtain ⟨hnext, hwrite, rfl⟩ := form_of_takePair? hsecond
    cases hdirection : takeDirection cs₃ with
    | mk direction tail =>
    rw [hdirection] at hrest
    obtain ⟨mark, hmark, rfl⟩ := marks_of_takeDirection hdirection
    have hspace : ∀ c ∈ cs.takeWhile Text.isWhiteSpace, Text.isWhiteSpace c = true :=
      List.all_eq_true.mp List.all_takeWhile
    rw [hcs, htrim]
    exact @Form.rule _ gap mark tail ⟨state, read, next, write, direction⟩ hspace hstate hread
      hgap hgap' hnext hwrite hmark (isRest_iff.mp hrest)

/-- The reader accepts exactly the format of a line, and reads it as what it says. -/
theorem parse?_eq_some_iff {cs : List Char} {line : Line} :
    parse? cs = some line ↔ Form cs line :=
  ⟨form_of_parse?, parse?_of_form⟩

/-- The symbol that a rule writes is a symbol, so it is not a space. -/
theorem isSymbol_write {cs : List Char} {r : RuleText} (h : parse? cs = some (.rule r)) :
    isSymbol r.write = true := by
  cases form_of_parse? h with
  | rule _ _ _ _ _ _ hwrite _ _ => exact hwrite

/-! ## What may be appended to a line -/

section Append

variable {cs extra space : List Char} {line : Line} {r : RuleText}

/-- White space and a comment may be appended to what follows a rule, inside its comment if it has
one. -/
theorem IsTail.append (h : IsTail cs) (hextra : IsTail extra) : IsTail (cs ++ extra) := by
  obtain ⟨space, hspace, rfl | ⟨comment, rfl⟩⟩ := h
  · obtain ⟨space', hspace', hend⟩ := hextra
    have hboth : ∀ c ∈ cs ++ space', Text.isWhiteSpace c = true := by
      intro c hc
      exact (List.mem_append.mp hc).elim (hspace c) (hspace' c)
    refine ⟨cs ++ space', hboth, ?_⟩
    rcases hend with rfl | ⟨comment, rfl⟩
    · exact .inl rfl
    · exact .inr ⟨comment, by simp⟩
  · exact ⟨space, hspace, .inr ⟨comment ++ extra, by simp⟩⟩

/-- What follows a rule may be cut off anywhere. -/
theorem IsTail.of_append (h : IsTail (cs ++ extra)) : IsTail cs := by
  obtain ⟨space, hspace, hcs | ⟨comment, hcs⟩⟩ := h
  · refine ⟨cs, fun c hc => hspace c ?_, .inl rfl⟩
    rw [← hcs]
    exact List.mem_append_left _ hc
  · rcases List.append_eq_append_iff.mp hcs with ⟨rest, rfl, -⟩ | ⟨rest, rfl, hrest⟩
    · -- cut off before the comment
      exact ⟨cs, fun c hc => hspace c (List.mem_append_left _ hc), .inl rfl⟩
    · -- cut off inside the comment, or right before its `#`
      refine ⟨space, hspace, ?_⟩
      cases rest with
      | nil => exact .inl (List.append_nil space)
      | cons c rest =>
        obtain ⟨rfl, -⟩ := List.cons.inj hrest
        exact .inr ⟨rest, rfl⟩

/-- A rule ends with its marker, or with the symbol it writes; neither is white space. -/
private theorem Marks.exists_last {mark : List Char} {d : Option Direction} {write : Char}
    (h : Marks mark d) (hwrite : isSymbol write = true) :
    ∃ init last, write :: mark = init ++ [last] ∧ Text.isWhiteSpace last = false := by
  have hmarker : ∀ d : Direction, Text.isWhiteSpace d.marker = false := by
    intro d
    cases d <;> decide
  cases h with
  | absent =>
    simp only [isSymbol, Bool.and_eq_true, Bool.not_eq_true'] at hwrite
    exact ⟨[], write, rfl, hwrite.2⟩
  | marker d => exact ⟨[write], d.marker, rfl, hmarker d⟩
  | comma d => exact ⟨[write, ','], d.marker, rfl, hmarker d⟩

/-- A line with a rule is the rule up to its last character, which is not white space, and then
something that may be exchanged for anything else that may follow a rule. -/
private theorem Form.exists_last (h : Form cs (.rule r)) :
    ∃ init last tail, cs = init ++ last :: tail ∧ Text.isWhiteSpace last = false ∧ IsTail tail ∧
      ∀ tail', IsTail tail' → Form (init ++ last :: tail') (.rule r) := by
  cases h with
  | rule hspace hstate hread hgap hgap' hnext hwrite hmark htail =>
    rename_i space gap mark tail
    obtain ⟨init, last, hinit, hlast⟩ := hmark.exists_last hwrite
    have hend : ∀ tail', r.write :: (mark ++ tail') = init ++ last :: tail' := by
      intro tail'
      rw [← List.cons_append, hinit, List.append_assoc, List.singleton_append]
    refine ⟨space ++ (r.state ++ ',' :: r.read :: (gap ++ (r.next ++ ',' :: init))), last, tail,
      by simp [hend], hlast, htail, ?_⟩
    intro tail' htail'
    have hform := Form.rule hspace hstate hread hgap hgap' hnext hwrite hmark htail'
    simpa [hend] using hform

/-- White space and a comment may be appended to a line. -/
theorem Form.append (h : Form cs line) (hextra : IsTail extra) : Form (cs ++ extra) line := by
  cases line with
  | blank =>
    cases h with
    | blank htail => exact .blank (htail.append hextra)
  | rule r =>
    obtain ⟨init, last, tail, rfl, -, htail, hform⟩ := h.exists_last
    rw [List.append_assoc, List.cons_append]
    exact hform _ (htail.append hextra)

/-- White space at the end of a line may be left out. -/
theorem Form.of_append (h : Form (cs ++ space) line)
    (hspace : ∀ c ∈ space, Text.isWhiteSpace c = true) : Form cs line := by
  cases line with
  | blank =>
    generalize htext : cs ++ space = text at h
    cases h with
    | blank htail =>
      subst htext
      exact .blank htail.of_append
  | rule r =>
    obtain ⟨init, last, tail, hcs, hlast, htail, hform⟩ := h.exists_last
    -- the white space cannot reach back to the last character of the rule
    have hnot : last ∉ space := by
      intro hmem
      rw [hspace last hmem] at hlast
      cases hlast
    rcases List.append_eq_append_iff.mp hcs with ⟨rest, -, hrest⟩ | ⟨rest, rfl, hrest⟩
    · rw [hrest] at hnot
      simp at hnot
    · cases rest with
      | nil =>
        rw [List.nil_append] at hrest
        rw [← hrest] at hnot
        simp at hnot
      | cons c rest =>
        obtain ⟨rfl, rfl⟩ := List.cons.inj hrest
        exact hform rest htail.of_append

/-- White space at the end of a line is never noticed, whether the line can be read or not. -/
theorem parse?_append_whiteSpace (cs : List Char)
    (hspace : ∀ c ∈ space, Text.isWhiteSpace c = true) : parse? (cs ++ space) = parse? cs := by
  apply Option.ext
  intro line
  rw [parse?_eq_some_iff, parse?_eq_some_iff]
  exact ⟨fun h => h.of_append hspace, fun h => h.append ⟨space, hspace, .inl rfl⟩⟩

/-- A comment after a line that can be read is not noticed either. -/
theorem parse?_append_of_isTail (h : (parse? cs).isSome = true) (hextra : IsTail extra) :
    parse? (cs ++ extra) = parse? cs := by
  obtain ⟨line, hline⟩ := Option.isSome_iff_exists.mp h
  rw [hline]
  exact parse?_of_form ((form_of_parse? hline).append hextra)

end Append

end SingleTape.Line
