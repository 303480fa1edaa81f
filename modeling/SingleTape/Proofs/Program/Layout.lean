import SingleTape.Proofs.Program.LineFormat
import SingleTape.Proofs.Program.Statements

/-!
# Layout

Three changes to a program text leave its meaning alone: writing its line ends in the other way,
putting a blank line or a comment between its lines, and ending a line with white space and a
comment.  Each of them is a change of the statements of the text, in their numbers at most.

A line end is not simply cut off.  One carriage return before a line feed belongs to the line end,
any other one to the line; so if a carriage return is put before every line feed, a line that had
one already keeps it as its last character.  Carriage returns are white space, and white space at
the end of a line is never noticed, not even if the line is malformed.

## Key results

- `Text.forall₂_lines_crlf`: the lines of a text with the other line ends
- `Text.lines_append`: a text can be cut into lines before and after the beginning of a line
- `Program.statements_crlf`, `Program.statements_insert`, `Program.exists_statements_endsLine`: what
  becomes of the statements
- `Table.ofSource_crlf`, `Table.ofSource_insert`, `Table.ofSource_append`: each change by itself
- `Table.layout_immaterial`: what the three changes do to the table and to the errors
-/

namespace SingleTape

/-! ## Line ends -/

namespace Text

/-- The text with a carriage return before every line feed. -/
def crlf (cs : List Char) : List Char :=
  cs.flatMap fun c => if c = '\n' then ['\r', '\n'] else [c]

/-- The text consists of whole lines: it is empty or its last character is a line feed. -/
def IsWholeLines (cs : List Char) : Prop :=
  cs = [] ∨ cs.getLast? = some '\n'

instance (cs : List Char) : Decidable (IsWholeLines cs) :=
  inferInstanceAs (Decidable (_ ∨ _))

/-- What follows a line: the end of the text, or a line end and further text. -/
def EndsLine (cs : List Char) : Prop :=
  cs = [] ∨ ∃ rest, cs = '\n' :: rest ∨ cs = '\r' :: '\n' :: rest

/-- A character that begins no line end belongs to the first line. -/
theorem lines_cons {c : Char} {cs : List Char} (hfeed : c ≠ '\n')
    (hreturn : c = '\r' → cs.head? ≠ some '\n') :
    lines (c :: cs) = (c :: (lines cs).headD []) :: (lines cs).tail := by
  rw [lines]
  · cases lines cs <;> rfl
  · exact hfeed
  · rintro cs' rfl rfl
    exact hreturn rfl rfl

/-- The first line ends at the first line feed, or at the carriage return before it. -/
theorem exists_lines_append_lineFeed {line : List Char} (h : '\n' ∉ line) (rest : List Char) :
    ∃ first, lines (line ++ '\n' :: rest) = first :: lines rest ∧
      (line = first ∨ line = first ++ ['\r']) := by
  induction line with
  | nil => exact ⟨[], rfl, .inl rfl⟩
  | cons c line ih =>
    rw [List.mem_cons, not_or] at h
    by_cases hend : c = '\r' ∧ line = []
    · obtain ⟨rfl, rfl⟩ := hend
      exact ⟨[], rfl, .inr rfl⟩
    · obtain ⟨first, hlines, hfirst⟩ := ih h.2
      -- what follows `c` is no line feed, unless `line` is empty and `c` no carriage return
      have hreturn : c = '\r' → (line ++ '\n' :: rest).head? ≠ some '\n' := by
        intro hc hhead
        cases line with
        | nil => exact hend ⟨hc, rfl⟩
        | cons d line =>
          rw [List.cons_append, List.head?_cons, Option.some.injEq] at hhead
          exact h.2 (hhead ▸ List.mem_cons_self)
      refine ⟨c :: first, ?_, ?_⟩
      · rw [List.cons_append, lines_cons (Ne.symm h.1) hreturn, hlines]
        rfl
      · exact hfirst.imp (congrArg (c :: ·)) (congrArg (c :: ·))

/-- A text without line feeds is one line. -/
theorem lines_of_not_mem {line : List Char} (h : '\n' ∉ line) (hne : line ≠ []) :
    lines line = [line] := by
  induction line with
  | nil => exact absurd rfl hne
  | cons c line ih =>
    rw [List.mem_cons, not_or] at h
    have hreturn : line.head? ≠ some '\n' := fun hhead => h.2 (List.mem_of_head? hhead)
    rw [lines_cons (Ne.symm h.1) fun _ => hreturn]
    by_cases hnil : line = []
    · subst hnil
      rfl
    · rw [ih h.2 hnil]
      rfl

/-- Induction along the line ends of a text, with one case for all that is no line end. -/
@[elab_as_elim]
theorem lines_induction {motive : List Char → Prop} (nil : motive [])
    (feed : ∀ cs, motive cs → motive ('\n' :: cs))
    (returnFeed : ∀ cs, motive cs → motive ('\r' :: '\n' :: cs))
    (cons : ∀ c cs, c ≠ '\n' → (c = '\r' → cs.head? ≠ some '\n') → motive cs → motive (c :: cs))
    (cs : List Char) : motive cs := by
  have hcons : ∀ c cs, (c = '\n' → False) → (∀ cs', c = '\r' → cs = '\n' :: cs' → False) →
      motive cs → motive (c :: cs) := by
    intro c cs hfeed hreturn ih
    refine cons c cs hfeed (fun hc hhead => ?_) ih
    obtain ⟨cs', rfl⟩ := List.head?_eq_some_iff.mp hhead
    exact hreturn cs' hc rfl
  fun_induction lines cs with
  | case1 => exact nil
  | case2 cs ih => exact feed cs ih
  | case3 cs ih => exact returnFeed cs ih
  | case4 c cs hfeed hreturn _ ih => exact hcons c cs hfeed hreturn ih
  | case5 c cs hfeed hreturn _ _ _ ih => exact hcons c cs hfeed hreturn ih

theorem lines_ne_nil {cs : List Char} (h : cs ≠ []) : lines cs ≠ [] := by
  cases cs using lines_induction with
  | nil => exact absurd rfl h
  | feed cs => simp
  | returnFeed cs => simp [lines]
  | cons c cs hfeed hreturn => simp [lines_cons hfeed hreturn]

theorem IsWholeLines.of_cons {c : Char} {cs : List Char} (h : IsWholeLines (c :: cs)) :
    IsWholeLines cs := by
  by_cases hcs : cs = []
  · exact .inl hcs
  · rcases h with h | h
    · cases h
    · rw [List.getLast?_cons_of_ne_nil hcs] at h
      exact .inr h

/-- The lines of whole lines and of what follows them are kept apart. -/
theorem lines_append {before : List Char} (h : IsWholeLines before) (after : List Char) :
    lines (before ++ after) = lines before ++ lines after := by
  induction before using lines_induction with
  | nil => rfl
  | feed cs ih =>
    rw [List.cons_append, lines_lineFeed, lines_lineFeed, ih h.of_cons, List.cons_append]
  | returnFeed cs ih =>
    show [] :: lines (cs ++ after) = [] :: lines cs ++ lines after
    rw [ih h.of_cons.of_cons, List.cons_append]
  | cons c cs hfeed hreturn ih =>
    -- whole lines do not end with `c`, so the line goes on in `cs`
    have hne : cs ≠ [] := by
      rintro rfl
      simp [IsWholeLines, hfeed] at h
    have hreturn' : c = '\r' → (cs ++ after).head? ≠ some '\n' := by
      rw [List.head?_append_of_ne_nil cs hne]
      exact hreturn
    obtain ⟨line, rest, hlines⟩ := List.exists_cons_of_ne_nil (lines_ne_nil hne)
    rw [List.cons_append, lines_cons hfeed hreturn', lines_cons hfeed hreturn, ih h.of_cons, hlines]
    rfl

/-! ## The other line ends -/

theorem crlf_cons (c : Char) (cs : List Char) :
    crlf (c :: cs) = (if c = '\n' then ['\r', '\n'] else [c]) ++ crlf cs := rfl

/-- A line feed is never the first character then. -/
theorem head?_crlf_ne (cs : List Char) : (crlf cs).head? ≠ some '\n' := by
  cases cs with
  | nil => simp [crlf]
  | cons c cs =>
    rw [crlf_cons]
    by_cases hc : c = '\n'
    · simp [hc]
    · simp [hc]

/-- A line keeps its text under the other line ends, or it gets back the carriage return that was
taken for a part of the line end. -/
theorem forall₂_lines_crlf (cs : List Char) :
    List.Forall₂ (fun line line' => line' = line ∨ line' = line ++ ['\r'])
      (lines cs) (lines (crlf cs)) := by
  induction cs using lines_induction with
  | nil => exact .nil
  | feed cs ih => exact .cons (.inl rfl) ih
  | returnFeed cs ih => exact .cons (.inr rfl) ih
  | cons c cs hfeed hreturn ih =>
    rw [crlf_cons, if_neg hfeed, List.singleton_append, lines_cons hfeed hreturn,
      lines_cons hfeed fun _ => head?_crlf_ne cs]
    generalize lines cs = texts at ih ⊢
    generalize lines (crlf cs) = texts' at ih ⊢
    cases ih with
    | nil => exact .cons (.inl rfl) .nil
    | cons hline hrest => exact .cons (hline.imp (congrArg (c :: ·)) (congrArg (c :: ·))) hrest

end Text

/-! ## What the changes do to the statements -/

namespace Line

/-- A carriage return at the end of a line is white space. -/
theorem parse?_append_return (line : List Char) : parse? (line ++ ['\r']) = parse? line := by
  apply parse?_append_whiteSpace
  intro c hc
  rw [List.mem_singleton.mp hc]
  rfl

end Line

namespace Program

/-- The other line ends are not noticed. -/
theorem statements_crlf (n : Nat) (source : List Char) :
    statements n (Text.lines (Text.crlf source)) = statements n (Text.lines source) := by
  symm
  apply statements_congr
  refine (Text.forall₂_lines_crlf source).imp ?_
  rintro line line' (rfl | rfl)
  · rfl
  · exact (Line.parse?_append_return line).symm

/-- A line that stands before a line feed states what it says, although a carriage return at its
end is taken for a part of the line end. -/
theorem statements_lineFeed {line : List Char} (h : '\n' ∉ line) (n : Nat)
    (rest : List Char) :
    statements n (Text.lines (line ++ '\n' :: rest)) = statements n (line :: Text.lines rest) := by
  obtain ⟨first, hlines, hfirst⟩ := Text.exists_lines_append_lineFeed h rest
  have hparse : Line.parse? line = Line.parse? first := by
    rcases hfirst with rfl | rfl
    · rfl
    · exact Line.parse?_append_return first
  rw [hlines, statements_cons_congr hparse]

/-- A line states what it says, and what follows its end states the rest, whatever the line is. -/
theorem exists_statements_endsLine {after : List Char} (h : Text.EndsLine after) :
    ∃ rest, ∀ line n, '\n' ∉ line →
      statements n (Text.lines (line ++ after)) = statements n (line :: rest) := by
  rcases h with rfl | ⟨rest, rfl | rfl⟩
  · refine ⟨[], fun line n hline => ?_⟩
    rw [List.append_nil]
    by_cases hnil : line = []
    · -- the end of the text opens no line, and an empty line would say nothing
      subst hnil
      rfl
    · rw [Text.lines_of_not_mem hline hnil]
  · exact ⟨Text.lines rest, fun line n hline => statements_lineFeed hline n rest⟩
  · refine ⟨Text.lines rest, fun line n hline => ?_⟩
    have hreturn : '\n' ∉ line ++ ['\r'] := by
      simp [hline]
    rw [show line ++ '\r' :: '\n' :: rest = (line ++ ['\r']) ++ '\n' :: rest by simp,
      statements_lineFeed hreturn, statements_cons_congr (Line.parse?_append_return line)]

/-- Blank lines that are put among others leave the statements as they are, but for the numbers of
the lines after them. -/
theorem statements_insert {before blanks after : List (List Char)} (n : Nat)
    (h : ∀ text ∈ blanks, Line.parse? text = some .blank) :
    statements n (before ++ blanks ++ after) =
      (statements n (before ++ after)).map
        (·.renumber fun i => if i < n + before.length then i else i + blanks.length) := by
  have hbefore : ∀ s ∈ statements n before,
      s.renumber (fun i => if i < n + before.length then i else i + blanks.length) = s := by
    intro s hs
    have hlt := (line_bounds_of_mem_statements hs).2
    simp only [Statement.renumber, hlt, ↓reduceIte]
  have hafter : ∀ s ∈ statements (n + before.length) after,
      s.renumber (fun i => if i < n + before.length then i else i + blanks.length) =
        s.renumber (· + blanks.length) := by
    intro s hs
    have hle := (line_bounds_of_mem_statements hs).1
    simp only [Statement.renumber, show ¬s.line < n + before.length by omega, ↓reduceIte]
  rw [statements_append, statements_append, statements_append, List.map_append,
    statements_of_blank h, List.append_nil, List.map_congr_left hbefore, List.map_id',
    List.map_congr_left hafter, ← statements_add, List.length_append, Nat.add_assoc]

end Program

/-! ## What the changes do to the table -/

namespace Table

open Program

/-- The other line ends change nothing. -/
theorem ofSource_crlf (source : List Char) : ofSource (Text.crlf source) = ofSource source := by
  rw [ofSource_eq_ofStatements, ofSource_eq_ofStatements, statements_crlf]

section Changed

variable {before line extra after : List Char}

/-- A blank line or a comment between lines changes nothing but the numbers of the lines after it. -/
theorem ofSource_insert (hbefore : Text.IsWholeLines before) (hline : '\n' ∉ line)
    (hblank : Line.IsTail line) :
    ofSource (before ++ line ++ '\n' :: after) =
      (ofSource (before ++ after)).mapError
        (·.renumber fun n => if n ≤ (Text.lines before).length then n else n + 1) := by
  -- the inserted line is one line, whatever is before its line feed
  have hwith : statements 1 (Text.lines (before ++ line ++ '\n' :: after)) =
      statements 1 (Text.lines before ++ [line] ++ Text.lines after) := by
    rw [List.append_assoc, List.append_assoc, Text.lines_append hbefore, statements_append,
      statements_lineFeed hline, statements_append, List.singleton_append]
  have hblanks : ∀ text ∈ [line], Line.parse? text = some .blank := by
    simpa using Line.parse?_of_form (.blank hblank)
  have hnumber : ∀ n, n < 1 + (Text.lines before).length ↔ n ≤ (Text.lines before).length := by
    omega
  rw [ofSource_eq_ofStatements, ofSource_eq_ofStatements, hwith, statements_insert 1 hblanks,
    Text.lines_append hbefore, ofStatements_renumber]
  simp only [hnumber, List.length_singleton]

/-- White space and a comment at the end of a line that can be read change nothing. -/
theorem ofSource_append (hbefore : Text.IsWholeLines before) (hline : '\n' ∉ line)
    (hparse : (Line.parse? line).isSome = true) (hextra : '\n' ∉ extra)
    (htail : Line.IsTail extra) (hafter : Text.EndsLine after) :
    ofSource (before ++ line ++ extra ++ after) = ofSource (before ++ line ++ after) := by
  obtain ⟨rest, hrest⟩ := exists_statements_endsLine hafter
  have hboth : '\n' ∉ line ++ extra := by
    simp [hline, hextra]
  have hsame := Line.parse?_append_of_isTail hparse htail
  have hstatements : ∀ n, statements n (Text.lines (line ++ extra ++ after)) =
      statements n (Text.lines (line ++ after)) := by
    intro n
    rw [hrest _ n hboth, hrest _ n hline, statements_cons_congr hsame]
  rw [ofSource_eq_ofStatements, ofSource_eq_ofStatements, List.append_assoc before,
    List.append_assoc before, List.append_assoc before, Text.lines_append hbefore,
    Text.lines_append hbefore, statements_append, statements_append, hstatements]

end Changed

/-- **Layout.** Line ends, blank lines and comments have no meaning.  With a carriage return before
every line feed, a text defines the same table or is refused for the same cause on the same line.  If
a blank line or a comment is put before a line, the same holds except that this line and those after
it count one further.  And white space and a comment after a line that can be read change nothing. -/
theorem layout_immaterial :
    (∀ source, ofSource (Text.crlf source) = ofSource source) ∧
    (∀ before line after, Text.IsWholeLines before → '\n' ∉ line → Line.IsTail line →
      ofSource (before ++ line ++ '\n' :: after) =
        (ofSource (before ++ after)).mapError
          (·.renumber fun n => if n ≤ (Text.lines before).length then n else n + 1)) ∧
    (∀ before line extra after, Text.IsWholeLines before → '\n' ∉ line →
      (Line.parse? line).isSome = true → '\n' ∉ extra → Line.IsTail extra → Text.EndsLine after →
      ofSource (before ++ line ++ extra ++ after) = ofSource (before ++ line ++ after)) := by
  refine ⟨ofSource_crlf, ?_, ?_⟩
  · intro before line after hbefore hline hblank
    exact ofSource_insert hbefore hline hblank
  · intro before line extra after hbefore hline hparse hextra htail hafter
    exact ofSource_append hbefore hline hparse hextra htail hafter

/-- Of three changes to a text that is refused, the inserted comment alone moves the line that is
blamed: without it the error is in line 2.  The comment at the end of that line follows a rule
directly, and `#` is a symbol in it as well. -/
theorem layout_immaterial_commented :
    ofSource (Text.crlf "1,# 2,a\r\n\t# next\n2,# 3,b#!\r\n".toList) =
      .error (.undefinedState ⟨"3"⟩ 3) := by
  obtain ⟨hends, hinsert, happend⟩ := layout_immaterial
  have hbase : ofSource "1,# 2,a\r\n2,# 3,b\r\n".toList = .error (.undefinedState ⟨"3"⟩ 2) := by
    decide +kernel
  have hwhole : Text.IsWholeLines "1,# 2,a\r\n".toList := by
    decide
  have hcomment := happend "1,# 2,a\r\n".toList "2,# 3,b".toList "#!".toList "\r\n".toList hwhole
    (by decide) (by decide) (by decide) (Line.isRest_iff.mp (by decide)) (.inr ⟨[], .inr rfl⟩)
  have hnext := hinsert "1,# 2,a\r\n".toList "\t# next".toList "2,# 3,b#!\r\n".toList hwhole
    (by decide) (Line.isRest_iff.mp (by decide))
  calc ofSource (Text.crlf "1,# 2,a\r\n\t# next\n2,# 3,b#!\r\n".toList)
    _ = ofSource "1,# 2,a\r\n\t# next\n2,# 3,b#!\r\n".toList := hends _
    _ = (ofSource "1,# 2,a\r\n2,# 3,b#!\r\n".toList).mapError
          (·.renumber fun n => if n ≤ 1 then n else n + 1) := hnext
    _ = .error (.undefinedState ⟨"3"⟩ 3) := by
      rw [show ofSource "1,# 2,a\r\n2,# 3,b#!\r\n".toList = _ from hcomment.trans hbase]
      rfl

end Table

end SingleTape
