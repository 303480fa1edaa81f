import Mathlib.Data.List.DropRight
import SingleTape.Program.Compile
import SingleTape.Proofs.Program.LineFormat

/-!
# The grammar of a line

The format of a line is laid down by a grammar of parsing expressions.  Such a grammar is not read
as a set of texts: its parts are matched from left to right, of two choices the first that matches
is taken, a repetition takes as much as it can, and nothing that was taken is given back when a
later part fails.  So it may refuse a text that could be cut into the right parts.

`Peg` is the part of that notation which the grammar uses, and `Line.Grammar.line` is the grammar.
The reader `Line.parse?` does exactly what the grammar says, and the grammar loses nothing: it
accepts every text in the format `Line.Form`, which knows no order of matching.

## Key results

- `Line.parse?_eq_match?`: the reader follows the grammar
- `Line.reading_exact`: what is accepted is the declarative format, cut in the only way there is
-/

namespace SingleTape

/-- A parsing expression. -/
inductive Peg where
  /-- One character of a class. -/
  | one (p : Char → Bool)
  /-- Characters of a class, as many as there are. -/
  | many (p : Char → Bool)
  /-- The one, then the other. -/
  | seq (a b : Peg)
  /-- The other only where the one does not match. -/
  | orElse (a b : Peg)
  /-- The expression where it matches, and nothing where it does not. -/
  | opt (a : Peg)
  /-- Nothing, but only where the expression does not match. -/
  | absent (a : Peg)
  /-- The end of the text. -/
  | finish
  /-- The expression, whose text is reported. -/
  | token (a : Peg)

namespace Peg

/-- Matches an expression at the front of a text: the reported texts in their order, and the text
that is left.  No result is ever revised. -/
def match? : Peg → List Char → Option (List (List Char) × List Char)
  | one _, [] => none
  | one p, c :: cs => if p c then some ([], cs) else none
  | many p, cs => some ([], cs.dropWhile p)
  | seq a b, cs =>
    (a.match? cs).bind fun m => (b.match? m.2).map fun m' => (m.1 ++ m'.1, m'.2)
  | orElse a b, cs => (a.match? cs).or (b.match? cs)
  | opt a, cs => some ((a.match? cs).getD ([], cs))
  | absent a, cs => if (a.match? cs).isSome then none else some ([], cs)
  | finish, cs => if cs = [] then some ([], []) else none
  | token a, cs => (a.match? cs).map fun m => ([cs.take (cs.length - m.2.length)], m.2)

/-- The given character. -/
def char (c : Char) : Peg :=
  one (· = c)

section Match

variable (p : Char → Bool) (a b : Peg) (c : Char) (cs : List Char)

@[simp] theorem match?_one_nil : (one p).match? [] = none := rfl

@[simp] theorem match?_one_cons :
    (one p).match? (c :: cs) = if p c then some ([], cs) else none := rfl

@[simp] theorem match?_many : (many p).match? cs = some ([], cs.dropWhile p) := rfl

@[simp] theorem match?_seq : (seq a b).match? cs =
    (a.match? cs).bind fun m => (b.match? m.2).map fun m' => (m.1 ++ m'.1, m'.2) := rfl

@[simp] theorem match?_orElse : (orElse a b).match? cs = (a.match? cs).or (b.match? cs) := rfl

@[simp] theorem match?_opt : (opt a).match? cs = some ((a.match? cs).getD ([], cs)) := rfl

@[simp] theorem match?_absent :
    (absent a).match? cs = if (a.match? cs).isSome then none else some ([], cs) := rfl

@[simp] theorem match?_finish : finish.match? cs = if cs = [] then some ([], []) else none := rfl

@[simp] theorem match?_token : (token a).match? cs =
    (a.match? cs).map fun m => ([cs.take (cs.length - m.2.length)], m.2) := rfl

end Match

end Peg

namespace Line

open Peg

/-! ## The grammar -/

namespace Grammar

/-- One to three letters or digits. -/
def state : Peg :=
  token (seq (one Char.isAlphanum) (seq (opt (one Char.isAlphanum)) (opt (one Char.isAlphanum))))

/-- Any character but a comma or white space. -/
def symbol : Peg :=
  token (seq (.absent (orElse (char ',') (one Text.isWhiteSpace))) (one fun _ => true))

/-- One of the three markers. -/
def direction : Peg :=
  token (orElse (char '<') (orElse (char '_') (char '>')))

/-- A number sign and the rest of the line. -/
def comment : Peg :=
  seq (char '#') (many fun _ => true)

/-- A state and a symbol, divided by a comma. -/
def pair : Peg :=
  seq state (seq (char ',') symbol)

/-- A rule. -/
def command : Peg :=
  seq pair (seq (seq (char ' ') (many (· = ' '))) (seq pair (opt (seq (opt (char ',')) direction))))

/-- A whole line. -/
def line : Peg :=
  seq (many Text.isWhiteSpace) (seq (opt command) (seq (many Text.isWhiteSpace)
    (seq (opt comment) finish)))

end Grammar

/-- What the reported texts of a line say: nothing, or the four parts of a rule and perhaps a
marker. -/
def ofTokens? : List (List Char) → Option Line
  | [] => some .blank
  | [state, [read], next, [write]] => some (.rule ⟨state, read, next, write, none⟩)
  | [state, [read], next, [write], marker] =>
    (Direction.ofText? marker).map fun d => .rule ⟨state, read, next, write, some d⟩
  | _ => none

/-! ## The reader follows the grammar -/

private theorem match?_char (c : Char) (cs : List Char) :
    (char c).match? cs = (expect? c cs).map fun rest => ([], rest) := by
  cases cs with
  | nil => rfl
  | cons d cs =>
    by_cases hd : d = c <;> simp [char, expect?, hd]

private theorem match?_state (cs : List Char) :
    Grammar.state.match? cs = (takeName? cs).map fun m => ([m.1], m.2) := by
  -- three characters are looked at, and each of them is a letter or digit or ends the name
  match cs with
  | [] => rfl
  | [a] =>
    cases ha : a.isAlphanum <;> simp [Grammar.state, takeName?, ha]
  | [a, b] =>
    cases ha : a.isAlphanum <;> cases hb : b.isAlphanum <;>
      simp [Grammar.state, takeName?, ha, hb]
  | a :: b :: c :: cs =>
    have hlen : cs.length + 1 + 1 + 1 - cs.length = 3 := by omega
    cases ha : a.isAlphanum <;> cases hb : b.isAlphanum <;> cases hc : c.isAlphanum <;>
      simp [Grammar.state, takeName?, ha, hb, hc, hlen]

private theorem match?_symbol (cs : List Char) :
    Grammar.symbol.match? cs = (takeSymbol? cs).map fun m => ([[m.1]], m.2) := by
  cases cs with
  | nil => rfl
  | cons c cs =>
    by_cases hcomma : c = ',' <;> cases hspace : Text.isWhiteSpace c <;>
      simp [Grammar.symbol, char, takeSymbol?, isSymbol, hcomma, hspace]

private theorem match?_pair (cs : List Char) :
    Grammar.pair.match? cs = (takePair? cs).map fun m => ([m.1, [m.2.1]], m.2.2) := by
  simp only [Grammar.pair, match?_seq, match?_state, match?_char, match?_symbol, takePair?]
  cases takeName? cs with
  | none => rfl
  | some m =>
    cases hcomma : expect? ',' m.2 with
    | none => simp [hcomma]
    | some cs =>
      cases hsymbol : takeSymbol? cs <;> simp [hcomma, hsymbol]

private theorem match?_spaces (cs : List Char) :
    (seq (char ' ') (many (· = ' '))).match? cs = (takeSpaces? cs).map fun rest => ([], rest) := by
  simp only [match?_seq, match?_many, match?_char, takeSpaces?]
  cases expect? ' ' cs <;> simp

/-- How a movement is reported. -/
private def markTokens (d : Option Direction) : List (List Char) :=
  (d.map fun d => [d.marker]).toList

/-- How a rule is reported. -/
private def ruleTokens (r : RuleText) : List (List Char) :=
  [r.state, [r.read], r.next, [r.write]] ++ markTokens r.direction

private theorem ofTokens?_ruleTokens (r : RuleText) :
    ofTokens? (ruleTokens r) = some (.rule r) := by
  obtain ⟨state, read, next, write, direction⟩ := r
  cases direction with
  | none => rfl
  | some d => cases d <;> rfl

private theorem match?_direction (c : Char) (cs : List Char) :
    Grammar.direction.match? (c :: cs) =
      (Direction.ofMarker? c).map fun d => ([[d.marker]], cs) := by
  by_cases hleft : c = '<'
  · simp [Grammar.direction, char, Direction.ofMarker?, Direction.marker, hleft]
  · by_cases hstay : c = '_'
    · simp [Grammar.direction, char, Direction.ofMarker?, Direction.marker, hstay]
    · by_cases hright : c = '>'
      · simp [Grammar.direction, char, Direction.ofMarker?, Direction.marker, hright]
      · simp [Grammar.direction, char, Direction.ofMarker?, hleft, hstay, hright]

private theorem match?_mark (cs : List Char) :
    (opt (seq (opt (char ',')) Grammar.direction)).match? cs =
      some (markTokens (takeDirection cs).1, (takeDirection cs).2) := by
  have hnil : Grammar.direction.match? [] = none := rfl
  simp only [match?_opt, match?_seq, match?_char, takeDirection]
  -- the comma is optional, but it is not given back for what follows it
  have hafter : (((expect? ',' cs).map fun rest => (([] : List (List Char)), rest)).getD ([], cs))
      = ([], (expect? ',' cs).getD cs) := by
    cases expect? ',' cs <;> rfl
  rw [hafter]
  cases hcs : (expect? ',' cs).getD cs with
  | nil => simp [hnil, markTokens]
  | cons c rest =>
    cases hd : Direction.ofMarker? c <;> simp [match?_direction, hd, markTokens]

private theorem match?_command (cs : List Char) :
    Grammar.command.match? cs = (takeRule? cs).map fun m => (ruleTokens m.1, m.2) := by
  rw [Grammar.command, match?_seq, match?_pair, takeRule?]
  cases takePair? cs with
  | none => rfl
  | some first =>
    simp only [Option.map_some, Option.bind_some, Option.bind_eq_bind]
    rw [match?_seq, match?_spaces]
    cases takeSpaces? first.2.2 with
    | none => rfl
    | some cs =>
      simp only [Option.map_some, Option.bind_some]
      rw [match?_seq, match?_pair]
      cases takePair? cs with
      | none => rfl
      | some second =>
        rw [Option.map_some, Option.bind_some, match?_mark]
        simp [ruleTokens]

/-- A comment takes all that is left. -/
private theorem match?_comment (cs : List Char) :
    Grammar.comment.match? cs = (expect? '#' cs).map fun _ => ([], []) := by
  rw [Grammar.comment, match?_seq, match?_char]
  cases expect? '#' cs with
  | none => rfl
  | some rest =>
    have hall : rest.dropWhile (fun _ => true) = [] := List.dropWhile_eq_nil_iff.mpr (by simp)
    simp [hall]

/-- What is left of a line must be white space and perhaps a comment. -/
private theorem match?_rest (cs : List Char) :
    (seq (many Text.isWhiteSpace) (seq (opt Grammar.comment) finish)).match? cs =
      if isRest cs then some ([], []) else none := by
  rw [match?_seq, match?_many, Option.bind_some, isRest, Text.trimStart]
  generalize cs.dropWhile Text.isWhiteSpace = rest
  simp only [match?_seq, match?_opt, match?_finish, match?_comment]
  cases rest with
  | nil => rfl
  | cons c rest =>
    by_cases hc : c = '#' <;> simp [expect?, hc]

/-- The reader follows the grammar. -/
theorem parse?_eq_match? (cs : List Char) :
    parse? cs = (Grammar.line.match? cs).bind fun m => ofTokens? m.1 := by
  -- where no rule is found, the white space is gone over a second time
  have htrim : isRest (Text.trimStart cs) = isRest cs := by
    have hidem : Text.trimStart (Text.trimStart cs) = Text.trimStart cs :=
      List.dropWhile_idempotent _ cs
    rw [isRest, isRest, hidem]
  have hcommand : (opt Grammar.command).match? (Text.trimStart cs) =
      some (((takeRule? (Text.trimStart cs)).map fun m => (ruleTokens m.1, m.2)).getD
        ([], Text.trimStart cs)) := by
    rw [match?_opt, match?_command]
  rw [parse?, Grammar.line, match?_seq, match?_many, Option.bind_some, match?_seq,
    ← Text.trimStart, hcommand, Option.bind_some, match?_rest]
  cases takeRule? (Text.trimStart cs) with
  | none =>
    rw [Option.map_none, Option.getD_none, htrim]
    cases isRest cs <;> rfl
  | some m =>
    rw [Option.map_some, Option.getD_some]
    cases hrest : isRest m.2 <;> simp [hrest, ofTokens?_ruleTokens]

/-! ## The format of a line -/

/-- No line is refused with the number of a line before it. -/
private theorem le_of_addLines {t : Table} {known : Std.ExtTreeSet StateId} {n k : Nat}
    {texts : List (List Char)} (h : t.addLines known n texts = .error (.malformedLine k)) :
    n ≤ k := by
  induction texts generalizing t known n with
  | nil => cases h
  | cons text rest ih =>
    simp only [Table.addLines] at h
    split at h
    · cases h
      exact Nat.le_refl _
    · exact Nat.le_of_succ_le (ih h)
    · split at h
      · cases h
      · split at h
        · cases h
        · split at h
          · rename_i hrest
            cases h
            exact Nat.le_of_succ_le (ih hrest)
          · cases h

/-- A line is refused as malformed exactly if it is in no format, whatever was read before and
whatever follows. -/
private theorem addLines_eq_malformedLine_iff (t : Table) (known : Std.ExtTreeSet StateId) (n : Nat)
    (cs : List Char) (rest : List (List Char)) :
    t.addLines known n (cs :: rest) = .error (.malformedLine n) ↔ parse? cs = none := by
  constructor
  · intro h
    cases hline : parse? cs with
    | none => rfl
    | some line =>
      -- any later line has a greater number
      exfalso
      have hlater : ∀ (t' : Table) known',
          t'.addLines known' (n + 1) rest ≠ .error (.malformedLine n) := by
        intro t' known' hrest
        have := le_of_addLines hrest
        omega
      cases line with
      | blank =>
        simp only [Table.addLines, hline] at h
        exact hlater t known h
      | rule r =>
        simp only [Table.addLines, hline] at h
        split at h
        · cases h
        · split at h
          · cases h
          · rename_i t' _
            split at h
            · rename_i hrest
              cases h
              exact hlater t' _ hrest
            · cases h
  · intro hline
    simp only [Table.addLines, hline]

/-- A text without a rule is in the format of a line exactly if it is white space and perhaps a
comment. -/
private theorem form_blank_iff {cs : List Char} : Form cs .blank ↔ IsTail cs := by
  constructor
  · intro h
    cases h with
    | blank htail => exact htail
  · exact .blank

/-- **The format of a line.** Matching the grammar from left to right, without ever giving back
what was taken, accepts exactly the declarative format: a line is read as a rule if and only if it
can be cut into the parts of that rule, it is read as blank if and only if it is white space and
perhaps a comment, and it is refused as malformed, with its own number, if and only if it is
neither.  No line is both, and no line can be cut into the parts of a rule in two ways.  The rule
that is read belongs to the state that the first part names, and its right-hand side is made up of
the other parts, without a movement if none is marked. -/
theorem reading_exact (cs : List Char) :
    (parse? cs = (Grammar.line.match? cs).bind fun m => ofTokens? m.1) ∧
      (∀ r, parse? cs = some (.rule r) ↔ Form cs (.rule r)) ∧
      (parse? cs = some .blank ↔ IsTail cs) ∧
      (∀ (t : Table) known n rest, t.addLines known n (cs :: rest) = .error (.malformedLine n) ↔
        (¬∃ r, Form cs (.rule r)) ∧ ¬IsTail cs) ∧
      (¬∃ r, Form cs (.rule r) ∧ IsTail cs) ∧
      (∀ r r', Form cs (.rule r) → Form cs (.rule r') → r = r') ∧
      ∀ state read next write direction,
        Form cs (.rule ⟨state, read, next, write, direction⟩) →
          ∃ r, parse? cs = some (.rule r) ∧ r.source = .normalize state ∧ r.read = read ∧
            r.rule = ⟨write, direction.getD .stay, .normalize next⟩ := by
  refine ⟨parse?_eq_match? cs, fun r => parse?_eq_some_iff, ?_, ?_, ?_, ?_, ?_⟩
  · rw [parse?_eq_some_iff, form_blank_iff]
  · intro t known n rest
    rw [addLines_eq_malformedLine_iff, ← form_blank_iff, ← parse?_eq_some_iff]
    simp only [← parse?_eq_some_iff]
    cases hline : parse? cs with
    | none => simp
    | some line => cases line <;> simp
  · rintro ⟨r, hrule, htail⟩
    have hblank := parse?_of_form (.blank htail)
    rw [parse?_of_form hrule] at hblank
    cases hblank
  · intro r r' h h'
    have hline := (parse?_of_form h).symm.trans (parse?_of_form h')
    exact Line.rule.inj (Option.some.inj hline)
  · intro state read next write direction h
    exact ⟨_, parse?_of_form h, rfl, rfl, rfl⟩

/-- A line on which the symbols are a number sign and a marker, and a comment follows directly. -/
theorem reading_exact_crowded :
    Form "\t1,# 0h,>,>#,<".toList (.rule ⟨['1'], '#', ['0', 'h'], '>', some .right⟩) ∧
      ∃ r, parse? "\t1,# 0h,>,>#,<".toList = some (.rule r) ∧ r.source = .initial ∧ r.read = '#' ∧
        r.rule = ⟨'>', .right, .halt⟩ := by
  obtain ⟨-, hrule, -, -, -, -, hparts⟩ := reading_exact "\t1,# 0h,>,>#,<".toList
  have hform := (hrule ⟨['1'], '#', ['0', 'h'], '>', some .right⟩).mp (by decide)
  exact ⟨hform, hparts _ _ _ _ _ hform⟩

-- the write symbol comes first, so what looks like a marker may be one or the symbol itself
example : parse? "1,a H,_".toList = some (.rule ⟨['1'], 'a', ['H'], '_', none⟩) := by decide
example : parse? "1,a H,__".toList = some (.rule ⟨['1'], 'a', ['H'], '_', some .stay⟩) := by decide
example : parse? "1,a H,b,".toList = none := by decide

end Line

end SingleTape
