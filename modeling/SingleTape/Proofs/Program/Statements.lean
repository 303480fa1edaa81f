import Mathlib.Data.List.Forall2
import SingleTape.Program.Compile

/-!
# The statements of a text

Of a line of program text the reader of programs uses two things: its number and what the line
says.  A line that says nothing is passed over, so a text counts only for its *statements*: the
lines that are not blank, in order, each with its number and with its rule, or without one if the
line is malformed.

The reader is stated a second time here, on statements, and shown to be the same.  On statements
it is plain that the numbers decide nothing: they are carried along until an error names one.  So
if the statements of two texts differ in their numbers alone, the texts define the same table, or
are refused for the same cause with the number replaced.

## Key results

- `Table.ofSource_eq_ofStatements`: the statements of a text decide what becomes of it
- `Table.ofStatements_renumber`: other numbers give the same table, or the same cause with another
  number
- `Program.statements_append`, `Program.statements_add`: the statements of lines after lines, and of
  lines that count from further on
-/

namespace SingleTape

/-- The error that names other lines: the line with number `n` is called `f n`. -/
def Error.renumber (f : Nat → Nat) : Error → Error
  | malformedLine n => malformedLine (f n)
  | ruleForHalt n => ruleForHalt (f n)
  | duplicateRule n => duplicateRule (f n)
  | undefinedState q n => undefinedState q (f n)
  | e => e

/-- The mention of a state on a line that is called `f n` instead of `n`. -/
def Reference.renumber (f : Nat → Nat) (r : Reference) : Reference :=
  { r with line := f r.line }

namespace Program

/-- A line that is not blank, as the reader takes it. -/
structure Statement where
  /-- The rule on the line, unless it is malformed. -/
  rule? : Option RuleText
  /-- The number of the line. -/
  line : Nat
deriving DecidableEq

/-- The statement with another number. -/
def Statement.renumber (f : Nat → Nat) (s : Statement) : Statement :=
  { s with line := f s.line }

/-- What a line states, if it is not blank. -/
def statement? (text : List Char) (n : Nat) : Option Statement :=
  match Line.parse? text with
  | none => some ⟨none, n⟩
  | some .blank => none
  | some (.rule r) => some ⟨some r, n⟩

/-- The statements on lines that are numbered from `n` on. -/
def statements (n : Nat) (texts : List (List Char)) : List Statement :=
  (texts.zipIdx n).filterMap fun line => statement? line.1 line.2

/-! ## Where statements stand -/

section Lines

variable {n : Nat} {text : List Char} {texts : List (List Char)} {s : Statement}

theorem statements_cons (n : Nat) (text : List Char) (rest : List (List Char)) :
    statements n (text :: rest) = (statement? text n).toList ++ statements (n + 1) rest := by
  simp only [statements, List.zipIdx_cons, List.filterMap_cons]
  cases statement? text n <;> rfl

theorem statements_append (n : Nat) (texts texts' : List (List Char)) :
    statements n (texts ++ texts') = statements n texts ++ statements (n + texts.length) texts' := by
  simp only [statements, List.zipIdx_append, List.filterMap_append]

/-- Blank lines are passed over. -/
theorem statements_of_blank (h : ∀ text ∈ texts, Line.parse? text = some .blank) (n : Nat) :
    statements n texts = [] := by
  induction texts generalizing n with
  | nil => rfl
  | cons text rest ih =>
    rw [List.forall_mem_cons] at h
    rw [statements_cons, ih h.2, statement?, h.1]
    rfl

theorem statement?_renumber (f : Nat → Nat) (text : List Char) (n : Nat) :
    statement? text (f n) = (statement? text n).map (·.renumber f) := by
  cases hparse : Line.parse? text with
  | none => simp only [statement?, hparse, Option.map_some, Statement.renumber]
  | some line => cases line <;> simp [statement?, hparse, Statement.renumber]

/-- Lines that count from further on state the same under greater numbers. -/
theorem statements_add (n k : Nat) (texts : List (List Char)) :
    statements (n + k) texts = (statements n texts).map (·.renumber (· + k)) := by
  induction texts generalizing n with
  | nil => rfl
  | cons text rest ih =>
    rw [statements_cons, statements_cons, List.map_append, ← ih (n + 1),
      show n + k + 1 = n + 1 + k by omega, statement?_renumber (· + k) text n]
    cases statement? text n <;> rfl

/-- Statements stand on the lines that there are. -/
theorem line_bounds_of_mem_statements (h : s ∈ statements n texts) :
    n ≤ s.line ∧ s.line < n + texts.length := by
  obtain ⟨⟨text, i⟩, hmem, hs⟩ := List.mem_filterMap.mp h
  have hline : s.line = i := by
    simp only [statement?] at hs
    split at hs
    · cases hs
      rfl
    · cases hs
    · cases hs
      rfl
  have hle := List.le_snd_of_mem_zipIdx hmem
  have hlt := List.snd_lt_add_of_mem_zipIdx hmem
  omega

/-- A line may be exchanged for one that is read alike. -/
theorem statements_cons_congr {text' : List Char} (h : Line.parse? text = Line.parse? text')
    (n : Nat) (rest : List (List Char)) :
    statements n (text :: rest) = statements n (text' :: rest) := by
  rw [statements_cons, statements_cons, statement?, statement?, h]

/-- Lines that are read alike, one by one, state the same. -/
theorem statements_congr {texts' : List (List Char)}
    (h : List.Forall₂ (fun text text' => Line.parse? text = Line.parse? text') texts texts')
    (n : Nat) : statements n texts = statements n texts' := by
  induction h generalizing n with
  | nil => rfl
  | cons hparse _ ih =>
    rw [statements_cons_congr hparse, statements_cons, statements_cons, ih]

end Lines

end Program

/-! ## Reading statements -/

namespace Table

open Program

/-- Adds the rules of statements to a table, as `addLines` does with the rules of lines. -/
def addStatements (t : Table) (known : Std.ExtTreeSet StateId) :
    List Statement → Except Error (Table × List Reference)
  | [] => .ok (t, [])
  | ⟨none, n⟩ :: _ => .error (.malformedLine n)
  | ⟨some r, n⟩ :: rest =>
    if r.source.isHalt then .error (.ruleForHalt n)
    else match t.insertNew? r.source r.read r.rule with
      | none => .error (.duplicateRule n)
      | some t =>
        match t.addStatements (known.insert r.target) rest with
        | .error e => .error e
        | .ok (t, references) =>
          .ok (t, if r.target ∈ known then references else ⟨r.target, n⟩ :: references)

/-- The table that statements define. -/
def ofStatements (statements : List Statement) : Except Error Table := do
  let (t, references) ← Table.empty.addStatements ∅ statements
  t.check references
  return t

/-- The reader takes nothing from lines but their statements. -/
theorem addLines_eq_addStatements (t : Table) (known : Std.ExtTreeSet StateId) (n : Nat)
    (texts : List (List Char)) :
    t.addLines known n texts = t.addStatements known (statements n texts) := by
  -- by induction on the lines, for every table and every number that the next line has
  induction texts generalizing t known n with
  | nil => rfl
  | cons text rest ih =>
    rw [statements_cons]
    cases hparse : Line.parse? text with
    | none => simp only [addLines, statement?, hparse, Option.toList_some, List.singleton_append,
        addStatements]
    | some line =>
      cases line with
      | blank =>
        -- no statement is added, but the number goes on
        simp only [addLines, statement?, hparse, Option.toList_none, List.nil_append]
        exact ih t known (n + 1)
      | rule r =>
        simp only [addLines, statement?, hparse, Option.toList_some, List.singleton_append,
          addStatements]
        by_cases hhalt : r.source.isHalt = true
        · rw [if_pos hhalt, if_pos hhalt]
        · rw [if_neg hhalt, if_neg hhalt]
          cases t.insertNew? r.source r.read r.rule with
          | none => rfl
          | some t' =>
            have hrest := ih t' (known.insert r.target) (n + 1)
            cases hread : t'.addStatements (known.insert r.target) (statements (n + 1) rest) <;>
              simp only [hrest, hread]

/-- The statements of a text decide what becomes of it. -/
theorem ofSource_eq_ofStatements (source : List Char) :
    ofSource source = ofStatements (statements 1 (Text.lines source)) := by
  rw [ofSource, ofStatements, addLines_eq_addStatements]

/-! ## Other numbers -/

/-- What is read from statements, with the lines called by other numbers. -/
private def renumberRead (f : Nat → Nat) :
    Except Error (Table × List Reference) → Except Error (Table × List Reference)
  | .error e => .error (e.renumber f)
  | .ok (t, references) => .ok (t, references.map (·.renumber f))

/-- The numbers of statements are carried along and decide nothing. -/
private theorem addStatements_renumber (f : Nat → Nat) (t : Table)
    (known : Std.ExtTreeSet StateId) (statements : List Statement) :
    t.addStatements known (statements.map (·.renumber f)) =
      renumberRead f (t.addStatements known statements) := by
  -- every branch is chosen by the rule of the statement, the table and what is known, never by the
  -- number
  induction statements generalizing t known with
  | nil => rfl
  | cons s rest ih =>
    obtain ⟨_ | r, n⟩ := s
    · rfl
    · show t.addStatements known (⟨some r, f n⟩ :: rest.map (·.renumber f)) = _
      simp only [addStatements]
      by_cases hhalt : r.source.isHalt = true
      · simp only [hhalt, ↓reduceIte, renumberRead, Error.renumber]
      · rw [if_neg hhalt, if_neg hhalt]
        cases t.insertNew? r.source r.read r.rule with
        | none => rfl
        | some t' =>
          simp only [ih t']
          cases t'.addStatements (known.insert r.target) rest with
          | error e => rfl
          | ok read =>
            by_cases hknown : r.target ∈ known <;> simp only [hknown, ↓reduceIte] <;> rfl

/-- The check goes by the states that are mentioned; it only passes the number on. -/
private theorem check_renumber (f : Nat → Nat) (t : Table) (references : List Reference) :
    t.check (references.map (·.renumber f)) = (t.check references).mapError (·.renumber f) := by
  have hfind : (references.map (·.renumber f)).find? (fun r => !t.accepts r.state) =
      (references.find? fun r => !t.accepts r.state).map (·.renumber f) :=
    List.find?_map
  simp only [check, hfind]
  by_cases hempty : t.isEmpty = true
  · simp only [hempty, ↓reduceIte]
    rfl
  · rw [if_neg hempty, if_neg hempty]
    cases references.find? fun r => !t.accepts r.state with
    | some r => rfl
    | none =>
      simp only [Option.map_none]
      by_cases hinitial : t.defines .initial = true
      · simp only [hinitial, ↓reduceIte]
        rfl
      · rw [if_neg hinitial]
        rfl

/-- Statements under other numbers define the same table, or are refused for the same cause with
the other number. -/
theorem ofStatements_renumber (f : Nat → Nat) (statements : List Statement) :
    ofStatements (statements.map (·.renumber f)) =
      (ofStatements statements).mapError (·.renumber f) := by
  simp only [ofStatements, addStatements_renumber]
  cases Table.empty.addStatements ∅ statements with
  | error e => rfl
  | ok read =>
    obtain ⟨t, references⟩ := read
    -- all statements were read; what is left is the check of the table
    show (do t.check (references.map (·.renumber f)); return t) =
      Except.mapError (·.renumber f) (do t.check references; return t)
    rw [check_renumber]
    cases t.check references <;> rfl

end Table

end SingleTape
