import Std.Data.ExtTreeSet
import SingleTape.Error
import SingleTape.Program
import SingleTape.Program.Line
import SingleTape.Table.Check
import SingleTape.Text

/-!
# From program text to programs

Lines are read one after the other, and the first bad line ends the reading: a line is bad if it
is malformed, if it gives a rule to the halt state, or if it gives a second rule to a state and
a symbol.  The finished table is then checked as a whole: of the lines that lead to a state only
the first one is kept in mind for that.

The place of the initial tape is entered as a decimal numeral.  White space around it does not
matter, no numeral at all means the origin, and a number that is no position is refused.
-/

namespace SingleTape

/-! ## Program texts -/

/-- Adds the rules of the given lines to a table; the lines are numbered from `n` on.  A state to
which a rule leads is listed with the number of the first such line, unless it is known already. -/
def Table.addLines (t : Table) (known : Std.ExtTreeSet StateId) (n : Nat) :
    List (List Char) → Except Error (Table × List Reference)
  | [] => .ok (t, [])
  | text :: rest =>
    match Line.parse? text with
    | none => .error (.malformedLine n)
    | some .blank => t.addLines known (n + 1) rest
    | some (.rule r) =>
      if r.source.isHalt then .error (.ruleForHalt n)
      else match t.insertNew? r.source r.read r.rule with
        | none => .error (.duplicateRule n)
        | some t =>
          match t.addLines (known.insert r.target) (n + 1) rest with
          | .error e => .error e
          | .ok (t, references) =>
            .ok (t, if r.target ∈ known then references else ⟨r.target, n⟩ :: references)

/-- The table that a program text defines. -/
def Table.ofSource (source : List Char) : Except Error Table := do
  let (t, references) ← Table.empty.addLines ∅ 1 (Text.lines source)
  t.check references
  return t

/-! ## The place of the initial tape -/

/-- The position that a text denotes. -/
def Position.parse (text : String) : Except Error Position :=
  match Text.trim text.toList with
  | [] => .ok .origin
  | cs =>
    match (Text.ofSigned? cs).bind Position.ofInt? with
    | some p => .ok p
    | none => .error (.invalidOffset text)

namespace Program

/-- Tells whether a tape of the given length, placed at `offset`, ends on a position. -/
def fits (offset : Position) (length : Nat) : Bool :=
  (offset.move? (length - 1 : Nat)).isSome

/-- The program that a text defines, on an initial tape placed at `offset`. -/
def compile (source tape : String) (offset : Position) : Except Error Program := do
  if !fits offset tape.length then
    throw (.invalidOffset (String.ofList (Text.signed offset.val)))
  let table ← Table.ofSource source.toList
  return ⟨table, tape, offset⟩

end Program

end SingleTape
