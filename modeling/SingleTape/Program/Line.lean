import SingleTape.Direction
import SingleTape.StateId
import SingleTape.Table
import SingleTape.Text

/-!
# Lines of program text

A line holds at most one rule, and after it an optional comment:

    state , read   next , write [[,] marker]   # comment

States are one to three letters or digits, symbols are single characters other than a comma or
white space, the two halves are separated by one or more spaces (U+0020), and the marker is `<`,
`_` or `>`.  White space of any kind may stand at either end of the line and before the comment.

The line is read from left to right, and each part takes as much as it can and gives nothing
back: a name takes up to three letters or digits even if the line cannot be completed then, and
the comma before a marker is taken only together with the marker.
-/

namespace SingleTape

/-- A rule as it is written. -/
@[ext]
structure RuleText where
  /-- The name of the state to which the rule belongs. -/
  state : List Char
  /-- The symbol under the head. -/
  read : Char
  /-- The name of the state that follows. -/
  next : List Char
  /-- The symbol written. -/
  write : Char
  /-- The movement, if one is marked. -/
  direction : Option Direction
deriving DecidableEq

namespace RuleText

/-- The state to which the rule belongs. -/
def source (r : RuleText) : StateId :=
  .normalize r.state

/-- The state that follows. -/
def target (r : RuleText) : StateId :=
  .normalize r.next

/-- The rule that is meant; a rule without a marker leaves the head where it is. -/
def rule (r : RuleText) : Rule :=
  ⟨r.write, r.direction.getD .stay, r.target⟩

end RuleText

/-- What a line of program text says. -/
inductive Line where
  /-- Nothing: the line is empty or only a comment. -/
  | blank
  /-- A rule. -/
  | rule (r : RuleText)
deriving DecidableEq

namespace Line

/-- Tells whether a character may stand for a symbol. -/
def isSymbol (c : Char) : Bool :=
  c != ',' && !Text.isWhiteSpace c

/-- Takes the given character off the front. -/
def expect? (c : Char) : List Char → Option (List Char)
  | [] => none
  | d :: cs => if d = c then some cs else none

/-- Takes the name of a state off the front: the longest run of up to three letters or digits. -/
def takeName? (cs : List Char) : Option (List Char × List Char) :=
  let name := (cs.take 3).takeWhile Char.isAlphanum
  if name = [] then none else some (name, cs.drop name.length)

/-- Takes a symbol off the front. -/
def takeSymbol? : List Char → Option (Char × List Char)
  | [] => none
  | c :: cs => if isSymbol c then some (c, cs) else none

/-- Takes one or more spaces off the front. -/
def takeSpaces? (cs : List Char) : Option (List Char) :=
  (expect? ' ' cs).map fun rest => rest.dropWhile (· = ' ')

/-- Takes a marker off the front, or a comma and a marker, or nothing. -/
def takeDirection (cs : List Char) : Option Direction × List Char :=
  let afterComma := (expect? ',' cs).getD cs
  match afterComma with
  | [] => (none, cs)
  | c :: rest =>
    match Direction.ofMarker? c with
    | none => (none, cs)
    | some d => (some d, rest)

/-- Takes a state and a symbol, divided by a comma, off the front. -/
def takePair? (cs : List Char) : Option (List Char × Char × List Char) := do
  let (name, cs) ← takeName? cs
  let cs ← expect? ',' cs
  let (symbol, cs) ← takeSymbol? cs
  return (name, symbol, cs)

/-- Takes a rule off the front. -/
def takeRule? (cs : List Char) : Option (RuleText × List Char) := do
  let (state, read, cs) ← takePair? cs
  let cs ← takeSpaces? cs
  let (next, write, cs) ← takePair? cs
  let (direction, cs) := takeDirection cs
  return (⟨state, read, next, write, direction⟩, cs)

/-- Tells whether nothing but white space and a comment is left. -/
def isRest (cs : List Char) : Bool :=
  match Text.trimStart cs with
  | [] => true
  | c :: _ => c = '#'

/-- Reads a line, which holds no line feed. -/
def parse? (cs : List Char) : Option Line :=
  match takeRule? (Text.trimStart cs) with
  | none => if isRest cs then some .blank else none
  | some (r, rest) => if isRest rest then some (.rule r) else none

end Line

end SingleTape
