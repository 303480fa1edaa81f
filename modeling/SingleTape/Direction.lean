/-!
# Head movements

After writing, the head moves at most one cell.  Program text marks the movement by one of the
characters `<`, `_` and `>`.
-/

namespace SingleTape

/-- A movement of the head. -/
inductive Direction where
  /-- One cell to the left. -/
  | left
  /-- No movement. -/
  | stay
  /-- One cell to the right. -/
  | right
deriving DecidableEq, Inhabited

namespace Direction

/-- The change of the head's position. -/
def offset : Direction → Int
  | left => -1
  | stay => 0
  | right => 1

/-- The character that marks the movement in program text. -/
def marker : Direction → Char
  | left => '<'
  | stay => '_'
  | right => '>'

/-- The movement that a character marks. -/
def ofMarker? (c : Char) : Option Direction :=
  if c = '<' then some left
  else if c = '_' then some stay
  else if c = '>' then some right
  else none

/-- The movement that a text marks: the text is one marker and nothing else. -/
def ofText? : List Char → Option Direction
  | [c] => ofMarker? c
  | _ => none

/-- A character marks a movement exactly if it is the movement's marker. -/
theorem ofMarker?_eq_some {c : Char} {d : Direction} : ofMarker? c = some d ↔ c = d.marker := by
  unfold ofMarker?
  cases d <;> grind [marker]

end Direction

end SingleTape
