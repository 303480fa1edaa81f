import SingleTape.Position
import SingleTape.Symbol
import SingleTape.Table

/-!
# Programs

A program is a rule table together with the tape it starts on, so that a machine can return to
its beginning without the program text.
-/

namespace SingleTape

/-- A rule table with its initial tape. -/
@[ext]
structure Program where
  /-- The rules. -/
  table : Table
  /-- The initial content of the tape, one symbol a cell. -/
  initialTape : String
  /-- The cell of the first symbol of the initial tape, where the head starts. -/
  offset : Position
deriving DecidableEq

namespace Program

/-- The number of symbols on the initial tape, blanks of either kind not counted. -/
def initialSymbols (p : Program) : Nat :=
  p.initialTape.toList.countP fun c => c != Symbol.blank && c != Symbol.blankMark

end Program

end SingleTape
