import SingleTape.Json.Parser
import SingleTape.Json.Printer
import SingleTape.Json.Record
import SingleTape.Snapshot

/-!
# JSON forms

How tables, tapes, programs, snapshots and configurations are written as JSON and read back.

* A table is an object by state name, then by symbol.
* A tape has two sides: the cell `i` is `right[i]` for `0 ≤ i`, and `left[-1 - i]` for `i < 0`.
  Cells are keyed by their decimal number, without escapes and without leading zeros.
* Snapshots, programs, rules, tapes and configurations are records, see `Json.record?`.

State names are taken as they are.
-/

namespace SingleTape

/-! ## Names and movements -/

/-- The JSON form of a state name. -/
def StateId.toJson (q : StateId) : Json :=
  .text q.name

/-- Reads a state name. -/
def StateId.ofJson? (v : Json) : Option StateId :=
  v.text?.map StateId.mk

namespace Direction

/-- The name of a movement in JSON. -/
def name : Direction → String
  | left => "Left"
  | stay => "Stay"
  | right => "Right"

/-- The movement with the given name. -/
def ofName? (s : String) : Option Direction :=
  if s = "Left" then some left
  else if s = "Stay" then some stay
  else if s = "Right" then some right
  else none

/-- The JSON form of a movement. -/
def toJson (d : Direction) : Json :=
  .text d.name

/-- Reads a movement: its name, or an object whose only member has that name and is empty. -/
def ofJson? : Json → Option Direction
  | .obj [(name, .null)] => (Json.text? (.str name)).bind ofName?
  | v => v.text?.bind ofName?

end Direction

/-- Reads a position. -/
def Position.ofJson? (v : Json) : Option Position :=
  v.int?.bind Position.ofInt?

/-! ## Rules and tables -/

namespace Rule

/-- The members of a rule, in order. -/
def fieldNames : List String := ["write", "direction", "next_state"]

/-- The JSON form of a rule. -/
def toJson (r : Rule) : Json :=
  .object [("write", .char r.write), ("direction", r.direction.toJson),
    ("next_state", r.next.toJson)]

/-- Reads a rule. -/
def ofJson? (v : Json) : Option Rule := do
  let field ← v.record? fieldNames
  let write ← (← field "write").char?
  let direction ← Direction.ofJson? (← field "direction")
  let next ← StateId.ofJson? (← field "next_state")
  return ⟨write, direction, next⟩

end Rule

namespace Table

/-- The JSON form of the rules of one state. -/
def rulesToJson (rules : RuleMap) : Json :=
  .object (rules.toList.map fun (a, r) => (String.singleton a, r.toJson))

/-- The JSON form of a table. -/
def toJson (t : Table) : Json :=
  .object (t.rules.toList.map fun (q, rules) => (q.name, rulesToJson rules))

/-- Reads the rules of one state. -/
def rulesOfJson? (v : Json) : Option RuleMap := do
  let entries ← v.entries? (fun key => key.decode?.bind Json.onlyChar?) Rule.ofJson?
  return Std.ExtTreeMap.ofList entries compare

/-- Reads a table. -/
def ofJson? (v : Json) : Option Table := do
  let entries ← v.entries? (fun key => key.decode?.map fun cs => ⟨String.ofList cs⟩) rulesOfJson?
  return ⟨Std.ExtTreeMap.ofList entries compare⟩

end Table

/-! ## Tapes -/

namespace Tape

/-- The members of a tape, in order. -/
def fieldNames : List String := ["left", "right"]

/-- The cell with the given number on the left side. -/
def leftCell (i : UInt64) : Int :=
  -1 - i.toNat

/-- The tape with a cell of the left side written. -/
def writeLeft (t : Tape) (i : UInt64) (c : Char) : Tape :=
  t.writeCell (leftCell i) (by have := i.toNat_lt; unfold leftCell; omega) c

/-- The tape with a cell of the right side written. -/
def writeRight (t : Tape) (i : UInt64) (c : Char) : Tape :=
  t.writeCell i.toNat (by have := i.toNat_lt; omega) c

/-- A number as the key of a cell. -/
def cellKey (n : Nat) : String :=
  String.ofList (Text.digits n)

/-- The JSON form of a tape. -/
def toJson (t : Tape) : Json :=
  let cells := t.cells.toList
  let left := cells.filter fun (i, _) => i < 0
  let right := cells.filter fun (i, _) => 0 ≤ i
  .object [
    ("left", .object (left.map fun (i, c) => (cellKey (-1 - i).toNat, .char c))),
    ("right", .object (right.map fun (i, c) => (cellKey i.toNat, .char c)))]

/-- Reads the key of a cell. -/
def cellKey? (key : Json.Quoted) : Option UInt64 := do
  let n ← Text.ofCanonicalDigits? (← key.plain?)
  if n < UInt64.size then some (UInt64.ofNat n) else none

/-- Reads the cells of one side. -/
def sideOfJson? (v : Json) : Option (List (UInt64 × Char)) :=
  v.entries? cellKey? Json.char?

/-- Reads a tape. -/
def ofJson? (v : Json) : Option Tape := do
  let field ← v.record? fieldNames
  let left ← sideOfJson? (← field "left")
  let right ← sideOfJson? (← field "right")
  let t := left.foldl (fun t (i, c) => t.writeLeft i c) empty
  return right.foldl (fun t (i, c) => t.writeRight i c) t

end Tape

/-! ## Programs and snapshots -/

namespace Program

/-- The members of a program, in order. -/
def fieldNames : List String := ["table", "initial_tape", "offset"]

/-- The JSON form of a program. -/
def toJson (p : Program) : Json :=
  .object [("table", p.table.toJson), ("initial_tape", .text p.initialTape),
    ("offset", .int p.offset.val)]

/-- Reads a program. -/
def ofJson? (v : Json) : Option Program := do
  let field ← v.record? fieldNames
  let table ← Table.ofJson? (← field "table")
  let initialTape ← (← field "initial_tape").text?
  let offset ← Position.ofJson? (← field "offset")
  return ⟨table, initialTape, offset⟩

end Program

namespace Snapshot

/-- The members of a snapshot, in order. -/
def fieldNames : List String :=
  ["state", "position", "transitions", "symbols", "last_direction", "halted", "tape", "program",
   "halt_state", "init_state", "blank_symbol", "default_timeout"]

/-- The JSON form of a snapshot. -/
def toJson (s : Snapshot) : Json :=
  .object [
    ("state", s.state.toJson),
    ("position", .int s.position.val),
    ("transitions", .nat s.transitions.toNat),
    ("symbols", .nat s.symbols),
    ("last_direction", s.lastDirection.toJson),
    ("halted", .bool s.halted),
    ("tape", s.tape.toJson),
    ("program", s.program.toJson),
    ("halt_state", s.haltState.toJson),
    ("init_state", s.initialState.toJson),
    ("blank_symbol", .char s.blank),
    ("default_timeout", .nat s.defaultTimeout.toNat)]

/-- Reads a snapshot. -/
def ofJson? (v : Json) : Option Snapshot := do
  let field ← v.record? fieldNames
  let state ← StateId.ofJson? (← field "state")
  let position ← Position.ofJson? (← field "position")
  let transitions ← (← field "transitions").word?
  let symbols ← (← field "symbols").count?
  let lastDirection ← Direction.ofJson? (← field "last_direction")
  let halted ← (← field "halted").bool?
  let tape ← Tape.ofJson? (← field "tape")
  let program ← Program.ofJson? (← field "program")
  let haltState ← StateId.ofJson? (← field "halt_state")
  let initialState ← StateId.ofJson? (← field "init_state")
  let blank ← (← field "blank_symbol").char?
  let defaultTimeout ← (← field "default_timeout").word?
  return ⟨state, position, transitions, symbols, lastDirection, halted, tape, program,
    haltState, initialState, blank, defaultTimeout⟩

/-- A snapshot as JSON text. -/
def encode (s : Snapshot) : String :=
  s.toJson.render

/-- Reads a snapshot from JSON text. -/
def decode (text : String) : Except Error Snapshot :=
  match (Json.parse? text).bind ofJson? with
  | some s => .ok s
  | none => .error .malformedSnapshot

end Snapshot

/-! ## Configurations -/

namespace Config

/-- The members of a configuration, in order. -/
def fieldNames : List String := ["delay_ms", "timeout_ms"]

/-- The JSON form of a configuration. -/
def toJson (c : Config) : Json :=
  .object [("delay_ms", .nat c.delay.toNat), ("timeout_ms", .nat c.timeout.toNat)]

/-- Reads a time; one that is not given is the standard one. -/
def timeOfJson? (given : Option Json) (otherwise : UInt64) : Option UInt64 :=
  match given with
  | none => some otherwise
  | some v => v.word?

/-- Reads a configuration. -/
def ofJson? (v : Json) : Option Config := do
  let field ← v.record? fieldNames
  let delay ← timeOfJson? (field "delay_ms") standard.delay
  let timeout ← timeOfJson? (field "timeout_ms") standard.timeout
  return ⟨delay, timeout⟩

/-- Reads a configuration from JSON text. -/
def decode (text : String) : Except Error Config :=
  match (Json.parse? text).bind ofJson? with
  | some c => .ok c
  | none => .error .malformedConfig

end Config

end SingleTape
