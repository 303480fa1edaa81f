import SingleTape.Program.Compile

/-!
# Demonstration programs

A demonstration is a program text whose leading comment lines also say how it is called and on
which tape it runs:

    # name: Binary increment
    # tape: 1011
    # offset: 0

These lines are comments, so the text is compiled as it is.  Headers are looked for only in the
block of comment lines at the top; of two headers with one key the later counts.
-/

namespace SingleTape

/-- A program text with the tape it is meant for. -/
structure Demo where
  /-- The name. -/
  name : String
  /-- The program text. -/
  source : String
  /-- The initial tape. -/
  initialTape : String
  /-- The place of the initial tape. -/
  offset : Position
deriving DecidableEq

namespace Demo

/-- The text before and after the first colon. -/
def splitColon? : List Char → Option (List Char × List Char)
  | [] => none
  | c :: cs =>
    if c = ':' then some ([], cs)
    else (splitColon? cs).map fun (key, value) => (c :: key, value)

/-- The key and the value of a comment line, which is trimmed. -/
def header? (line : List Char) : Option (List Char × List Char) :=
  (splitColon? (line.dropWhile (· = '#'))).map fun (key, value) =>
    (Text.trim key, Text.trim value)

/-- The headers of a program text, in the order of the lines. -/
def headers (source : List Char) : List (List Char × List Char) :=
  (((Text.lines source).map Text.trim).takeWhile fun line => line.head? = some '#').filterMap
    header?

/-- Takes over what a header says. -/
def withHeader (d : Demo) : List Char × List Char → Except Error Demo
  | (key, value) =>
    match String.ofList key with
    | "name" => .ok { d with name := String.ofList value }
    | "tape" => .ok { d with initialTape := String.ofList value }
    | "offset" =>
      match Position.parse (String.ofList value) with
      | .error e => .error e
      | .ok offset => .ok { d with offset }
    | _ => .ok d

/-- The demonstration that a text describes; without headers it is untitled, on an empty tape. -/
def ofSource (source : String) : Except Error Demo :=
  (headers source.toList).foldlM withHeader ⟨"Untitled", source, "", .origin⟩

/-- The program of a demonstration. -/
def compile (d : Demo) : Except Error Program :=
  Program.compile d.source d.initialTape d.offset

end Demo

/-- A short description of a demonstration. -/
structure DemoInfo where
  /-- The name. -/
  name : String
  /-- The initial tape. -/
  initialTape : String
  /-- The place of the initial tape. -/
  offset : Position
  /-- The number of states. -/
  stateCount : Nat
  /-- The number of rules. -/
  ruleCount : Nat
deriving DecidableEq

namespace Catalogue

/-- Adds one to a binary number. -/
def binaryIncrement : String :=
"# name: Binary increment
# tape: 1011
# offset: 0
#
# Adds one to a binary number. The head starts on the most significant digit.

# Walk to the rightmost digit
1,0 1,0,>
1,1 1,1,>
1,_ 2,_,<

# Add one, carrying to the left
2,1 2,0,<
2,0 H,1
2,_ H,1
"

/-- Joins two unary numbers. -/
def unaryAddition : String :=
"# name: Unary addition
# tape: 111+11
# offset: 0
#
# Joins two unary numbers separated by '+'.

1,1 1,1,>
1,+ 2,1,>
2,1 2,1,>
2,_ 3,_,<
3,1 H,_
"

/-- The busy beaver with two states. -/
def busyBeaver : String :=
"# name: Busy beaver
# tape:
# offset: 0
#
# The 2-state, 2-symbol busy beaver: writes four 1s in six steps.

1,_ 2,1,>
1,1 2,1,<
2,_ 1,1,<
2,1 H,1,>
"

/-- The demonstrations, those left out whose headers are faulty. -/
def demos : List Demo :=
  [binaryIncrement, unaryAddition, busyBeaver].filterMap fun source =>
    (Demo.ofSource source).toOption

/-- The names of the demonstrations. -/
def names : List String :=
  demos.map (·.name)

/-- A text with its ASCII capitals turned into small letters. -/
def lower (cs : List Char) : List Char :=
  cs.map Char.toLower

/-- The demonstration with the given number. -/
def get (index : Nat) : Except Error Demo :=
  match demos[index]? with
  | some d => .ok d
  | none => .error (.noProgramAt index)

/-- The demonstration with the given name; case does not matter in ASCII letters. -/
def find (name : String) : Except Error Demo :=
  match demos.find? fun d => lower d.name.toList = lower name.toList with
  | some d => .ok d
  | none => .error (.noProgramNamed name)

/-- Describes the demonstration with the given number. -/
def info (index : Nat) : Except Error DemoInfo := do
  let d ← get index
  let p ← d.compile
  return ⟨d.name, d.initialTape, d.offset, p.table.stateCount, p.table.size⟩

/-- Tells whether one text occurs within another. -/
def occurs (part : List Char) : List Char → Bool
  | [] => part = []
  | c :: cs => part.isPrefixOf (c :: cs) || occurs part cs

/-- The numbers of the demonstrations whose name contains the given text.  All names are ASCII,
so it is enough to disregard the case of ASCII letters. -/
def search (query : String) : List Nat :=
  (demos.zipIdx.filter fun (d, _) => occurs (lower query.toList) (lower d.name.toList)).map (·.2)

end Catalogue

end SingleTape
