import SingleTape.Json

/-!
# Values of a known shape

A record is an object with a fixed list of members.  It may also be written as an array of the
members' values in the order of that list; trailing values may be missing then, as members may
be missing from the object.  Members that are not in the list are ignored, and a listed member
may not occur twice.  A map is an object whose members are all of one kind; where a key occurs
twice, the later member counts.
-/

namespace SingleTape.Json

/-- The text of a string. -/
def text? : Json → Option String
  | .str q => q.decode?.map String.ofList
  | _ => none

/-- The only character of a text. -/
def onlyChar? : List Char → Option Char
  | [c] => some c
  | _ => none

/-- The only character of a string. -/
def char? : Json → Option Char
  | .str q => q.decode?.bind onlyChar?
  | _ => none

/-- A truth value. -/
def bool? : Json → Option Bool
  | .bool b => some b
  | _ => none

/-- An integer. -/
def int? : Json → Option Int
  | .int n => some n
  | _ => none

/-- A natural number below `2 ^ 64`. -/
def count? : Json → Option Nat
  | .int (.ofNat n) => if n < UInt64.size then some n else none
  | _ => none

/-- A 64-bit word. -/
def word? (v : Json) : Option UInt64 :=
  v.count?.map UInt64.ofNat

/-- The values of a record's members, by name; a name that is missing has none. -/
abbrev Fields := String → Option Json

/-- The members of an object with their names decoded. -/
def decodedMembers? (members : List (Quoted × Json)) : Option (List (String × Json)) :=
  members.mapM fun (name, v) => name.decode?.map fun cs => (String.ofList cs, v)

/-- Tells whether at most one member has the given name. -/
def atMostOne (members : List (String × Json)) (name : String) : Bool :=
  members.countP (fun m => m.1 = name) ≤ 1

/-- The members of a record with the given names. -/
def record? (names : List String) : Json → Option Fields
  | .obj members => do
    let members ← decodedMembers? members
    if names.all (atMostOne members) then
      return fun name => (members.find? fun m => m.1 = name).map (·.2)
    else none
  | .arr items =>
    if items.length ≤ names.length then
      some fun name => (names.idxOf? name).bind fun i => items[i]?
    else none
  | _ => none

/-- The entries of a map, in the order of the text. -/
def entries? {α β : Type} (key? : Quoted → Option α) (value? : Json → Option β) :
    Json → Option (List (α × β))
  | .obj members => members.mapM fun (name, v) => do
    let k ← key? name
    let w ← value? v
    return (k, w)
  | _ => none

end SingleTape.Json
