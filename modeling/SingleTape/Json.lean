import SingleTape.Json.Quoted

/-!
# JSON values

Objects keep the order of their members and may hold a name twice.  Of numbers only integers
have a value here: a number that is written with a fraction or an exponent, or as a negative
zero, is merely known to be there.
-/

namespace SingleTape

/-- A JSON value. -/
inductive Json where
  /-- The empty value. -/
  | null
  /-- A truth value. -/
  | bool (b : Bool)
  /-- An integer. -/
  | int (n : Int)
  /-- A number that is not written as an integer. -/
  | real
  /-- A string. -/
  | str (text : Json.Quoted)
  /-- An array. -/
  | arr (items : List Json)
  /-- An object. -/
  | obj (members : List (Json.Quoted × Json))

namespace Json

instance : Inhabited Json := ⟨null⟩

/-- A string that holds the given text. -/
def text (s : String) : Json :=
  .str (Quoted.encode s.toList)

/-- A string that holds one character. -/
def char (c : Char) : Json :=
  .str (Quoted.encode [c])

/-- A natural number. -/
def nat (n : Nat) : Json :=
  .int n

/-- An object with the given members. -/
def object (members : List (String × Json)) : Json :=
  .obj (members.map fun m => (Quoted.encode m.1.toList, m.2))

end Json

end SingleTape
