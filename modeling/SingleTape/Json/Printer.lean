import SingleTape.Json
import SingleTape.Json.Token

/-!
# Writing JSON values

Values are written without any space.  Escapes have their short form where there is one, and
four lower-case hexadecimal digits otherwise.  A number that is not an integer has no value to
write and becomes `0.0`, which is again such a number.
-/

namespace SingleTape.Json

/-- The hexadecimal digit with the given value below sixteen. -/
def hexDigit (n : Nat) : Char :=
  if n < 10 then Char.ofNat ('0'.toNat + n) else Char.ofNat ('a'.toNat + (n - 10))

/-- An escape as it is written. -/
def escape (unit : UInt16) : List Char :=
  if unit = 0x22 then ['\\', '"']
  else if unit = 0x5C then ['\\', '\\']
  else if unit = 0x08 then ['\\', 'b']
  else if unit = 0x0C then ['\\', 'f']
  else if unit = 0x0A then ['\\', 'n']
  else if unit = 0x0D then ['\\', 'r']
  else if unit = 0x09 then ['\\', 't']
  else
    let n := unit.toNat
    ['\\', 'u', hexDigit (n / 4096), hexDigit (n / 256 % 16), hexDigit (n / 16 % 16),
     hexDigit (n % 16)]

/-- A piece of quoted text as it is written. -/
def Piece.text : Piece → List Char
  | .plain c _ => [c]
  | .escape unit => Json.escape unit

/-- A token as it is written. -/
def Token.text : Token → List Char
  | .openArray => ['[']
  | .closeArray => [']']
  | .openObject => ['\x7b']
  | .closeObject => ['\x7d']
  | .comma => [',']
  | .colon => [':']
  | .null => ['n', 'u', 'l', 'l']
  | .bool true => ['t', 'r', 'u', 'e']
  | .bool false => ['f', 'a', 'l', 's', 'e']
  | .int n => Text.signed n
  | .real => ['0', '.', '0']
  | .str text => '"' :: (text.flatMap Piece.text ++ ['"'])

mutual

/-- The tokens that make up a value. -/
def tokens : Json → List Token
  | .null => [.null]
  | .bool b => [.bool b]
  | .int n => [.int n]
  | .real => [.real]
  | .str text => [.str text]
  | .arr [] => [.openArray, .closeArray]
  | .arr (item :: items) => .openArray :: (tokens item ++ moreItems items)
  | .obj [] => [.openObject, .closeObject]
  | .obj (m :: members) => .openObject :: (memberTokens m ++ moreMembers members)

/-- The tokens after an item of an array, up to the array's end. -/
def moreItems : List Json → List Token
  | [] => [.closeArray]
  | item :: items => .comma :: (tokens item ++ moreItems items)

/-- The tokens of a member of an object. -/
def memberTokens : Quoted × Json → List Token
  | (name, v) => .str name :: .colon :: tokens v

/-- The tokens after a member of an object, up to the object's end. -/
def moreMembers : List (Quoted × Json) → List Token
  | [] => [.closeObject]
  | m :: members => .comma :: (memberTokens m ++ moreMembers members)

end

/-- A value as it is written. -/
def render (v : Json) : String :=
  String.ofList (v.tokens.flatMap Token.text)

end SingleTape.Json
