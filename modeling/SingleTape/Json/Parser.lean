import SingleTape.Json
import SingleTape.Json.Token

/-!
# Reading JSON values

The tokens of a text are taken one by one, and what was opened and not yet closed is kept as a
stack of frames.  So the depth of nesting is not limited, and a value is read in one pass.
-/

namespace SingleTape.Json

/-- An array or an object of which a part has been read; what was read is kept last first. -/
inductive Frame where
  /-- An array whose next item is being read. -/
  | item (before : List Json)
  /-- An object in which the value of the member `key` is being read. -/
  | member (before : List (Quoted × Json)) (key : Quoted)

/-- What may come next, inside of what is open. -/
inductive Expected where
  /-- A value. -/
  | value (outer : List Frame)
  /-- The first item of an array, or its end. -/
  | itemOrEnd (outer : List Frame)
  /-- The name of the first member of an object, or its end. -/
  | nameOrEnd (outer : List Frame)
  /-- The name of a further member of an object. -/
  | name (before : List (Quoted × Json)) (outer : List Frame)
  /-- The colon after the name of a member. -/
  | colon (before : List (Quoted × Json)) (key : Quoted) (outer : List Frame)
  /-- A comma, or the end of what is open, after a value. -/
  | commaOrEnd (v : Json) (outer : List Frame)

namespace Expected

/-- What may follow the first token of a value. -/
def afterFirst? (outer : List Frame) : Token → Option Expected
  | .null => some (.commaOrEnd .null outer)
  | .bool b => some (.commaOrEnd (.bool b) outer)
  | .int n => some (.commaOrEnd (.int n) outer)
  | .real => some (.commaOrEnd .real outer)
  | .str text => some (.commaOrEnd (.str text) outer)
  | .openArray => some (.itemOrEnd outer)
  | .openObject => some (.nameOrEnd outer)
  | _ => none

/-- What may follow a token, if the token may come at all. -/
def next? : Expected → Token → Option Expected
  | .value outer, token => afterFirst? outer token
  | .itemOrEnd outer, .closeArray => some (.commaOrEnd (.arr []) outer)
  | .itemOrEnd outer, token => afterFirst? (.item [] :: outer) token
  | .nameOrEnd outer, .closeObject => some (.commaOrEnd (.obj []) outer)
  | .nameOrEnd outer, .str key => some (.colon [] key outer)
  | .name before outer, .str key => some (.colon before key outer)
  | .colon before key outer, .colon => some (.value (.member before key :: outer))
  | .commaOrEnd v (.item before :: outer), .comma => some (.value (.item (v :: before) :: outer))
  | .commaOrEnd v (.item before :: outer), .closeArray =>
    some (.commaOrEnd (.arr (v :: before).reverse) outer)
  | .commaOrEnd v (.member before key :: outer), .comma =>
    some (.name ((key, v) :: before) outer)
  | .commaOrEnd v (.member before key :: outer), .closeObject =>
    some (.commaOrEnd (.obj ((key, v) :: before).reverse) outer)
  | _, _ => none

/-- The value that was read, if nothing is open any more. -/
def result? : Expected → Option Json
  | .commaOrEnd v [] => some v
  | _ => none

end Expected

/-- The value that a sequence of tokens denotes. -/
def ofTokens? (tokens : List Token) : Option Json := do
  let last ← tokens.foldlM Expected.next? (.value [])
  last.result?

/-- The value that a text denotes. -/
def parse? (s : String) : Option Json := do
  let tokens ← scan s.toList
  ofTokens? tokens

end SingleTape.Json
