import SingleTape.Json.Quoted
import SingleTape.Text

/-!
# JSON tokens

JSON text is a sequence of tokens with space, tab, line feed or carriage return between them.
`scan` divides a text into its tokens.  It does not ask for anything between two tokens: text
such as `12"a"` is divided, and refused by the reader of values, since no two values may follow
each other directly.
-/

namespace SingleTape.Json

/-- A token of JSON text. -/
inductive Token where
  /-- The mark `[`. -/
  | openArray
  /-- The mark `]`. -/
  | closeArray
  /-- The mark that opens an object. -/
  | openObject
  /-- The mark that closes an object. -/
  | closeObject
  /-- The mark `,`. -/
  | comma
  /-- The mark `:`. -/
  | colon
  /-- The word `null`. -/
  | null
  /-- One of the words `true` and `false`. -/
  | bool (b : Bool)
  /-- A number without fraction and exponent. -/
  | int (n : Int)
  /-- Any other number. -/
  | real
  /-- A string. -/
  | str (text : Quoted)
deriving DecidableEq

/-! ## Strings -/

/-- The unit that a short escape stands for. -/
def shortEscape? (c : Char) : Option UInt16 :=
  if c = '"' then some 0x22
  else if c = '\\' then some 0x5C
  else if c = '/' then some 0x2F
  else if c = 'b' then some 0x08
  else if c = 'f' then some 0x0C
  else if c = 'n' then some 0x0A
  else if c = 'r' then some 0x0D
  else if c = 't' then some 0x09
  else none

/-- The value of a hexadecimal digit of either case. -/
def hexDigit? (c : Char) : Option Nat :=
  if '0' ≤ c ∧ c ≤ '9' then some (c.toNat - '0'.toNat)
  else if 'a' ≤ c ∧ c ≤ 'f' then some (c.toNat - 'a'.toNat + 10)
  else if 'A' ≤ c ∧ c ≤ 'F' then some (c.toNat - 'A'.toNat + 10)
  else none

/-- The unit that four hexadecimal digits stand for. -/
def hexUnit? (a b c d : Char) : Option UInt16 := do
  let a ← hexDigit? a
  let b ← hexDigit? b
  let c ← hexDigit? c
  let d ← hexDigit? d
  return UInt16.ofNat (((a * 16 + b) * 16 + c) * 16 + d)

/-- Takes the inside of a string and its closing quote off the front. -/
def takeQuoted? : List Char → Option (Quoted × List Char)
  | [] => none
  | c :: cs =>
    if h : isPlain c = true then
      (takeQuoted? cs).map fun (text, rest) => (.plain c h :: text, rest)
    else if c = '"' then some ([], cs)
    else if c = '\\' then
      match cs with
      | [] => none
      | e :: cs =>
        if e = 'u' then
          match cs with
          | p :: q :: r :: s :: cs =>
            (hexUnit? p q r s).bind fun unit =>
              (takeQuoted? cs).map fun (text, rest) => (.escape unit :: text, rest)
          | _ => none
        else
          (shortEscape? e).bind fun unit =>
            (takeQuoted? cs).map fun (text, rest) => (.escape unit :: text, rest)
    else none

/-! ## Numbers -/

/-- Takes the longest run of digits off the front. -/
def takeDigits (cs : List Char) : List Char × List Char :=
  (cs.takeWhile Char.isDigit, cs.dropWhile Char.isDigit)

/-- Takes a fraction off the front, if there is one, and tells whether there was. -/
def takeFraction? : List Char → Option (Bool × List Char)
  | '.' :: cs =>
    match takeDigits cs with
    | ([], _) => none
    | (_, rest) => some (true, rest)
  | cs => some (false, cs)

/-- Takes one sign off the front, if there is one. -/
def dropSign : List Char → List Char
  | '+' :: cs => cs
  | '-' :: cs => cs
  | cs => cs

/-- Takes an exponent off the front, if there is one, and tells whether there was. -/
def takeExponent? : List Char → Option (Bool × List Char)
  | [] => some (false, [])
  | c :: cs =>
    if c = 'e' ∨ c = 'E' then
      match takeDigits (dropSign cs) with
      | ([], _) => none
      | (_, rest) => some (true, rest)
    else some (false, c :: cs)

/-- Takes a number without a minus sign off the front; `negative` tells whether there was one. -/
def takeUnsigned? (negative : Bool) (cs : List Char) : Option (Token × List Char) := do
  let (digits, cs) := takeDigits cs
  let n ← Text.ofCanonicalDigits? digits
  let (fraction, cs) ← takeFraction? cs
  let (exponent, cs) ← takeExponent? cs
  if fraction || exponent || (negative && n = 0) then return (.real, cs)
  else if negative then return (.int (-n), cs)
  else return (.int n, cs)

/-- Takes a number off the front. -/
def takeNumber? : List Char → Option (Token × List Char)
  | '-' :: cs => takeUnsigned? true cs
  | cs => takeUnsigned? false cs

/-! ## Tokens -/

/-- Tells whether a character may stand between tokens. -/
def isSpace (c : Char) : Bool :=
  c = ' ' || c = '\t' || c = '\n' || c = '\r'

/-- The token that one character makes up. -/
def mark? (c : Char) : Option Token :=
  if c = '[' then some .openArray
  else if c = ']' then some .closeArray
  else if c = '\x7b' then some .openObject
  else if c = '\x7d' then some .closeObject
  else if c = ',' then some .comma
  else if c = ':' then some .colon
  else none

/-- Takes a token off the front. -/
def takeToken? : List Char → Option (Token × List Char)
  | [] => none
  | '"' :: cs => (takeQuoted? cs).map fun (text, rest) => (.str text, rest)
  | 'n' :: 'u' :: 'l' :: 'l' :: cs => some (.null, cs)
  | 't' :: 'r' :: 'u' :: 'e' :: cs => some (.bool true, cs)
  | 'f' :: 'a' :: 'l' :: 's' :: 'e' :: cs => some (.bool false, cs)
  | c :: cs =>
    match mark? c with
    | some token => some (token, cs)
    | none => takeNumber? (c :: cs)

/-! ## What is left is shorter -/

theorem length_takeQuoted? {cs : List Char} {text : Quoted} {rest : List Char}
    (h : takeQuoted? cs = some (text, rest)) : rest.length < cs.length := by
  fun_induction takeQuoted? cs generalizing text rest <;>
    grind [Option.map_eq_some_iff, Option.bind_eq_some_iff]

theorem length_takeDigits (cs : List Char) :
    (takeDigits cs).1.length + (takeDigits cs).2.length = cs.length := by
  rw [← List.length_append, takeDigits, List.takeWhile_append_dropWhile]

theorem length_takeFraction? {cs : List Char} {found : Bool} {rest : List Char}
    (h : takeFraction? cs = some (found, rest)) : rest.length ≤ cs.length := by
  unfold takeFraction? at h
  split at h
  · next cs =>
    have := length_takeDigits cs
    split at h
    · cases h
    · grind
  · grind

theorem length_dropSign (cs : List Char) : (dropSign cs).length ≤ cs.length := by
  unfold dropSign
  split <;> simp

theorem length_takeExponent? {cs : List Char} {found : Bool} {rest : List Char}
    (h : takeExponent? cs = some (found, rest)) : rest.length ≤ cs.length := by
  unfold takeExponent? at h
  split at h
  · grind
  · next c cs =>
    have := length_takeDigits (dropSign cs)
    have := length_dropSign cs
    grind

theorem ne_nil_of_ofCanonicalDigits? {cs : List Char} {n : Nat}
    (h : Text.ofCanonicalDigits? cs = some n) : cs ≠ [] := by
  rintro rfl
  simp [Text.ofCanonicalDigits?, Text.ofDigits?] at h

theorem length_takeUnsigned? {negative : Bool} {cs : List Char} {token : Token}
    {rest : List Char} (h : takeUnsigned? negative cs = some (token, rest)) :
    rest.length < cs.length := by
  simp only [takeUnsigned?, Option.bind_eq_bind, Option.bind_eq_some_iff] at h
  obtain ⟨n, hn, ⟨fraction, cs₁⟩, hfraction, ⟨exponent, cs₂⟩, hexponent, h⟩ := h
  have hpos := List.length_pos_iff.2 (ne_nil_of_ofCanonicalDigits? hn)
  have hdigits := length_takeDigits cs
  have hle₁ := length_takeFraction? hfraction
  have hle₂ := length_takeExponent? hexponent
  have hrest : rest = cs₂ := by
    split at h
    · cases h; rfl
    · split at h <;> cases h <;> rfl
  subst hrest
  dsimp only at hle₁ hle₂
  omega

theorem length_takeNumber? {cs : List Char} {token : Token} {rest : List Char}
    (h : takeNumber? cs = some (token, rest)) : rest.length < cs.length := by
  unfold takeNumber? at h
  split at h
  · have := length_takeUnsigned? h
    simp only [List.length_cons]
    omega
  · exact length_takeUnsigned? h

theorem length_takeToken? {cs : List Char} {token : Token} {rest : List Char}
    (h : takeToken? cs = some (token, rest)) : rest.length < cs.length := by
  unfold takeToken? at h
  split at h
  · cases h
  · next cs =>
    obtain ⟨⟨text, left⟩, hq, heq⟩ := Option.map_eq_some_iff.1 h
    have := length_takeQuoted? hq
    cases heq
    simp only [List.length_cons]
    omega
  · cases h; simp; omega
  · cases h; simp; omega
  · cases h; simp; omega
  · split at h
    · cases h; simp
    · exact length_takeNumber? h

/-- The tokens of a text. -/
def scan (cs : List Char) : Option (List Token) :=
  match _hcs : cs.dropWhile isSpace with
  | [] => some []
  | c :: rest =>
    match _htoken : takeToken? (c :: rest) with
    | none => none
    | some (token, rest) => (scan rest).map (token :: ·)
termination_by cs.length
decreasing_by
  have hlt := length_takeToken? _htoken
  have hle := (List.dropWhile_suffix (l := cs) isSpace).length_le
  rw [_hcs] at hle
  omega

end SingleTape.Json
