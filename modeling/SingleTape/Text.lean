/-!
# Text

What is read is taken apart by three rules, on lists of characters: what counts as white space,
where a line ends, and which numerals stand for a number.

* White space is exactly what has the Unicode property `White_Space`.  Zero-width characters and
  the information separators are not among it.
* A line ends at a line feed, and one carriage return right before that line feed belongs to the
  line's end.  A line feed at the very end of the text opens no further line; a carriage return
  that no line feed follows is an ordinary character.
* A numeral is made of one or more digits `0` to `9`, and leading zeros are allowed; reading a
  written number gives it back (`ofDigits?_digits`).
-/

namespace SingleTape.Text

/-! ## White space -/

/-- The ranges of the property `White_Space`, both ends included, in ascending order. -/
def whiteSpaceRanges : List (Nat × Nat) :=
  [(0x0009, 0x000D), (0x0020, 0x0020), (0x0085, 0x0085), (0x00A0, 0x00A0), (0x1680, 0x1680),
   (0x2000, 0x200A), (0x2028, 0x2029), (0x202F, 0x202F), (0x205F, 0x205F), (0x3000, 0x3000)]

/-- Tells whether a character has the property `White_Space`. -/
def isWhiteSpace (c : Char) : Bool :=
  whiteSpaceRanges.any fun r => r.1 ≤ c.toNat && c.toNat ≤ r.2

/-- The text without the white space at its beginning. -/
def trimStart (cs : List Char) : List Char :=
  cs.dropWhile isWhiteSpace

/-- The text without the white space at its end. -/
def trimEnd (cs : List Char) : List Char :=
  (cs.reverse.dropWhile isWhiteSpace).reverse

/-- The text without the white space at either end. -/
def trim (cs : List Char) : List Char :=
  trimEnd (trimStart cs)

/-- Nothing that core counts as white space is missing from the table. -/
theorem isWhiteSpace_of_isWhitespace {c : Char} (h : c.isWhitespace = true) :
    isWhiteSpace c = true := by
  simp only [Char.isWhitespace, Bool.or_eq_true, decide_eq_true_eq] at h
  rcases h with ((rfl | rfl) | rfl) | rfl <;> decide

@[simp] theorem trim_nil : trim [] = [] := rfl

/-! ## Lines -/

/-- The lines of a text, without their ends. -/
def lines : List Char → List (List Char)
  | [] => []
  | '\n' :: cs => [] :: lines cs
  | '\r' :: '\n' :: cs => [] :: lines cs
  | c :: cs =>
    match lines cs with
    | [] => [[c]]
    | line :: rest => (c :: line) :: rest

@[simp] theorem lines_nil : lines [] = [] := rfl

@[simp] theorem lines_lineFeed (cs : List Char) : lines ('\n' :: cs) = [] :: lines cs := rfl

/-! ## Decimal numerals -/

/-- The digits of `n` in base ten, with no leading zero. -/
def digits (n : Nat) : List Char :=
  Nat.toDigits 10 n

/-- The number that one or more digits denote. -/
def ofDigits? (cs : List Char) : Option Nat :=
  if cs ≠ [] ∧ cs.all Char.isDigit then some (Nat.ofDigitChars 10 cs 0) else none

/-- The number that digits without a superfluous leading zero denote. -/
def ofCanonicalDigits? (cs : List Char) : Option Nat :=
  if cs.head? = some '0' ∧ cs ≠ ['0'] then none else ofDigits? cs

/-- The integer that digits after an optional sign denote. -/
def ofSigned? : List Char → Option Int
  | '+' :: cs => (ofDigits? cs).map Int.ofNat
  | '-' :: cs => (ofDigits? cs).map fun n => -Int.ofNat n
  | cs => (ofDigits? cs).map Int.ofNat

/-- An integer in base ten, with a minus sign if it is negative. -/
def signed : Int → List Char
  | .ofNat n => digits n
  | .negSucc n => '-' :: digits (n + 1)

theorem ofDigits?_digits (n : Nat) : ofDigits? (digits n) = some n := by
  have hne : Nat.toDigits 10 n ≠ [] := Nat.toDigits_ne_nil
  have hall : (Nat.toDigits 10 n).all Char.isDigit = true := by
    simp only [List.all_eq_true]
    intro c hc
    exact Nat.isDigit_of_mem_toDigits (by decide) (by decide) hc
  simp [ofDigits?, digits, hne, hall, Nat.ofDigitChars_toDigits]

end SingleTape.Text
