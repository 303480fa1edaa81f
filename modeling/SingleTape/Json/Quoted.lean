/-!
# Quoted text

The inside of a JSON string is a sequence of pieces: a character that stands for itself, or an
escape that stands for a 16-bit unit.  Escapes need not make up characters: a unit of a
surrogate pair may stand alone.  Such a text is well formed as JSON, and only `decode?` refuses
it, so a string that nobody looks at may hold one.

* `decode?_encode` every text is read back from its quoted form
-/

namespace SingleTape.Json

/-- Tells whether a character may stand for itself between quotes. -/
def isPlain (c : Char) : Bool :=
  0x20 ≤ c.toNat && c != '"' && c != '\\'

/-- A piece of quoted text. -/
inductive Piece where
  /-- A character that stands for itself. -/
  | plain (c : Char) (h : isPlain c = true)
  /-- An escaped 16-bit unit. -/
  | escape (unit : UInt16)
deriving DecidableEq

/-- The inside of a JSON string. -/
abbrev Quoted := List Piece

/-- Tells whether a unit is the first of a surrogate pair. -/
def isHighSurrogate (unit : UInt16) : Bool :=
  0xD800 ≤ unit && unit ≤ 0xDBFF

/-- Tells whether a unit is the second of a surrogate pair. -/
def isLowSurrogate (unit : UInt16) : Bool :=
  0xDC00 ≤ unit && unit ≤ 0xDFFF

/-- The character that a surrogate pair stands for. -/
def ofSurrogates (high low : UInt16) : Char :=
  Char.ofNat (0x10000 + (high.toNat - 0xD800) * 0x400 + (low.toNat - 0xDC00))

namespace Quoted

/-- The text that is quoted, if the escapes make up characters. -/
def decode? : Quoted → Option (List Char)
  | [] => some []
  | .plain c _ :: rest => (decode? rest).map (c :: ·)
  | .escape unit :: rest =>
    if isHighSurrogate unit then
      match rest with
      | .escape low :: rest =>
        if isLowSurrogate low then (decode? rest).map (ofSurrogates unit low :: ·) else none
      | _ => none
    else if isLowSurrogate unit then none
    else (decode? rest).map (Char.ofNat unit.toNat :: ·)

/-- The quoted form of a character: escaped only if it must be. -/
def piece (c : Char) : Piece :=
  if h : isPlain c = true then .plain c h else .escape (UInt16.ofNat c.toNat)

/-- The quoted form of a text. -/
def encode (cs : List Char) : Quoted :=
  cs.map piece

/-- The characters of a quoted text, if none of them is escaped. -/
def plain? : Quoted → Option (List Char)
  | [] => some []
  | .plain c _ :: rest => (plain? rest).map (c :: ·)
  | .escape _ :: _ => none

/-- A character that must be escaped fits into a unit, and into none of a surrogate pair. -/
private theorem toNat_lt_of_not_isPlain {c : Char} (h : ¬isPlain c = true) : c.toNat < 0x80 := by
  simp only [isPlain, Bool.and_eq_true, decide_eq_true_eq, bne_iff_ne, ne_eq] at h
  by_cases hq : c = '"'
  · subst hq; decide
  · by_cases hb : c = '\\'
    · subst hb; decide
    · have : ¬0x20 ≤ c.toNat := fun hc => h ⟨⟨hc, hq⟩, hb⟩
      omega

/-- An escape outside the surrogate pairs stands for the character with its number. -/
theorem decode?_escape {unit : UInt16} (hhigh : isHighSurrogate unit = false)
    (hlow : isLowSurrogate unit = false) (rest : Quoted) :
    decode? (.escape unit :: rest) = (decode? rest).map (Char.ofNat unit.toNat :: ·) := by
  rw [decode?.eq_def]
  simp [hhigh, hlow]

@[simp] theorem decode?_encode (cs : List Char) : decode? (encode cs) = some cs := by
  induction cs with
  | nil => rfl
  | cons c cs ih =>
    have hcons : encode (c :: cs) = piece c :: encode cs := rfl
    by_cases h : isPlain c = true
    · simp [hcons, piece, h, decode?, ih]
    · have hc := toNat_lt_of_not_isPlain h
      have hu : (UInt16.ofNat c.toNat).toNat = c.toNat := by
        simp only [UInt16.toNat_ofNat']; omega
      have hhigh : isHighSurrogate (UInt16.ofNat c.toNat) = false := by
        simp [isHighSurrogate, UInt16.le_iff_toNat_le, -UInt16.toNat_ofNat', hu]; omega
      have hlow : isLowSurrogate (UInt16.ofNat c.toNat) = false := by
        simp [isLowSurrogate, UInt16.le_iff_toNat_le, -UInt16.toNat_ofNat', hu]; omega
      have hpiece : piece c = .escape (UInt16.ofNat c.toNat) := dif_neg h
      rw [hcons, hpiece, decode?_escape hhigh hlow, ih, hu]
      simp

end Quoted

end SingleTape.Json
