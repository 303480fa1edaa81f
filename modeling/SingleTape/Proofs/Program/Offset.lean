import Mathlib.Data.Nat.Digits.Defs
import SingleTape.Program.Compile
import SingleTape.Proofs.Text.Trim

/-!
# Offsets that are written out

A position that is written in base ten, with any white space around it, is read as that position.

What else is read is told by `Text.Numeral`, a grammar that gives each numeral its number by the
places of its digits.  A numeral may have more digits than any position, and its number is formed
before it is found to be no position.  `Position.ofSigned?` is the reading that never forms a larger
number: it goes over the digits from the left and checks every multiplication and every addition.
The numbers that it forms only grow in size, up to the number that the whole numeral denotes, so it
fails exactly if that one is no position, however many zeros come first.

## Key results

- `Text.ofSigned?_signed`: an integer is read back
- `Position.parse_append_signed`: a position is read back
- `Text.ofSigned?_eq_some_iff`: what is read is what the grammar has
- `Position.accumulate?_eq`: checking every step comes to checking the number once
- `Position.numerals_exact`: how any text is read
-/

namespace SingleTape

namespace Text

/-- No digit is white space. -/
private theorem isWhiteSpace_of_isDigit {c : Char} (h : c.isDigit = true) :
    isWhiteSpace c = false :=
  isWhiteSpace_of_isAlphanum (by simp [Char.isAlphanum, h])

/-- There is a digit in every number. -/
private theorem exists_digits (n : Nat) :
    ∃ c cs, digits n = c :: cs ∧ ∀ d ∈ digits n, d.isDigit = true := by
  obtain ⟨c, cs, hcs⟩ := List.exists_cons_of_ne_nil (Nat.toDigits_ne_nil (n := n) (b := 10))
  exact ⟨c, cs, hcs, fun d hd => Nat.isDigit_of_mem_toDigits (by decide) (by decide) hd⟩

/-- A digit at the beginning is not taken for a sign. -/
theorem ofSigned?_of_isDigit {c : Char} {cs : List Char} (hc : c.isDigit = true) :
    ofSigned? (c :: cs) = (ofDigits? (c :: cs)).map Int.ofNat := by
  rw [ofSigned?]
  · intro cs' hplus
    cases hplus
    exact absurd hc (by decide)
  · intro cs' hminus
    cases hminus
    exact absurd hc (by decide)

/-- An integer that is written out is read back. -/
theorem ofSigned?_signed (n : Int) : ofSigned? (signed n) = some n := by
  cases n with
  | negSucc n =>
    rw [signed, ofSigned?, ofDigits?_digits]
    rfl
  | ofNat n =>
    obtain ⟨c, cs, hcs, hdigits⟩ := exists_digits n
    have hc : c.isDigit = true := hdigits c (by rw [hcs]; exact List.mem_cons_self)
    rw [signed, hcs, ofSigned?_of_isDigit hc, ← hcs, ofDigits?_digits]
    rfl

/-- There is no white space in an integer that is written out. -/
theorem isWhiteSpace_of_mem_signed {n : Int} {c : Char} (h : c ∈ signed n) :
    isWhiteSpace c = false := by
  cases n with
  | ofNat n =>
    obtain ⟨-, -, -, hdigits⟩ := exists_digits n
    exact isWhiteSpace_of_isDigit (hdigits c h)
  | negSucc n =>
    obtain ⟨-, -, -, hdigits⟩ := exists_digits (n + 1)
    rcases List.mem_cons.mp h with rfl | h
    · decide
    · exact isWhiteSpace_of_isDigit (hdigits c h)

theorem isTrimmed_signed (n : Int) : IsTrimmed (signed n) :=
  ⟨fun _ hc => isWhiteSpace_of_mem_signed (List.mem_of_head? hc),
    fun _ hc => isWhiteSpace_of_mem_signed (List.mem_of_getLast? hc)⟩

theorem signed_ne_nil (n : Int) : signed n ≠ [] := by
  cases n with
  | ofNat n => exact Nat.toDigits_ne_nil
  | negSucc n => exact List.cons_ne_nil _ _

/-! ## Numerals -/

/-- The number that digits denote by their places, the last one being that of the ones. -/
def placeValue (ds : List Char) : Nat :=
  Nat.ofDigits 10 (ds.reverse.map fun c => c.toNat - '0'.toNat)

/-- The integer that a numeral denotes: one or more digits, after one sign or none. -/
inductive Numeral : List Char → Int → Prop where
  /-- There is no sign. -/
  | plain {ds : List Char} (hne : ds ≠ []) (hds : ∀ c ∈ ds, c.isDigit = true) :
      Numeral ds (placeValue ds)
  /-- The sign changes nothing. -/
  | plus {ds : List Char} (hne : ds ≠ []) (hds : ∀ c ∈ ds, c.isDigit = true) :
      Numeral ('+' :: ds) (placeValue ds)
  /-- The number is taken off zero. -/
  | minus {ds : List Char} (hne : ds ≠ []) (hds : ∀ c ∈ ds, c.isDigit = true) :
      Numeral ('-' :: ds) (-(placeValue ds : Int))

/-- Going over the digits from the left comes to adding them up by their places. -/
theorem ofDigitChars_eq_placeValue (ds : List Char) : Nat.ofDigitChars 10 ds 0 = placeValue ds := by
  induction ds with
  | nil => rfl
  | cons c cs ih =>
    have hplaces : placeValue (c :: cs) = placeValue cs + 10 ^ cs.length * (c.toNat - '0'.toNat) := by
      rw [placeValue, List.reverse_cons, List.map_append, Nat.ofDigits_append, List.length_map,
        List.length_reverse, List.map_singleton, Nat.ofDigits_singleton, placeValue]
    rw [Nat.ofDigitChars_cons, Nat.mul_zero, Nat.zero_add, Nat.ofDigitChars_eq_ofDigitChars_zero, ih,
      hplaces, Nat.add_comm]

/-- Nothing but digits is read, and they are read by their places. -/
theorem ofDigits?_eq_some_iff {ds : List Char} {n : Nat} :
    ofDigits? ds = some n ↔ ds ≠ [] ∧ (∀ c ∈ ds, c.isDigit = true) ∧ placeValue ds = n := by
  simp only [ofDigits?, ofDigitChars_eq_placeValue, List.all_eq_true]
  split
  · rename_i h
    rw [Option.some.injEq]
    exact ⟨fun hvalue => ⟨h.1, h.2, hvalue⟩, fun hread => hread.2.2⟩
  · rename_i h
    simp only [reduceCtorEq, false_iff]
    exact fun hread => h ⟨hread.1, hread.2.1⟩

/-- **Numerals.** Exactly the numerals are read, each as what it denotes. -/
theorem ofSigned?_eq_some_iff {cs : List Char} {n : Int} : ofSigned? cs = some n ↔ Numeral cs n := by
  constructor
  · intro hread
    unfold ofSigned? at hread
    split at hread <;> obtain ⟨k, hk, rfl⟩ := Option.map_eq_some_iff.mp hread <;>
      obtain ⟨hne, hds, rfl⟩ := ofDigits?_eq_some_iff.mp hk
    · exact .plus hne hds
    · exact .minus hne hds
    · exact .plain hne hds
  · intro hnumeral
    cases hnumeral with
    | plain hne hds =>
      obtain ⟨c, cs', rfl⟩ := List.exists_cons_of_ne_nil hne
      rw [ofSigned?_of_isDigit (hds c List.mem_cons_self), ofDigits?_eq_some_iff.mpr ⟨hne, hds, rfl⟩]
      rfl
    | plus hne hds =>
      rw [ofSigned?, ofDigits?_eq_some_iff.mpr ⟨hne, hds, rfl⟩]
      rfl
    | minus hne hds =>
      rw [ofSigned?, ofDigits?_eq_some_iff.mpr ⟨hne, hds, rfl⟩]
      rfl

end Text

/-- A position that is written out is read back, whatever white space is around it. -/
theorem Position.parse_append_signed (p : Position) {space space' : List Char}
    (hspace : ∀ c ∈ space, Text.isWhiteSpace c = true)
    (hspace' : ∀ c ∈ space', Text.isWhiteSpace c = true) :
    Position.parse (String.ofList (space ++ Text.signed p.val ++ space')) = .ok p := by
  have htrim := Text.trim_append hspace (Text.isTrimmed_signed p.val) hspace'
  unfold Position.parse
  rw [String.toList_ofList, htrim]
  split
  · rename_i hnil
    exact absurd hnil (Text.signed_ne_nil p.val)
  · rw [Text.ofSigned?_signed, Option.bind_some, Position.ofInt?_val]

theorem Position.parse_signed (p : Position) :
    Position.parse (String.ofList (Text.signed p.val)) = .ok p := by
  have hparse : Position.parse (String.ofList ([] ++ Text.signed p.val ++ [])) = .ok p :=
    p.parse_append_signed (by simp) (by simp)
  rwa [List.nil_append, List.append_nil] at hparse

namespace Position

/-! ## Digit by digit -/

/-- Reads further digits after those that came to the position `p`.  Each digit is added after a
multiplication, in the direction of the sign, and both results have to be positions. -/
def accumulate? (sign : Int) (p : Position) : List Char → Option Position
  | [] => some p
  | c :: cs =>
    if c.isDigit then
      (ofInt? (p.val * 10)).bind fun q =>
        (q.move? (sign * ((c.toNat - '0'.toNat : Nat) : Int))).bind fun r => r.accumulate? sign cs
    else none

/-- The position that digits after an optional sign denote, with every step checked. -/
def ofSigned? : List Char → Option Position
  | '+' :: c :: cs => origin.accumulate? 1 (c :: cs)
  | '-' :: c :: cs => origin.accumulate? (-1) (c :: cs)
  | c :: cs => origin.accumulate? 1 (c :: cs)
  | [] => none

/-- What is larger than something out of range is out of range. -/
private theorem ofInt?_eq_none_of_le {sign : Int} (hsign : sign = 1 ∨ sign = -1) {a b : Nat}
    (hle : a ≤ b) (h : ofInt? (sign * a) = none) : ofInt? (sign * b) = none := by
  rw [ofInt?_eq_none] at h ⊢
  rcases hsign with rfl | rfl <;> omega

/-- Further digits make a number no smaller. -/
private theorem le_ofDigitChars (cs : List Char) (n : Nat) : n ≤ Nat.ofDigitChars 10 cs n := by
  rw [Nat.ofDigitChars_eq_ofDigitChars_zero]
  have hle : n ≤ 10 ^ cs.length * n := Nat.le_mul_of_pos_left n (Nat.pow_pos (by omega))
  omega

/-- **Overflow.** Checking every step comes to checking the number that all digits denote. -/
theorem accumulate?_eq {sign : Int} (hsign : sign = 1 ∨ sign = -1) {p : Position} {n : Nat}
    (hp : p.val = sign * n) (cs : List Char) :
    p.accumulate? sign cs =
      if cs.all Char.isDigit then ofInt? (sign * Nat.ofDigitChars 10 cs n) else none := by
  -- the numbers on the way only grow in size, so the last one is in range only if all are
  induction cs generalizing p n with
  | nil =>
    rw [accumulate?, Nat.ofDigitChars_nil, ← hp, ofInt?_val]
    rfl
  | cons c cs ih =>
    rw [accumulate?, List.all_cons, Nat.ofDigitChars_cons]
    by_cases hc : c.isDigit = true
    · rw [if_pos hc, hc, Bool.true_and]
      have hgrows := le_ofDigitChars cs (10 * n + (c.toNat - '0'.toNat))
      have htimes : p.val * 10 = sign * (10 * n : Nat) := by
        rw [hp, Int.natCast_mul]
        ring
      rw [htimes]
      cases hq : ofInt? (sign * (10 * n : Nat)) with
      | none =>
        have hnone := ofInt?_eq_none_of_le hsign (Nat.le_trans (Nat.le_add_right _ _) hgrows) hq
        rw [Option.bind_none, hnone, ite_self]
      | some q =>
        have hsum : q.val + sign * ((c.toNat - '0'.toNat : Nat) : Int) =
            sign * (10 * n + (c.toNat - '0'.toNat) : Nat) := by
          rw [val_ofInt? hq, Int.natCast_add, Int.mul_add]
        rw [Option.bind_some, move?, hsum]
        cases hr : ofInt? (sign * (10 * n + (c.toNat - '0'.toNat) : Nat)) with
        | none => rw [Option.bind_none, ofInt?_eq_none_of_le hsign hgrows hr, ite_self]
        | some r => rw [Option.bind_some, ih (val_ofInt? hr)]
    · rw [if_neg hc, Bool.not_eq_true] at *
      rw [hc]
      rfl

/-- Digits are read the same whether every step is checked or the number that they denote. -/
private theorem accumulate?_origin {sign : Int} (hsign : sign = 1 ∨ sign = -1) {cs : List Char}
    (hne : cs ≠ []) {f : Nat → Int} (hf : ∀ n, f n = sign * n) :
    origin.accumulate? sign cs = ((Text.ofDigits? cs).map f).bind ofInt? := by
  have hzero : origin.val = sign * (0 : Nat) := by
    rw [Int.natCast_zero, Int.mul_zero]
    rfl
  rw [accumulate?_eq hsign hzero, Text.ofDigits?]
  by_cases hall : cs.all Char.isDigit = true
  · rw [if_pos hall, if_pos ⟨hne, hall⟩, Option.map_some, Option.bind_some, hf]
  · rw [if_neg hall, if_neg fun h => hall h.2, Option.map_none, Option.bind_none]

/-- Numerals are read the same whether every step is checked or the number that they denote. -/
theorem ofSigned?_eq (cs : List Char) : ofSigned? cs = (Text.ofSigned? cs).bind ofInt? := by
  have hplus : ∀ n, Int.ofNat n = 1 * n := fun n => (Int.one_mul n).symm
  have hminus : ∀ n, -Int.ofNat n = -1 * n := fun n => (Int.neg_one_mul n).symm
  unfold ofSigned?
  split
  · exact accumulate?_origin (.inl rfl) (List.cons_ne_nil _ _) hplus
  · exact accumulate?_origin (.inr rfl) (List.cons_ne_nil _ _) hminus
  · rename_i c cs hnotPlus hnotMinus
    by_cases hc : c.isDigit = true
    · rw [Text.ofSigned?_of_isDigit hc]
      exact accumulate?_origin (.inl rfl) (List.cons_ne_nil _ _) hplus
    · -- a sign that no digits follow is read neither as a sign nor as a digit
      have hnone : Text.ofSigned? (c :: cs) = none := by
        rw [Option.eq_none_iff_forall_ne_some]
        intro n hn
        cases Text.ofSigned?_eq_some_iff.mp hn with
        | plain _ hds => exact hc (hds c List.mem_cons_self)
        | plus hne =>
          obtain ⟨d, ds, rfl⟩ := List.exists_cons_of_ne_nil hne
          exact hnotPlus d ds rfl rfl
        | minus hne =>
          obtain ⟨d, ds, rfl⟩ := List.exists_cons_of_ne_nil hne
          exact hnotMinus d ds rfl rfl
      rw [accumulate?, if_neg hc, hnone]
      rfl
  · rfl

/-! ## Any text -/

/-- How a text is read that is not only white space. -/
theorem parse_of_trim_ne_nil {text : String} (h : Text.trim text.toList ≠ []) :
    parse text = ((Text.ofSigned? (Text.trim text.toList)).bind ofInt?).elim
      (.error (.invalidOffset text)) .ok := by
  unfold parse
  split
  · rename_i hnil
    exact absurd hnil h
  · cases (Text.ofSigned? (Text.trim text.toList)).bind ofInt? <;> rfl

/-- A number is made a position exactly if it is one. -/
private theorem bind_ofInt?_eq_some_iff {n? : Option Int} {p : Position} :
    n?.bind ofInt? = some p ↔ n? = some p.val := by
  constructor
  · intro h
    obtain ⟨n, rfl, hn⟩ := Option.bind_eq_some_iff.mp h
    rw [val_ofInt? hn]
  · intro h
    rw [h, Option.bind_some, ofInt?_val]

/-- A text is read as a position exactly if it is a numeral that denotes it. -/
theorem parse_eq_ok_iff {text : String} (h : Text.trim text.toList ≠ []) {p : Position} :
    parse text = .ok p ↔ Text.Numeral (Text.trim text.toList) p.val := by
  rw [parse_of_trim_ne_nil h, ← Text.ofSigned?_eq_some_iff, ← bind_ofInt?_eq_some_iff]
  cases (Text.ofSigned? (Text.trim text.toList)).bind ofInt? <;> simp

/-- A text is refused exactly if no numeral for a position is left of it, and the whole of it is. -/
theorem parse_eq_error_iff {text : String} (h : Text.trim text.toList ≠ []) {e : Error} :
    parse text = .error e ↔ e = .invalidOffset text ∧
      ∀ n, Text.Numeral (Text.trim text.toList) n →
        n < -0x8000000000000000 ∨ 0x7FFFFFFFFFFFFFFF < n := by
  simp only [← Text.ofSigned?_eq_some_iff, ← ofInt?_eq_none]
  cases hread : (Text.ofSigned? (Text.trim text.toList)).bind ofInt? with
  | some p =>
    have hok : parse text = .ok p := by rw [parse_of_trim_ne_nil h, hread]; rfl
    have hnumber := bind_ofInt?_eq_some_iff.mp hread
    simp only [hok, reduceCtorEq, false_iff, not_and, not_forall]
    exact fun _ => ⟨p.val, hnumber, by simp⟩
  | none =>
    have herror : parse text = .error (.invalidOffset text) := by
      rw [parse_of_trim_ne_nil h, hread]
      rfl
    rw [herror, Except.error.injEq]
    constructor
    · intro he
      refine ⟨he.symm, fun n hn => ?_⟩
      rwa [hn, Option.bind_some] at hread
    · exact fun he => he.1.symm

/-- **Offsets.** A text is read without the white space at its ends.  If nothing is left, it is read as
the origin; if a numeral is left that denotes a position, it is read as that position, and otherwise
the whole text is refused.  The same is found by going over the digits and checking every step.  So
each position is read back from its digits, whatever white space is around them. -/
theorem numerals_exact :
    (∀ text : String,
      (∃ space space', (∀ c ∈ space, Text.isWhiteSpace c = true) ∧
        (∀ c ∈ space', Text.isWhiteSpace c = true) ∧
        text.toList = space ++ Text.trim text.toList ++ space') ∧
      Text.IsTrimmed (Text.trim text.toList) ∧
      (Text.trim text.toList = [] → parse text = .ok .origin) ∧
      (Text.trim text.toList ≠ [] →
        (∀ p, parse text = .ok p ↔ Text.Numeral (Text.trim text.toList) p.val) ∧
        (∀ e, parse text = .error e ↔ e = .invalidOffset text ∧
          ∀ n, Text.Numeral (Text.trim text.toList) n →
            n < -0x8000000000000000 ∨ 0x7FFFFFFFFFFFFFFF < n) ∧
        parse text = (ofSigned? (Text.trim text.toList)).elim (.error (.invalidOffset text)) .ok)) ∧
    ∀ (p : Position) (space space' : List Char), (∀ c ∈ space, Text.isWhiteSpace c = true) →
      (∀ c ∈ space', Text.isWhiteSpace c = true) →
        parse (String.ofList (space ++ Text.signed p.val ++ space')) = .ok p := by
  refine ⟨fun text => ⟨Text.exists_eq_trim _, Text.isTrimmed_trim _, fun hnil => ?_, fun hne => ?_⟩,
    fun p space space' hspace hspace' => p.parse_append_signed hspace hspace'⟩
  · rw [parse, hnil]
  · refine ⟨fun p => parse_eq_ok_iff hne, fun e => parse_eq_error_iff hne, ?_⟩
    rw [parse_of_trim_ne_nil hne, ofSigned?_eq]

/-- With zeros before it and white space around it, the number of the first position is read; without
its sign it is one too many, and so is refused with all of the text. -/
theorem numerals_exact_extreme :
    parse "\u3000-0009223372036854775808 \t" = .ok .first ∧
    parse " 9223372036854775808\n" = .error (.invalidOffset " 9223372036854775808\n") ∧
    parse " \u00a0" = .ok .origin ∧
    parse (String.ofList (['\u2003'] ++ Text.signed (-0x8000000000000000) ++ ['\r', '\n'])) =
      .ok .first := by
  obtain ⟨hread, hback⟩ := numerals_exact
  obtain ⟨-, -, -, hfirst⟩ := hread "\u3000-0009223372036854775808 \t"
  obtain ⟨-, -, -, hover⟩ := hread " 9223372036854775808\n"
  obtain ⟨-, -, hblank, -⟩ := hread " \u00a0"
  obtain ⟨hok, -, -⟩ := hfirst (by decide +kernel)
  obtain ⟨-, -, hchecked⟩ := hover (by decide +kernel)
  refine ⟨(hok .first).mpr ?_, ?_, hblank (by decide +kernel), ?_⟩
  · rw [← Text.ofSigned?_eq_some_iff]
    decide +kernel
  · rw [hchecked]
    decide +kernel
  · exact hback .first ['\u2003'] ['\r', '\n'] (List.all_eq_true.mp (by decide))
      (List.all_eq_true.mp (by decide))

end Position

end SingleTape
