import SingleTape.Json.Parser
import SingleTape.Json.Printer

/-!
# JSON text

Whatever value is written as JSON is read back, whatever its depth, its strings and its numbers.

Writing goes from values to tokens to characters, and reading goes the same way back, so there are
two steps to undo.  A token ends where the next one begins, except that a number followed by a digit
would go on; but between two values there is always a comma, a colon or a bracket.  So the scanner
is followed with an arbitrary text behind the value, of which only that much is asked: that it does
not continue a number.  The reader of tokens keeps what is open on a stack, and is followed with an
arbitrary stack under the value and arbitrary tokens behind it.

## Key results

- `Json.takeQuoted?_text`: quoted text ends at its closing quote
- `Json.takeToken?_text`: a token is taken from the front of what was written
- `Json.scans_tokens`: the tokens of a written value are found again
- `Json.ofTokens?_tokens`: the tokens of a value denote it
- `Json.parse?_render`: a written value is read back
-/

namespace SingleTape.Json

/-! ## Quoted text -/

private theorem hexDigit?_hexDigit {n : Nat} (h : n < 16) : hexDigit? (hexDigit n) = some n := by
  have hall : ∀ k : Fin 16, hexDigit? (hexDigit k.val) = some k.val := by decide
  exact hall ⟨n, h⟩

/-- Four digits denote the unit whose digits they are. -/
private theorem hexUnit?_hexDigit (unit : UInt16) :
    hexUnit? (hexDigit (unit.toNat / 4096)) (hexDigit (unit.toNat / 256 % 16))
      (hexDigit (unit.toNat / 16 % 16)) (hexDigit (unit.toNat % 16)) = some unit := by
  have hlt : unit.toNat < 65536 := unit.toNat_lt
  have hvalue : ((unit.toNat / 4096 * 16 + unit.toNat / 256 % 16) * 16 +
      unit.toNat / 16 % 16) * 16 + unit.toNat % 16 = unit.toNat := by omega
  rw [hexUnit?, hexDigit?_hexDigit (by omega), hexDigit?_hexDigit (by omega),
    hexDigit?_hexDigit (by omega), hexDigit?_hexDigit (by omega)]
  simp only [Option.bind_eq_bind, Option.bind_some, Option.pure_def, hvalue, UInt16.ofNat_toNat]

private theorem takeQuoted?_short {e : Char} {unit : UInt16} (h : shortEscape? e = some unit)
    (he : e ≠ 'u') (cs : List Char) :
    takeQuoted? ('\\' :: e :: cs) = (takeQuoted? cs).map fun m => (.escape unit :: m.1, m.2) := by
  rw [takeQuoted?.eq_def]
  simp [show isPlain '\\' = false from rfl, he, h]

private theorem takeQuoted?_long {p q r s : Char} {unit : UInt16}
    (h : hexUnit? p q r s = some unit) (cs : List Char) :
    takeQuoted? ('\\' :: 'u' :: p :: q :: r :: s :: cs) =
      (takeQuoted? cs).map fun m => (.escape unit :: m.1, m.2) := by
  rw [takeQuoted?.eq_def]
  simp [show isPlain '\\' = false from rfl, h]

/-- An escape is taken as the unit it stands for. -/
private theorem takeQuoted?_escape (unit : UInt16) (cs : List Char) :
    takeQuoted? (escape unit ++ cs) =
      (takeQuoted? cs).map fun m => (.escape unit :: m.1, m.2) := by
  -- seven units have a short form, all others four digits
  unfold escape
  iterate 7
    split
    · subst unit
      exact takeQuoted?_short rfl (by decide) cs
  exact takeQuoted?_long (hexUnit?_hexDigit unit) cs

/-- A piece of quoted text is taken from the front. -/
private theorem takeQuoted?_piece (piece : Piece) (cs : List Char) :
    takeQuoted? (piece.text ++ cs) = (takeQuoted? cs).map fun m => (piece :: m.1, m.2) := by
  cases piece with
  | plain c h =>
    rw [Piece.text, List.singleton_append, takeQuoted?.eq_def]
    simp [h]
  | escape unit => exact takeQuoted?_escape unit cs

/-- Quoted text is taken up to its closing quote. -/
theorem takeQuoted?_text (text : Quoted) (rest : List Char) :
    takeQuoted? (text.flatMap Piece.text ++ '"' :: rest) = some (text, rest) := by
  induction text with
  | nil =>
    rw [List.flatMap_nil, List.nil_append, takeQuoted?.eq_def]
    simp [show isPlain '"' = false from rfl]
  | cons piece text ih =>
    rw [List.flatMap_cons, List.append_assoc, takeQuoted?_piece, ih, Option.map_some]

/-! ## Numbers -/

/-- Nothing at the front of the text continues a number. -/
def EndsNumber (cs : List Char) : Prop :=
  ∀ c ∈ cs.head?, c.isDigit = false ∧ c ≠ '.' ∧ c ≠ 'e' ∧ c ≠ 'E'

private theorem endsNumber_cons {c : Char} {cs : List Char}
    (h : c.isDigit = false ∧ c ≠ '.' ∧ c ≠ 'e' ∧ c ≠ 'E') : EndsNumber (c :: cs) := by
  intro d hd
  cases hd
  exact h

/-- A written number does not begin with a zero, unless it is zero. -/
private theorem head?_digits {n : Nat} (h : 0 < n) : (Text.digits n).head? ≠ some '0' := by
  induction n using Nat.strongRecOn with
  | ind n ih =>
    rw [Text.digits]
    by_cases hn : n < 10
    · rw [Nat.toDigits_of_lt_base hn, List.head?_cons, ne_eq, Option.some.injEq,
        Nat.digitChar_eq_zero]
      omega
    · -- the first digit is that of the number without its last one
      have hhead := ih (n / 10) (by omega) (by omega)
      rw [Text.digits] at hhead
      obtain ⟨c, cs, hcs⟩ :=
        List.exists_cons_of_ne_nil (Nat.toDigits_ne_nil (n := n / 10) (b := 10))
      rw [hcs] at hhead
      rw [Nat.toDigits_of_base_le (by omega) (by omega), hcs]
      exact hhead

theorem ofCanonicalDigits?_digits (n : Nat) : Text.ofCanonicalDigits? (Text.digits n) = some n := by
  rw [Text.ofCanonicalDigits?, Text.ofDigits?_digits, if_neg]
  rintro ⟨hhead, hne⟩
  rcases Nat.eq_zero_or_pos n with rfl | hpos
  · exact hne rfl
  · exact head?_digits hpos hhead

theorem isDigit_of_mem_digits {n : Nat} {c : Char} (h : c ∈ Text.digits n) :
    c.isDigit = true :=
  Nat.isDigit_of_mem_toDigits (by decide) (by decide) h

/-- The digits of a number are taken up to what ends it. -/
private theorem takeDigits_digits (n : Nat) {rest : List Char} (h : EndsNumber rest) :
    takeDigits (Text.digits n ++ rest) = (Text.digits n, rest) := by
  have hrest : rest.takeWhile Char.isDigit = [] ∧ rest.dropWhile Char.isDigit = rest := by
    cases rest with
    | nil => exact ⟨rfl, rfl⟩
    | cons c rest => simp [(h c (by simp)).1]
  rw [takeDigits, List.takeWhile_append_of_pos fun c => isDigit_of_mem_digits,
    List.dropWhile_append_of_pos fun c => isDigit_of_mem_digits, hrest.1, hrest.2, List.append_nil]

private theorem takeFraction?_of_endsNumber {rest : List Char} (h : EndsNumber rest) :
    takeFraction? rest = some (false, rest) := by
  unfold takeFraction?
  split
  · exact absurd rfl (h '.' (by simp)).2.1
  · rfl

private theorem takeExponent?_of_endsNumber {rest : List Char} (h : EndsNumber rest) :
    takeExponent? rest = some (false, rest) := by
  cases rest with
  | nil => rfl
  | cons c rest => simp [takeExponent?, (h c (by simp)).2.2]

/-- A number without its sign is taken up to what ends it. -/
private theorem takeUnsigned?_digits (negative : Bool) (n : Nat) {rest : List Char}
    (h : EndsNumber rest) (hzero : negative = true → n ≠ 0) :
    takeUnsigned? negative (Text.digits n ++ rest) =
      some (.int (if negative then -n else n), rest) := by
  rw [takeUnsigned?, takeDigits_digits n h]
  cases negative with
  | false =>
    simp [ofCanonicalDigits?_digits, takeFraction?_of_endsNumber h, takeExponent?_of_endsNumber h]
  | true =>
    simp [ofCanonicalDigits?_digits, takeFraction?_of_endsNumber h, takeExponent?_of_endsNumber h,
      hzero rfl]

/-- What a written number can begin with. -/
private theorem exists_cons_digits (n : Nat) :
    ∃ c cs, Text.digits n = c :: cs ∧ c.isDigit = true := by
  obtain ⟨c, cs, hcs⟩ := List.exists_cons_of_ne_nil (Nat.toDigits_ne_nil (n := n) (b := 10))
  exact ⟨c, cs, hcs, isDigit_of_mem_digits (n := n) (by rw [Text.digits, hcs]; simp)⟩

/-- A number without a sign is taken as one. -/
private theorem takeNumber?_of_isDigit {c : Char} (h : c.isDigit = true) (cs : List Char) :
    takeNumber? (c :: cs) = takeUnsigned? false (c :: cs) := by
  unfold takeNumber?
  split
  · rename_i hcons
    cases hcons
    exact absurd h (by decide)
  · rfl

/-- What begins with a digit or a minus sign is a number. -/
private theorem takeToken?_of_number {c : Char} (h : c.isDigit = true ∨ c = '-') (cs : List Char) :
    takeToken? (c :: cs) = takeNumber? (c :: cs) := by
  have hmark : mark? c = none := by
    simp only [mark?]
    iterate 6
      rw [if_neg (by rintro rfl; exact absurd h (by decide))]
  unfold takeToken?
  split
  · rename_i hnil
    cases hnil
  · rename_i hcons
    cases hcons
    exact absurd h (by decide)
  · rename_i hcons
    cases hcons
    exact absurd h (by decide)
  · rename_i hcons
    cases hcons
    exact absurd h (by decide)
  · rename_i hcons
    cases hcons
    exact absurd h (by decide)
  · rename_i hcons
    cases hcons
    rw [hmark]

/-- An integer is taken up to what ends it. -/
private theorem takeToken?_int (n : Int) {rest : List Char} (h : EndsNumber rest) :
    takeToken? (Text.signed n ++ rest) = some (.int n, rest) := by
  cases n with
  | ofNat n =>
    have hnumber := takeUnsigned?_digits false n h (by simp)
    obtain ⟨c, cs, hcs, hc⟩ := exists_cons_digits n
    rw [hcs, List.cons_append] at hnumber
    rw [Text.signed, hcs, List.cons_append, takeToken?_of_number (.inl hc),
      takeNumber?_of_isDigit hc, hnumber]
    rfl
  | negSucc n =>
    have hnumber := takeUnsigned?_digits true (n + 1) h (by omega)
    rw [Text.signed, List.cons_append, takeToken?_of_number (.inr rfl)]
    exact hnumber

/-- A number that is not an integer is taken up to what ends it. -/
private theorem takeToken?_real {rest : List Char} (h : EndsNumber rest) :
    takeToken? ('0' :: '.' :: '0' :: rest) = some (.real, rest) := by
  have hzero : takeDigits ('0' :: '.' :: '0' :: rest) = (['0'], '.' :: '0' :: rest) := by
    simp [takeDigits]
  have hfraction : takeFraction? ('.' :: '0' :: rest) = some (true, rest) := by
    have hdigits : takeDigits ('0' :: rest) = (['0'], rest) := takeDigits_digits 0 h
    rw [takeFraction?, hdigits]
  have hvalue : Text.ofCanonicalDigits? ['0'] = some 0 := ofCanonicalDigits?_digits 0
  rw [takeToken?_of_number (.inl rfl), takeNumber?_of_isDigit rfl, takeUnsigned?, hzero]
  simp [hvalue, hfraction, takeExponent?_of_endsNumber h]

/-! ## Tokens -/

/-- The token is a number, of which more characters may make another number. -/
def Token.isNumber : Token → Bool
  | .int _ => true
  | .real => true
  | _ => false

/-- A written token is taken from the front of a text, unless it is a number that goes on there. -/
theorem takeToken?_text (token : Token) {rest : List Char}
    (h : token.isNumber = true → EndsNumber rest) :
    takeToken? (token.text ++ rest) = some (token, rest) := by
  cases token with
  | openArray => rfl
  | closeArray => rfl
  | openObject => rfl
  | closeObject => rfl
  | comma => rfl
  | colon => rfl
  | null => rfl
  | bool b => cases b <;> rfl
  | int n => exact takeToken?_int n (h rfl)
  | real => exact takeToken?_real (h rfl)
  | str text =>
    have hquoted := takeQuoted?_text text rest
    simp only [Token.text, List.cons_append, List.append_assoc, List.nil_append, takeToken?,
      hquoted, Option.map_some]

private theorem isSpace_of_isDigit {c : Char} (h : c.isDigit = true) : isSpace c = false := by
  rw [← Bool.not_eq_true]
  intro hspace
  simp only [isSpace, Bool.or_eq_true, decide_eq_true_eq] at hspace
  rcases hspace with ((rfl | rfl) | rfl) | rfl <;> exact absurd h (by decide)

/-- No token begins with a space. -/
private theorem exists_cons_text (token : Token) :
    ∃ c cs, token.text = c :: cs ∧ isSpace c = false := by
  cases token with
  | bool b => cases b <;> exact ⟨_, _, rfl, rfl⟩
  | int n =>
    cases n with
    | ofNat n =>
      obtain ⟨c, cs, hcs, hc⟩ := exists_cons_digits n
      exact ⟨c, cs, hcs, isSpace_of_isDigit hc⟩
    | negSucc n => exact ⟨_, _, rfl, rfl⟩
  | _ => exact ⟨_, _, rfl, rfl⟩

/-- The scanner finds a written token. -/
theorem scan_text (token : Token) {rest : List Char}
    (h : token.isNumber = true → EndsNumber rest) :
    scan (token.text ++ rest) = (scan rest).map (token :: ·) := by
  have htake := takeToken?_text token h
  obtain ⟨c, cs, hcs, hc⟩ := exists_cons_text token
  rw [hcs, List.cons_append] at htake ⊢
  have hdrop : (c :: (cs ++ rest)).dropWhile isSpace = c :: (cs ++ rest) := by simp [hc]
  rw [scan]
  split
  · rename_i hnil
    rw [hdrop] at hnil
    cases hnil
  · rename_i hcons
    rw [hdrop] at hcons
    cases hcons
    split
    · rename_i hnone
      rw [htake] at hnone
      cases hnone
    · rename_i hsome
      rw [htake] at hsome
      cases hsome
      rfl

/-! ## Values as tokens -/

/-- Tokens as they are written. -/
def textOf (tokens : List Token) : List Char :=
  tokens.flatMap Token.text

/-- The scanner finds the given tokens in front of a text. -/
def Scans (tokens : List Token) (rest : List Char) : Prop :=
  scan (textOf tokens ++ rest) = (scan rest).map (tokens ++ ·)

theorem Scans.single {token : Token} {rest : List Char}
    (h : token.isNumber = true → EndsNumber rest) : Scans [token] rest := by
  rw [Scans, textOf, List.flatMap_singleton, scan_text token h]
  rfl

theorem Scans.append {tokens tokens' : List Token} {rest : List Char}
    (h : Scans tokens (textOf tokens' ++ rest)) (h' : Scans tokens' rest) :
    Scans (tokens ++ tokens') rest := by
  have htext : textOf (tokens ++ tokens') ++ rest = textOf tokens ++ (textOf tokens' ++ rest) := by
    simp [textOf]
  rw [Scans, htext, h, h', Option.map_map]
  simp [Function.comp_def]

/-- Where a token is not a number, anything may follow it. -/
theorem Scans.mark {token : Token} (hmark : token.isNumber = false) {tokens : List Token}
    {rest : List Char} (h : Scans tokens rest) : Scans (token :: tokens) rest :=
  (Scans.single (by simp [hmark])).append h

/-- What stands after an item of an array ends a number. -/
private theorem endsNumber_moreItems (items : List Json) (rest : List Char) :
    EndsNumber (textOf (moreItems items) ++ rest) := by
  cases items with
  | nil =>
    rw [moreItems]
    exact endsNumber_cons (c := ']') (by decide)
  | cons item items =>
    rw [moreItems]
    exact endsNumber_cons (c := ',') (by decide)

/-- What stands after a member of an object ends a number. -/
private theorem endsNumber_moreMembers (members : List (Quoted × Json)) (rest : List Char) :
    EndsNumber (textOf (moreMembers members) ++ rest) := by
  cases members with
  | nil =>
    rw [moreMembers]
    exact endsNumber_cons (c := '\x7d') (by decide)
  | cons m members =>
    rw [moreMembers]
    exact endsNumber_cons (c := ',') (by decide)

mutual

/-- The tokens of a written value are found again, whatever follows that does not continue a
number. -/
theorem scans_tokens (v : Json) {rest : List Char} (h : EndsNumber rest) : Scans (tokens v) rest :=
  match v with
  | .null => .single fun _ => h
  | .bool _ => .single fun _ => h
  | .int _ => .single fun _ => h
  | .real => .single fun _ => h
  | .str _ => .single fun _ => h
  | .arr [] => .mark rfl (.single fun _ => h)
  | .arr (item :: items) => by
    rw [tokens]
    have hitem := scans_tokens item (endsNumber_moreItems items rest)
    exact .mark rfl (hitem.append (scans_moreItems items h))
  | .obj [] => .mark rfl (.single fun _ => h)
  | .obj (m :: members) => by
    rw [tokens]
    have hmember := scans_memberTokens m (endsNumber_moreMembers members rest)
    exact .mark rfl (hmember.append (scans_moreMembers members h))

private theorem scans_moreItems (items : List Json) {rest : List Char} (h : EndsNumber rest) :
    Scans (moreItems items) rest :=
  match items with
  | [] => .single fun _ => h
  | item :: items => by
    rw [moreItems]
    have hitem := scans_tokens item (endsNumber_moreItems items rest)
    exact .mark rfl (hitem.append (scans_moreItems items h))

private theorem scans_memberTokens (m : Quoted × Json) {rest : List Char} (h : EndsNumber rest) :
    Scans (memberTokens m) rest :=
  match m with
  | (_, v) => by
    rw [memberTokens]
    exact .mark rfl (.mark rfl (scans_tokens v h))

private theorem scans_moreMembers (members : List (Quoted × Json)) {rest : List Char}
    (h : EndsNumber rest) : Scans (moreMembers members) rest :=
  match members with
  | [] => .single fun _ => h
  | m :: members => by
    rw [moreMembers]
    have hmember := scans_memberTokens m (endsNumber_moreMembers members rest)
    exact .mark rfl (hmember.append (scans_moreMembers members h))

end

/-! ## Tokens as values -/

/-- After the bracket that opens an array, a value begins its first item. -/
private theorem foldlM_itemOrEnd (v : Json) (outer : List Frame) (rest : List Token) :
    (tokens v ++ rest).foldlM Expected.next? (.itemOrEnd outer) =
      (tokens v ++ rest).foldlM Expected.next? (.value (.item [] :: outer)) := by
  -- no value begins with the bracket that closes an array
  cases v with
  | arr items => cases items <;> rfl
  | obj members => cases members <;> rfl
  | _ => rfl

mutual

/-- Where a value is expected, its tokens are read as that value, whatever is open around it and
whatever tokens follow. -/
theorem foldlM_tokens (v : Json) (outer : List Frame) (rest : List Token) :
    (tokens v ++ rest).foldlM Expected.next? (.value outer) =
      rest.foldlM Expected.next? (.commaOrEnd v outer) :=
  match v with
  | .null => rfl
  | .bool _ => rfl
  | .int _ => rfl
  | .real => rfl
  | .str _ => rfl
  | .arr [] => rfl
  | .arr (item :: items) => by
    have hopen : (tokens (.arr (item :: items)) ++ rest).foldlM Expected.next? (.value outer) =
        (tokens item ++ (moreItems items ++ rest)).foldlM Expected.next? (.itemOrEnd outer) := by
      rw [tokens, List.cons_append, List.append_assoc]
      rfl
    rw [hopen, foldlM_itemOrEnd, foldlM_tokens item, foldlM_moreItems items]
    rfl
  | .obj [] => rfl
  | .obj ((key, v) :: members) => by
    have hopen : (tokens (.obj ((key, v) :: members)) ++ rest).foldlM Expected.next?
          (.value outer) =
        (tokens v ++ (moreMembers members ++ rest)).foldlM Expected.next?
          (.value (.member [] key :: outer)) := by
      rw [tokens, memberTokens]
      simp only [List.cons_append, List.append_assoc]
      rfl
    rw [hopen, foldlM_tokens v, foldlM_moreMembers members]
    rfl

/-- After an item of an array, the tokens up to the array's end are read as further items. -/
private theorem foldlM_moreItems (items : List Json) (v : Json) (before : List Json)
    (outer : List Frame) (rest : List Token) :
    (moreItems items ++ rest).foldlM Expected.next? (.commaOrEnd v (.item before :: outer)) =
      rest.foldlM Expected.next? (.commaOrEnd (.arr ((v :: before).reverse ++ items)) outer) :=
  match items with
  | [] => by
    rw [List.append_nil]
    rfl
  | item :: items => by
    have hcomma : (moreItems (item :: items) ++ rest).foldlM Expected.next?
        (.commaOrEnd v (.item before :: outer)) =
        (tokens item ++ (moreItems items ++ rest)).foldlM Expected.next?
          (.value (.item (v :: before) :: outer)) := by
      rw [moreItems, List.cons_append, List.append_assoc]
      rfl
    rw [hcomma, foldlM_tokens item, foldlM_moreItems items]
    simp

/-- After a member of an object, the tokens up to the object's end are read as further members. -/
private theorem foldlM_moreMembers (members : List (Quoted × Json)) (v : Json)
    (before : List (Quoted × Json)) (key : Quoted) (outer : List Frame) (rest : List Token) :
    (moreMembers members ++ rest).foldlM Expected.next?
        (.commaOrEnd v (.member before key :: outer)) =
      rest.foldlM Expected.next?
        (.commaOrEnd (.obj (((key, v) :: before).reverse ++ members)) outer) :=
  match members with
  | [] => by
    rw [List.append_nil]
    rfl
  | (key', v') :: members => by
    have hcomma : (moreMembers ((key', v') :: members) ++ rest).foldlM Expected.next?
        (.commaOrEnd v (.member before key :: outer)) =
        (tokens v' ++ (moreMembers members ++ rest)).foldlM Expected.next?
          (.value (.member ((key, v) :: before) key' :: outer)) := by
      rw [moreMembers, memberTokens]
      simp only [List.cons_append, List.append_assoc]
      rfl
    rw [hcomma, foldlM_tokens v', foldlM_moreMembers members]
    simp

end

/-- The tokens of a value denote it. -/
theorem ofTokens?_tokens (v : Json) : ofTokens? (tokens v) = some v := by
  have hfold := foldlM_tokens v [] []
  rw [List.append_nil] at hfold
  rw [ofTokens?, hfold]
  rfl

/-- A written value is read back. -/
theorem parse?_render (v : Json) : parse? v.render = some v := by
  have hend : EndsNumber [] := by simp [EndsNumber]
  have hnil : scan [] = some [] := by
    rw [scan]
    rfl
  have hscan : scan (textOf (tokens v)) = some (tokens v) := by
    simpa [Scans, hnil] using scans_tokens v hend
  rw [parse?, render, String.toList_ofList, ← textOf, hscan]
  exact ofTokens?_tokens v

end SingleTape.Json
