import SingleTape.Text
import SingleTape.Proofs.ForStd.List

/-!
# Trimmed text

Trimming takes the white space off both ends of a text and leaves what is in between, which may hold
white space itself.

## Key results

- `Text.trim_append`: what is left of a text between white space
- `Text.exists_eq_trim`: what is taken off is white space
- `Text.isTrimmed_trim`: what is left neither begins nor ends with white space
-/

namespace SingleTape.Text

/-! ## Letters and digits -/

/-- The letters and digits have these codes. -/
private theorem toNat_of_isAlphanum {c : Char} (h : c.isAlphanum = true) :
    (65 ≤ c.toNat ∧ c.toNat ≤ 90) ∨ (97 ≤ c.toNat ∧ c.toNat ≤ 122) ∨
      (48 ≤ c.toNat ∧ c.toNat ≤ 57) := by
  have hkind : (c.isUpper || c.isLower || c.isDigit) = true := h
  rw [Bool.or_eq_true, Bool.or_eq_true] at hkind
  rcases hkind with (hupper | hlower) | hdigit
  · exact .inl (of_decide_eq_true hupper)
  · have hrange : (decide (97 ≤ c.toNat) && decide (c.toNat ≤ 122)) = true := hlower
    rw [Bool.and_eq_true, decide_eq_true_eq, decide_eq_true_eq] at hrange
    exact .inr (.inl hrange)
  · exact .inr (.inr (Char.isDigit_iff_toNat.mp hdigit))

/-- No letter or digit is white space. -/
theorem isWhiteSpace_of_isAlphanum {c : Char} (h : c.isAlphanum = true) :
    isWhiteSpace c = false := by
  have hcode := toNat_of_isAlphanum h
  simp only [isWhiteSpace, whiteSpaceRanges, List.any_cons, List.any_nil,
    Bool.or_false, Bool.or_eq_false_iff, Bool.and_eq_false_iff, decide_eq_false_iff_not]
  omega

/-! ## Trimming -/

/-- There is no white space at either end. -/
structure IsTrimmed (cs : List Char) : Prop where
  head : ∀ c ∈ cs.head?, isWhiteSpace c = false
  last : ∀ c ∈ cs.getLast?, isWhiteSpace c = false

variable {cs space space' : List Char}

instance (cs : List Char) : Decidable (IsTrimmed cs) :=
  decidable_of_iff (cs.head?.all (isWhiteSpace · = false) = true ∧
      cs.getLast?.all (isWhiteSpace · = false) = true) <| by
    simp only [Option.all_eq_true, decide_eq_true_eq]
    exact ⟨fun h => ⟨h.1, h.2⟩, fun h => ⟨h.head, h.last⟩⟩

/-- White space at the beginning is taken off, up to the first other character. -/
theorem trimStart_append (hspace : ∀ c ∈ space, isWhiteSpace c = true)
    (hhead : ∀ c ∈ cs.head?, isWhiteSpace c = false) : trimStart (space ++ cs) = cs :=
  List.dropWhile_append_of_head? hspace hhead

/-- White space before a character that is none is taken off. -/
theorem trimStart_append_cons {c : Char} (hspace : ∀ c ∈ space, isWhiteSpace c = true)
    (hc : isWhiteSpace c = false) : trimStart (space ++ c :: cs) = c :: cs :=
  trimStart_append hspace (by simpa using hc)

/-- White space is trimmed off both ends. -/
theorem trim_append (hspace : ∀ c ∈ space, isWhiteSpace c = true) (h : IsTrimmed cs)
    (hspace' : ∀ c ∈ space', isWhiteSpace c = true) : trim (space ++ cs ++ space') = cs :=
  List.dropWhile_both_append hspace h.head h.last hspace'

theorem trim_of_isTrimmed (h : IsTrimmed cs) : trim cs = cs := by
  have htrim : trim ([] ++ cs ++ []) = cs := trim_append (by simp) h (by simp)
  rwa [List.nil_append, List.append_nil] at htrim

/-- What trimming takes off is white space. -/
theorem exists_eq_trim (cs : List Char) :
    ∃ space space', (∀ c ∈ space, isWhiteSpace c = true) ∧ (∀ c ∈ space', isWhiteSpace c = true) ∧
      cs = space ++ trim cs ++ space' := by
  have hstart : cs = cs.takeWhile isWhiteSpace ++ trimStart cs :=
    List.takeWhile_append_dropWhile.symm
  have hend : ∀ ds : List Char,
      ds = trimEnd ds ++ (ds.reverse.takeWhile isWhiteSpace).reverse := by
    intro ds
    rw [trimEnd, ← List.reverse_append, List.takeWhile_append_dropWhile, List.reverse_reverse]
  have htaken : ∀ ds : List Char, ∀ c ∈ ds.takeWhile isWhiteSpace, isWhiteSpace c = true :=
    fun _ => List.all_eq_true.mp List.all_takeWhile
  refine ⟨cs.takeWhile isWhiteSpace, ((trimStart cs).reverse.takeWhile isWhiteSpace).reverse,
    htaken cs, fun c hc => htaken _ c (List.mem_reverse.mp hc), ?_⟩
  rw [trim, List.append_assoc, ← hend (trimStart cs)]
  exact hstart

/-- What follows the white space at the beginning does not begin with white space. -/
private theorem head_trimStart (cs : List Char) :
    ∀ c ∈ (trimStart cs).head?, isWhiteSpace c = false := by
  intro c hc
  have hhead := List.head?_dropWhile_not isWhiteSpace cs
  rw [Option.mem_def, trimStart] at hc
  rw [hc] at hhead
  exact hhead

/-- A text that was trimmed is trimmed. -/
theorem isTrimmed_trim (cs : List Char) : IsTrimmed (trim cs) := by
  constructor
  · -- it begins as the text did before its end was trimmed
    intro c hc
    obtain ⟨space, hspace⟩ : ∃ space, trimStart cs = trimEnd (trimStart cs) ++ space := by
      refine ⟨((trimStart cs).reverse.takeWhile isWhiteSpace).reverse, ?_⟩
      rw [trimEnd, ← List.reverse_append, List.takeWhile_append_dropWhile, List.reverse_reverse]
    apply head_trimStart cs c
    rw [Option.mem_def, hspace, List.head?_append]
    rw [Option.mem_def, trim] at hc
    rw [hc, Option.some_or]
  · intro c hc
    rw [trim, trimEnd, List.getLast?_reverse] at hc
    exact head_trimStart _ c hc

/-- White space at the end does not matter to what is trimmed. -/
theorem trim_append_whiteSpace (cs : List Char) (hspace : ∀ c ∈ space, isWhiteSpace c = true) :
    trim (cs ++ space) = trim cs := by
  obtain ⟨before, after, hbefore, hafter, hcs⟩ := exists_eq_trim cs
  have hspace' : ∀ c ∈ after ++ space, isWhiteSpace c = true := by
    simp only [List.mem_append]
    exact fun c hc => hc.elim (hafter c) (hspace c)
  have htrim := trim_append hbefore (isTrimmed_trim cs) hspace'
  rwa [← List.append_assoc, ← hcs] at htrim

end SingleTape.Text
