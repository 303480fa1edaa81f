import Mathlib.Data.List.TakeWhile

/-!
# List lemmas for the standard library

Taking elements off both ends of a list, up to the first and the last one that are to be kept.
-/

namespace List

variable {α : Type} {p : α → Bool} {xs ys zs : List α}

/-- Dropping ends with the first element that is to be kept. -/
theorem dropWhile_append_of_head? (hxs : ∀ a ∈ xs, p a = true) (hys : ∀ a ∈ ys.head?, p a = false) :
    (xs ++ ys).dropWhile p = ys := by
  rw [dropWhile_append_of_pos hxs]
  cases ys with
  | nil => rfl
  | cons a ys =>
    have ha : p a = false := hys a (by simp)
    simp [ha]

/-- Dropping from both ends leaves what is between the first and the last element that are to be
kept. -/
theorem dropWhile_both_append (hxs : ∀ a ∈ xs, p a = true) (hhead : ∀ a ∈ ys.head?, p a = false)
    (hlast : ∀ a ∈ ys.getLast?, p a = false) (hzs : ∀ a ∈ zs, p a = true) :
    (((xs ++ ys ++ zs).dropWhile p).reverse.dropWhile p).reverse = ys := by
  rw [append_assoc]
  cases ys with
  | nil =>
    -- nothing is to be kept
    have hall : ∀ a ∈ xs ++ zs, p a = true := by
      simp only [mem_append]
      exact fun a ha => ha.elim (hxs a) (hzs a)
    rw [nil_append, dropWhile_eq_nil_iff.mpr hall]
    rfl
  | cons a ys =>
    have hstart : (xs ++ (a :: ys ++ zs)).dropWhile p = a :: ys ++ zs :=
      dropWhile_append_of_head? hxs hhead
    have hend : (zs.reverse ++ (a :: ys).reverse).dropWhile p = (a :: ys).reverse := by
      apply dropWhile_append_of_head? fun b hb => hzs b (mem_reverse.mp hb)
      rw [head?_reverse]
      exact hlast
    rw [hstart, reverse_append, hend, reverse_reverse]

end List
