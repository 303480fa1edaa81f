/-!
# Head positions

The cells of a tape that a head can reach are numbered by the integers from `-2 ^ 63` to
`2 ^ 63 - 1`.  A `Position` is such a number together with the proof that it is one, so a
movement past either end is visible as `none` and never wraps around.

* `val_ofInt?`     a position made from an integer is that integer
* `ofInt?_val`     every position is made from its own number
* `ofInt?_eq_none` only integers outside the range are refused
-/

namespace SingleTape

/-- A cell that a head can stand on. -/
@[ext]
structure Position where
  /-- The number of the cell. -/
  val : Int
  /-- No cell lies left of `-2 ^ 63`. -/
  first_le : -0x8000000000000000 ≤ val
  /-- No cell lies right of `2 ^ 63 - 1`. -/
  le_last : val ≤ 0x7FFFFFFFFFFFFFFF
deriving DecidableEq

namespace Position

instance : Coe Position Int := ⟨val⟩

/-- The cell on which counting starts. -/
def origin : Position := ⟨0, by decide, by decide⟩

instance : Inhabited Position := ⟨origin⟩

/-- The leftmost cell. -/
def first : Position := ⟨-0x8000000000000000, by decide, by decide⟩

/-- The rightmost cell. -/
def last : Position := ⟨0x7FFFFFFFFFFFFFFF, by decide, by decide⟩

/-- The position with number `n`, if a head can reach it. -/
def ofInt? (n : Int) : Option Position :=
  if h : -0x8000000000000000 ≤ n ∧ n ≤ 0x7FFFFFFFFFFFFFFF then some ⟨n, h.1, h.2⟩ else none

/-- The position `d` cells to the right of `p`, if there is one. -/
def move? (p : Position) (d : Int) : Option Position :=
  ofInt? (p.val + d)

@[simp] theorem ofInt?_val (p : Position) : ofInt? p.val = some p :=
  dif_pos ⟨p.first_le, p.le_last⟩

theorem val_ofInt? {n : Int} {p : Position} (h : ofInt? n = some p) : p.val = n := by
  unfold ofInt? at h
  split at h
  · cases h; rfl
  · cases h

theorem ofInt?_eq_none {n : Int} :
    ofInt? n = none ↔ n < -0x8000000000000000 ∨ 0x7FFFFFFFFFFFFFFF < n := by
  unfold ofInt?
  split <;> simp <;> omega

@[simp] theorem move?_zero (p : Position) : p.move? 0 = some p := by
  simp [move?]

end Position

end SingleTape
