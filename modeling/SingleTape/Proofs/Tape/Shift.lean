import Mathlib.Data.List.Sort
import SingleTape.Proofs.Tape.Symbols

/-!
# Moving a tape

Two tapes that differ only by where they lie on the row of cells are told apart by nothing but cell
numbers.  `Tape.ShiftedBy d` says that the second tape is the first one moved `d` cells to the
right, in terms of the kept cells, so that a blank that was written moves along like any symbol.
Writing and loading at places that differ by `d` keeps two tapes so.

`Tape.bounds` reduces the numbers of the outermost cells to 64 bits.  On a tape that keeps cells at
positions only (`Tape.OnPositions`), as every machine's does that began with a program, this changes
nothing, and the bounds move along as well.

## Key results

- `Tape.ShiftedBy.load`: what is loaded at two places is the same but for the places
- `Tape.ShiftedBy.bounds`: the bounds of a moved tape
-/

namespace SingleTape.Tape

variable {t t₁ t₂ : Tape} {d : Int}

/-! ## Tapes with cells at positions -/

/-- A head can stand on every kept cell. -/
def OnPositions (t : Tape) : Prop :=
  ∀ i ∈ t.cells, -0x8000000000000000 ≤ i ∧ i ≤ 0x7FFFFFFFFFFFFFFF

theorem onPositions_empty : empty.OnPositions := by
  intro i hi
  exact absurd hi Std.ExtTreeMap.not_mem_empty

theorem OnPositions.write (h : t.OnPositions) (p : Position) (c : Char) :
    (t.write p c).OnPositions := by
  intro i hi
  rw [cells_write, Std.ExtTreeMap.mem_insert, Std.LawfulEqCmp.compare_eq_iff_eq] at hi
  rcases hi with hp | hold
  · rw [← hp]
    exact ⟨p.first_le, p.le_last⟩
  · exact h i hold

theorem OnPositions.load (h : t.OnPositions) (p : Position) (cs : List Char) :
    (t.load p cs).OnPositions := by
  induction cs generalizing t p with
  | nil => exact h
  | cons c cs ih =>
    have hwrite := h.write p (Symbol.stored c)
    simp only [Tape.load]
    split
    · exact hwrite
    · exact ih hwrite _

/-- A position is not changed by reducing it to 64 bits. -/
theorem wrap_eq {i : Int} (h : -0x8000000000000000 ≤ i ∧ i ≤ 0x7FFFFFFFFFFFFFFF) :
    wrap i = i := by
  rw [wrap, Int.bmod_eq_of_le]
  · simp only [UInt64.size]
    omega
  · simp only [UInt64.size]
    omega

/-- The bounds are the first and the last of the kept cells. -/
theorem OnPositions.bounds_eq (h : t.OnPositions) :
    t.bounds = t.cells.keys.head?.bind fun first =>
      t.cells.keys.getLast?.map fun last => (first, last) := by
  unfold bounds
  cases hfirst : t.cells.keys.head? with
  | none => rfl
  | some first =>
    cases hlast : t.cells.keys.getLast? with
    | none => rfl
    | some last =>
      have hfirst' := h first (Std.ExtTreeMap.mem_keys.mp (List.mem_of_head? hfirst))
      have hlast' := h last (Std.ExtTreeMap.mem_keys.mp (List.mem_of_getLast? hlast))
      show some (wrap first, wrap last) = some (first, last)
      rw [wrap_eq hfirst', wrap_eq hlast']

/-! ## Two tapes -/

/-- The second tape is the first one moved `d` cells to the right. -/
def ShiftedBy (d : Int) (t₁ t₂ : Tape) : Prop :=
  ∀ i : Int, t₂.cells[i + d]? = t₁.cells[i]?

theorem ShiftedBy.read (h : ShiftedBy d t₁ t₂) (i : Int) : t₂.read (i + d) = t₁.read i := by
  rw [Tape.read, Tape.read, h i]

theorem ShiftedBy.write (h : ShiftedBy d t₁ t₂) {p₁ p₂ : Position} (hp : p₂.val = p₁.val + d)
    (c : Char) : ShiftedBy d (t₁.write p₁ c) (t₂.write p₂ c) := by
  intro i
  -- the written cell is the same one on both tapes
  have hsame : p₂.val = i + d ↔ p₁.val = i := by omega
  rw [cells_write, cells_write, Std.ExtTreeMap.getElem?_insert, Std.ExtTreeMap.getElem?_insert, h i]
  simp only [Std.LawfulEqCmp.compare_eq_iff_eq, hsame]

theorem load_singleton (t : Tape) (p : Position) (c : Char) :
    t.load p [c] = t.write p (Symbol.stored c) := by
  simp only [Tape.load]
  split <;> rfl

/-- There is a next position where there is room for two cells. -/
private theorem exists_next {p : Position} {n : Nat} (hn : n ≠ 0)
    (hroom : p.val + (n + 1 : Nat) ≤ 0x8000000000000000) :
    ∃ q, p.move? 1 = some q ∧ q.val = p.val + 1 := by
  cases hmove : p.move? 1 with
  | some q => exact ⟨q, rfl, Position.val_ofInt? hmove⟩
  | none =>
    rw [Position.move?, Position.ofInt?_eq_none] at hmove
    have hfirst := p.first_le
    omega

/-- What is loaded at two places is the same but for the places, if there is room at both. -/
theorem ShiftedBy.load (h : ShiftedBy d t₁ t₂) {p₁ p₂ : Position} (hp : p₂.val = p₁.val + d)
    {cs : List Char} (hfits₁ : p₁.val + cs.length ≤ 0x8000000000000000)
    (hfits₂ : p₂.val + cs.length ≤ 0x8000000000000000) :
    ShiftedBy d (t₁.load p₁ cs) (t₂.load p₂ cs) := by
  induction cs generalizing t₁ t₂ p₁ p₂ with
  | nil => exact h
  | cons c cs ih =>
    have hwrite := h.write hp (Symbol.stored c)
    by_cases hnil : cs = []
    · -- the last symbol may stand on the last position, on either tape
      rw [hnil, load_singleton, load_singleton]
      exact hwrite
    · have hlength : cs.length ≠ 0 := fun hzero => hnil (List.length_eq_zero_iff.mp hzero)
      rw [List.length_cons] at hfits₁ hfits₂
      obtain ⟨q₁, hmove₁, hq₁⟩ := exists_next hlength hfits₁
      obtain ⟨q₂, hmove₂, hq₂⟩ := exists_next hlength hfits₂
      simp only [Tape.load, hmove₁, hmove₂]
      exact ih hwrite (by omega) (by omega) (by omega)

/-- The cells of a moved tape, in order. -/
theorem ShiftedBy.keys (h : ShiftedBy d t₁ t₂) :
    t₂.cells.keys = t₁.cells.keys.map fun i => i + d := by
  have hsorted : ∀ t : Tape, t.cells.keys.Pairwise (· < ·) := fun t =>
    t.cells.ordered_keys.imp fun hab => Int.compare_eq_lt.mp hab
  have hmem : ∀ (t : Tape) (i : Int), i ∈ t.cells.keys ↔ t.cells[i]?.isSome = true := by
    intro t i
    rw [Std.ExtTreeMap.mem_keys, Std.ExtTreeMap.isSome_getElem?_iff_mem]
  -- both lists are sorted, so it is enough to compare their members
  apply List.Pairwise.eq_of_mem_iff (hsorted t₂)
  · rw [List.pairwise_map]
    exact (hsorted t₁).imp fun hab => by omega
  · intro j
    rw [List.mem_map, hmem]
    constructor
    · intro hj
      exact ⟨j - d, by rwa [hmem, ← h, Int.sub_add_cancel], Int.sub_add_cancel j d⟩
    · intro hj
      obtain ⟨i, hi, hij⟩ := hj
      rwa [← hij, h, ← hmem]

/-- The bounds of a moved tape are moved likewise. -/
theorem ShiftedBy.bounds (h : ShiftedBy d t₁ t₂) (h₁ : t₁.OnPositions) (h₂ : t₂.OnPositions) :
    t₂.bounds = t₁.bounds.map fun ends => (ends.1 + d, ends.2 + d) := by
  rw [h₁.bounds_eq, h₂.bounds_eq, h.keys, List.head?_map, List.getLast?_map]
  cases t₁.cells.keys.head? with
  | none => rfl
  | some first => cases t₁.cells.keys.getLast? <;> rfl

end SingleTape.Tape
