import Mathlib.Data.List.Nodup
import SingleTape.Encoding
import SingleTape.Proofs.ForStd.ExtTreeMap

/-!
# A tape as two sides

A tape may be kept as two maps, one for each side of the origin, with words as keys.  A cell from
the origin on has its own number as key on the right side, and a cell before the origin has the
complement of its number, `-1 - i`, as key on the left side; so both sides count outward from the
origin.  This is how tapes are written as JSON, and it is what `Sides` is: the same operations as
those of `Tape`, carried out on two maps.

`Tape.HasSides t s` couples the two forms: `s` keeps exactly the cells of `t`.  Since `t` keeps cells
of one bit more than positions have, nothing is lost in either direction, and the coupling holds for
tapes that come from outside as well.  Every operation keeps two forms coupled, and every question
has one answer.

## Key results

- `Tape.HasSides.write`, `Tape.HasSides.load`: both forms change alike
- `Tape.HasSides.bounds`: the outermost cells of two sides, whichever of them are empty
- `Tape.HasSides.countSymbols`: the symbols of both sides together
- `Tape.HasSides.eq_iff`: two tapes are the same in one form exactly if they are in the other
-/

namespace SingleTape

/-- A tape kept as two maps, each with keys that count outward from the origin. -/
@[ext]
structure Sides where
  /-- The cells before the origin. -/
  left : Std.ExtTreeMap UInt64 Char
  /-- The cells from the origin on. -/
  right : Std.ExtTreeMap UInt64 Char
deriving DecidableEq

namespace Sides

/-- The sides of the tape on which nothing was written. -/
def empty : Sides := ⟨∅, ∅⟩

/-- The key of a position on its own side. -/
def key (p : Position) : UInt64 :=
  if p.val < 0 then UInt64.ofNat (-1 - p.val).toNat else UInt64.ofNat p.val.toNat

/-- The character in a cell. -/
def read (s : Sides) (p : Position) : Char :=
  (if p.val < 0 then s.left[key p]? else s.right[key p]?).getD Symbol.blank

/-- The sides with one cell written. -/
def write (s : Sides) (p : Position) (c : Char) : Sides :=
  if p.val < 0 then { s with left := s.left.insert (key p) c }
  else { s with right := s.right.insert (key p) c }

/-- The sides with symbols written from `p` on, up to the last position. -/
def load (s : Sides) (p : Position) : List Char → Sides
  | [] => s
  | c :: cs =>
    let s := s.write p (Symbol.stored c)
    match p.move? 1 with
    | none => s
    | some p => s.load p cs

/-- The leftmost kept cell: the one with the greatest key on the left side, or else the one with the
least key on the right side. -/
def first? (s : Sides) : Option Int :=
  match s.left.maxKey? with
  | some i => some (-1 - Tape.wrap i.toNat)
  | none => s.right.minKey?.map fun i => Tape.wrap i.toNat

/-- The rightmost kept cell. -/
def last? (s : Sides) : Option Int :=
  match s.right.maxKey? with
  | some i => some (Tape.wrap i.toNat)
  | none => s.left.minKey?.map fun i => -1 - Tape.wrap i.toNat

/-- The leftmost and the rightmost kept cell. -/
def bounds (s : Sides) : Option (Int × Int) := do
  let first ← s.first?
  let last ← s.last?
  return (first, last)

/-- The characters from one position to another, both included. -/
def window (s : Sides) (first last : Position) : List Char :=
  (List.range (last.val - first.val + 1).toNat).filterMap fun (k : Nat) =>
    (first.move? k).map s.read

/-- The number of kept cells that are not blank. -/
def countSymbols (s : Sides) : Nat :=
  (s.left.values ++ s.right.values).countP (· != Symbol.blank)

end Sides

namespace Tape

/-! ## Keys and cells -/

theorem leftCell_key {p : Position} (h : p.val < 0) : leftCell (Sides.key p) = p.val := by
  have hfirst := p.first_le
  rw [leftCell, Sides.key, if_pos h, UInt64.toNat_ofNat_of_lt']
  · omega
  · show (-1 - p.val).toNat < 0x10000000000000000
    omega

theorem toNat_key {p : Position} (h : ¬p.val < 0) : ((Sides.key p).toNat : Int) = p.val := by
  have hlast := p.le_last
  rw [Sides.key, if_neg h, UInt64.toNat_ofNat_of_lt']
  · omega
  · show p.val.toNat < 0x10000000000000000
    omega

theorem leftCell_neg (i : UInt64) : leftCell i < 0 := by
  unfold leftCell
  omega

theorem leftCell_inj {i j : UInt64} : leftCell i = leftCell j ↔ i = j := by
  unfold leftCell
  rw [← UInt64.toNat_inj]
  omega

theorem leftCell_le_leftCell {i j : UInt64} (h : i ≤ j) : leftCell j ≤ leftCell i := by
  rw [UInt64.le_iff_toNat_le] at h
  unfold leftCell
  omega

/-- The position with the low bits of a left cell is the complement of the one with the bits of its
key. -/
theorem wrap_leftCell (i : UInt64) : wrap (leftCell i) = -1 - wrap i.toNat := by
  have hlt := i.toNat_lt
  simp only [wrap, leftCell, UInt64.size, Int.bmod_def]
  omega

/-- Every cell that may be kept has a key on one of the sides. -/
theorem exists_key {i : Int} (h : -0x10000000000000000 ≤ i ∧ i < 0x10000000000000000) :
    (∃ k, i = leftCell k) ∨ ∃ k : UInt64, i = k.toNat := by
  by_cases hneg : i < 0
  · left
    refine ⟨UInt64.ofNat (-1 - i).toNat, ?_⟩
    rw [leftCell, UInt64.toNat_ofNat_of_lt' (show (-1 - i).toNat < 0x10000000000000000 by omega)]
    omega
  · right
    refine ⟨UInt64.ofNat i.toNat, ?_⟩
    rw [UInt64.toNat_ofNat_of_lt' (show i.toNat < 0x10000000000000000 by omega)]
    omega

/-! ## One tape in two forms -/

/-- The sides keep exactly the cells of the tape. -/
structure HasSides (t : Tape) (s : Sides) : Prop where
  left : ∀ i, s.left[i]? = t.cells[leftCell i]?
  right : ∀ i : UInt64, s.right[i]? = t.cells[(i.toNat : Int)]?

theorem hasSides_empty : empty.HasSides .empty := by
  constructor <;> intro i <;> simp [empty, Sides.empty]

namespace HasSides

variable {t t' : Tape} {s s' : Sides}

theorem mem_left (h : t.HasSides s) {i : UInt64} : i ∈ s.left ↔ leftCell i ∈ t.cells := by
  rw [Std.ExtTreeMap.mem_iff_isSome_getElem?, h.left, Std.ExtTreeMap.isSome_getElem?_iff_mem]

theorem mem_right (h : t.HasSides s) {i : UInt64} : i ∈ s.right ↔ (i.toNat : Int) ∈ t.cells := by
  rw [Std.ExtTreeMap.mem_iff_isSome_getElem?, h.right, Std.ExtTreeMap.isSome_getElem?_iff_mem]

/-- A kept cell is on one of the sides. -/
theorem side_of_mem (h : t.HasSides s) {i : Int} (hi : i ∈ t.cells) :
    (∃ k ∈ s.left, i = leftCell k) ∨ ∃ k ∈ s.right, i = k.toNat := by
  rcases exists_key (t.inRange i hi) with ⟨k, hk⟩ | ⟨k, hk⟩
  · exact .inl ⟨k, h.mem_left.mpr (hk ▸ hi), hk⟩
  · exact .inr ⟨k, h.mem_right.mpr (hk ▸ hi), hk⟩

/-- **Reading.** A cell holds the same in both forms. -/
theorem read (h : t.HasSides s) (p : Position) : s.read p = t.read p.val := by
  unfold Sides.read Tape.read
  by_cases hp : p.val < 0
  · rw [if_pos hp, h.left, leftCell_key hp]
  · rw [if_neg hp, h.right, toNat_key hp]

/-- **Writing.** A write changes both forms alike. -/
theorem write (h : t.HasSides s) (p : Position) (c : Char) :
    (t.write p c).HasSides (s.write p c) := by
  by_cases hp : p.val < 0
  · have hkey := leftCell_key hp
    have hsides : s.write p c = { s with left := s.left.insert (Sides.key p) c } := if_pos hp
    constructor <;> intro i
    · -- the same cell is written on the left side
      rw [hsides, cells_write, Std.ExtTreeMap.getElem?_insert, Std.ExtTreeMap.getElem?_insert,
        h.left]
      simp only [Std.LawfulEqCmp.compare_eq_iff_eq, ← hkey, leftCell_inj]
    · rw [hsides, cells_write, Std.ExtTreeMap.getElem?_insert, if_neg, h.right]
      rw [Std.LawfulEqCmp.compare_eq_iff_eq]
      omega
  · have hkey := toNat_key hp
    have hsides : s.write p c = { s with right := s.right.insert (Sides.key p) c } := if_neg hp
    constructor <;> intro i
    · have hneg := leftCell_neg i
      rw [hsides, cells_write, Std.ExtTreeMap.getElem?_insert, if_neg, h.left]
      rw [Std.LawfulEqCmp.compare_eq_iff_eq]
      omega
    · rw [hsides, cells_write, Std.ExtTreeMap.getElem?_insert, Std.ExtTreeMap.getElem?_insert,
        h.right]
      simp only [Std.LawfulEqCmp.compare_eq_iff_eq, ← hkey, Int.natCast_inj, UInt64.toNat_inj]

/-- **Loading.** Loading changes both forms alike. -/
theorem load (h : t.HasSides s) (p : Position) (cs : List Char) :
    (t.load p cs).HasSides (s.load p cs) := by
  induction cs generalizing t s p with
  | nil => exact h
  | cons c cs ih =>
    have hwrite := h.write p (Symbol.stored c)
    simp only [Tape.load, Sides.load]
    cases p.move? 1 with
    | none => exact hwrite
    | some q => exact ih hwrite q

theorem window (h : t.HasSides s) (p q : Position) : s.window p q = t.window p.val q.val := by
  unfold Sides.window Tape.window
  rw [← List.filterMap_eq_map]
  apply List.filterMap_congr
  intro k hk
  rw [List.mem_range] at hk
  have hfirst := p.first_le
  have hlast := q.le_last
  -- no position between two positions is missing
  cases hmove : p.move? k with
  | none =>
    rw [Position.move?, Position.ofInt?_eq_none] at hmove
    omega
  | some r =>
    have hr := Position.val_ofInt? hmove
    rw [Option.map_some, h.read, hr, Function.comp_apply]

/-! ## The outermost cells -/

/-- Nothing is kept where nothing is on either side. -/
theorem cells_eq_empty (h : t.HasSides s) (hleft : s.left = ∅) (hright : s.right = ∅) :
    t.cells = ∅ := by
  rw [Std.ExtTreeMap.eq_empty_iff_forall_not_mem]
  intro i hi
  rcases h.side_of_mem hi with ⟨k, hk, -⟩ | ⟨k, hk, -⟩
  · exact Std.ExtTreeMap.not_mem_empty (hleft ▸ hk)
  · exact Std.ExtTreeMap.not_mem_empty (hright ▸ hk)

/-- The leftmost cell is the outermost of the left side, or else the innermost of the right. -/
theorem minKey? (h : t.HasSides s) :
    t.cells.minKey? = match s.left.maxKey? with
      | some i => some (leftCell i)
      | none => s.right.minKey?.map fun i => (i.toNat : Int) := by
  cases hleft : s.left.maxKey? with
  | some i =>
    rw [Std.ExtTreeMap.maxKey?_eq_some_iff_le] at hleft
    show t.cells.minKey? = some (leftCell i)
    rw [Std.ExtTreeMap.minKey?_eq_some_iff_le]
    refine ⟨h.mem_left.mp hleft.1, fun j hj => ?_⟩
    have hneg := leftCell_neg i
    rcases h.side_of_mem hj with ⟨k, hk, rfl⟩ | ⟨k, hk, rfl⟩
    · exact leftCell_le_leftCell (hleft.2 k hk)
    · omega
  | none =>
    rw [Std.ExtTreeMap.maxKey?_eq_none_iff] at hleft
    show t.cells.minKey? = s.right.minKey?.map fun i => (i.toNat : Int)
    cases hright : s.right.minKey? with
    | some i =>
      rw [Std.ExtTreeMap.minKey?_eq_some_iff_le] at hright
      rw [Option.map_some, Std.ExtTreeMap.minKey?_eq_some_iff_le]
      refine ⟨h.mem_right.mp hright.1, fun j hj => ?_⟩
      rcases h.side_of_mem hj with ⟨k, hk, -⟩ | ⟨k, hk, rfl⟩
      · exact absurd (hleft ▸ hk) Std.ExtTreeMap.not_mem_empty
      · exact Int.ofNat_le.mpr (hright.2 k hk)
    | none =>
      rw [Option.map_none, Std.ExtTreeMap.minKey?_eq_none_iff]
      exact h.cells_eq_empty hleft (Std.ExtTreeMap.minKey?_eq_none_iff.mp hright)

/-- The rightmost cell is the outermost of the right side, or else the innermost of the left. -/
theorem maxKey? (h : t.HasSides s) :
    t.cells.maxKey? = match s.right.maxKey? with
      | some i => some (i.toNat : Int)
      | none => s.left.minKey?.map leftCell := by
  cases hright : s.right.maxKey? with
  | some i =>
    rw [Std.ExtTreeMap.maxKey?_eq_some_iff_le] at hright
    show t.cells.maxKey? = some (i.toNat : Int)
    rw [Std.ExtTreeMap.maxKey?_eq_some_iff_le]
    refine ⟨h.mem_right.mp hright.1, fun j hj => ?_⟩
    rcases h.side_of_mem hj with ⟨k, hk, rfl⟩ | ⟨k, hk, rfl⟩
    · have hneg := leftCell_neg k
      omega
    · exact Int.ofNat_le.mpr (hright.2 k hk)
  | none =>
    rw [Std.ExtTreeMap.maxKey?_eq_none_iff] at hright
    show t.cells.maxKey? = s.left.minKey?.map leftCell
    cases hleft : s.left.minKey? with
    | some i =>
      rw [Std.ExtTreeMap.minKey?_eq_some_iff_le] at hleft
      rw [Option.map_some, Std.ExtTreeMap.maxKey?_eq_some_iff_le]
      refine ⟨h.mem_left.mp hleft.1, fun j hj => ?_⟩
      rcases h.side_of_mem hj with ⟨k, hk, rfl⟩ | ⟨k, hk, -⟩
      · exact leftCell_le_leftCell (hleft.2 k hk)
      · exact absurd (hright ▸ hk) Std.ExtTreeMap.not_mem_empty
    | none =>
      rw [Option.map_none, Std.ExtTreeMap.maxKey?_eq_none_iff]
      exact h.cells_eq_empty (Std.ExtTreeMap.minKey?_eq_none_iff.mp hleft) hright

/-- **Bounds.** The outermost cells are the same ones in both forms, and so are the positions by
which they are told. -/
theorem bounds (h : t.HasSides s) : s.bounds = t.bounds := by
  have hfirst : s.first? = t.cells.minKey?.map wrap := by
    rw [h.minKey?, Sides.first?]
    cases s.left.maxKey? with
    | some i =>
      show some (-1 - wrap i.toNat) = some (wrap (leftCell i))
      rw [wrap_leftCell]
    | none =>
      show (s.right.minKey?.map fun i => wrap i.toNat) =
        (s.right.minKey?.map fun i => (i.toNat : Int)).map wrap
      rw [Option.map_map, Function.comp_def]
  have hlast : s.last? = t.cells.maxKey?.map wrap := by
    rw [h.maxKey?, Sides.last?]
    cases s.right.maxKey? with
    | some i => rfl
    | none =>
      show (s.left.minKey?.map fun i => -1 - wrap i.toNat) = (s.left.minKey?.map leftCell).map wrap
      rw [Option.map_map]
      exact Option.map_congr fun i _ => (wrap_leftCell i).symm
  rw [Sides.bounds, hfirst, hlast, Tape.bounds, Std.ExtTreeMap.minKey?_eq_head?_keys,
    Std.ExtTreeMap.maxKey?_eq_getLast?_keys]
  cases t.cells.keys.head? with
  | none => rfl
  | some first => cases t.cells.keys.getLast? <;> rfl

/-! ## Counting and equality -/

/-- The entries of both sides are those of the tape. -/
theorem toList_perm (h : t.HasSides s) :
    t.cells.toList.Perm (s.left.toList.map (fun e => (leftCell e.1, e.2)) ++
      s.right.toList.map fun e => ((e.1.toNat : Int), e.2)) := by
  have hleft : (s.left.toList.map fun e => (leftCell e.1, e.2)).Nodup := by
    refine (Std.ExtTreeMap.nodup_toList s.left).map ?_
    intro e e' heq
    obtain ⟨hcell, hchar⟩ := Prod.mk.inj heq
    exact Prod.ext (leftCell_inj.mp hcell) hchar
  have hright : (s.right.toList.map fun e => ((e.1.toNat : Int), e.2)).Nodup := by
    refine (Std.ExtTreeMap.nodup_toList s.right).map ?_
    intro e e' heq
    obtain ⟨hcell, hchar⟩ := Prod.mk.inj heq
    exact Prod.ext (UInt64.toNat_inj.mp (Int.ofNat_inj.mp hcell)) hchar
  -- no entry stands twice on either side of the permutation, so it is enough to compare members
  rw [List.perm_ext_iff_of_nodup (Std.ExtTreeMap.nodup_toList _)]
  · intro e
    obtain ⟨i, c⟩ := e
    simp only [List.mem_append, List.mem_map, Prod.exists, Prod.mk.injEq,
      Std.ExtTreeMap.mem_toList_iff_getElem?_eq_some, h.left, h.right]
    constructor
    · intro hi
      have hmem : i ∈ t.cells := by
        rw [Std.ExtTreeMap.mem_iff_isSome_getElem?, hi]
        rfl
      rcases exists_key (t.inRange i hmem) with ⟨k, rfl⟩ | ⟨k, rfl⟩
      · exact .inl ⟨k, c, hi, rfl, rfl⟩
      · exact .inr ⟨k, c, hi, rfl, rfl⟩
    · intro hside
      rcases hside with ⟨k, c', hk, rfl, rfl⟩ | ⟨k, c', hk, rfl, rfl⟩ <;> exact hk
  · rw [List.nodup_append]
    refine ⟨hleft, hright, ?_⟩
    intro e he e' he' heq
    obtain ⟨k, -, rfl⟩ := List.mem_map.mp he
    obtain ⟨k', -, rfl⟩ := List.mem_map.mp he'
    have hneg := leftCell_neg k.1
    have hcell := (Prod.mk.inj heq).1
    omega

/-- **Counting.** The symbols of both sides are those of the tape. -/
theorem countSymbols (h : t.HasSides s) : s.countSymbols = t.countSymbols := by
  rw [Sides.countSymbols, Tape.countSymbols, Std.ExtTreeMap.values_eq_map_toList,
    Std.ExtTreeMap.values_eq_map_toList, Std.ExtTreeMap.values_eq_map_toList,
    (h.toList_perm.map Prod.snd).countP_eq, List.map_append, List.map_map, List.map_map]
  rfl

/-- **Equality.** Two tapes are equal exactly if their sides are. -/
theorem eq_iff (h : t.HasSides s) (h' : t'.HasSides s') : s = s' ↔ t = t' := by
  constructor
  · intro heq
    subst heq
    apply Tape.ext
    apply Std.ExtTreeMap.ext_getElem?
    intro i
    by_cases hrange : -0x10000000000000000 ≤ i ∧ i < 0x10000000000000000
    · rcases exists_key hrange with ⟨k, rfl⟩ | ⟨k, rfl⟩
      · rw [← h.left, ← h'.left]
      · rw [← h.right, ← h'.right]
    · -- neither tape keeps a cell that has no key
      rw [Std.ExtTreeMap.getElem?_eq_none fun hi => hrange (t.inRange i hi),
        Std.ExtTreeMap.getElem?_eq_none fun hi => hrange (t'.inRange i hi)]
  · intro heq
    subst heq
    apply Sides.ext
    · apply Std.ExtTreeMap.ext_getElem?
      intro i
      rw [h.left, h'.left]
    · apply Std.ExtTreeMap.ext_getElem?
      intro i
      rw [h.right, h'.right]

end HasSides

end Tape

end SingleTape
