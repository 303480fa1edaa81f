import Mathlib.Data.List.Induction
import Mathlib.Data.Set.Card
import Mathlib.Order.Bounds.Basic
import SingleTape.Proofs.Tape.Shift
import SingleTape.Proofs.Tape.Sides

/-!
# Tapes as finite maps

A tape is made by edits: single cells are written and texts are loaded.  What the edits come to is
said here without a tape.  An edit puts a character into the cells that it reaches, which for a
loaded text are as many as it has symbols, less those that would lie right of the last position; of
the edits that reach a cell the last one decides.  This is a map from positions to characters,
`Tape.written`, and all that a tape answers can be read off it.

The step lemma is `Tape.cells_edit`: an edit lays what it puts over what the tape keeps.  It holds
cell by cell, so a run of edits keeps exactly the map, by induction on the edits.  The same goes for
a tape that is kept as two sides, because both forms stay coupled (`Tape.HasSides`).

## Key results

- `Tape.cells_edited`: a tape keeps what the last edit put into each cell
- `Tape.OnPositions.bounds_eq_some_iff`: the bounds are the least and the greatest kept cell
- `Tape.edited_describes`: what a tape answers is what its map says, in either form
-/

namespace SingleTape

/-! ## What a tape answers -/

/-- All that can be asked of a tape. -/
structure Answers where
  /-- The character in a cell. -/
  read : Position → Char
  /-- The outermost kept cells. -/
  bounds : Option (Int × Int)
  /-- The number of kept cells that are not blank. -/
  countSymbols : Nat
  /-- The characters from one position to another. -/
  window : Position → Position → List Char

/-- The answers are those of a finite map from positions to characters. -/
structure Answers.Describe (a : Answers) (m : Position → Option Char) : Prop where
  /-- A cell holds what the map has there, or a blank. -/
  read : ∀ p, a.read p = (m p).getD Symbol.blank
  /-- There are no bounds exactly if the map is empty. -/
  bounds_none : a.bounds = none ↔ ∀ p, m p = none
  /-- The bounds are the least and the greatest position that the map has. -/
  bounds_some : ∀ first last, a.bounds = some (first, last) ↔
    IsLeast (Position.val '' {p | m p ≠ none}) first ∧
      IsGreatest (Position.val '' {p | m p ≠ none}) last
  /-- As many symbols are counted as the map has characters other than the blank. -/
  count : (a.countSymbols : ℕ∞) = {p | ∃ c, m p = some c ∧ c ≠ Symbol.blank}.encard
  /-- There is one character for each position, and none if the first lies right of the last. -/
  length_window : ∀ p q, (a.window p q).length = (q.val - p.val + 1).toNat
  /-- The characters are what the cells hold, from left to right. -/
  window : ∀ p q r : Position, p.val ≤ r.val → r.val ≤ q.val →
    (a.window p q)[(r.val - p.val).toNat]? = some ((m r).getD Symbol.blank)

/-- What a tape answers. -/
def Tape.answers (t : Tape) : Answers :=
  ⟨fun p => t.read p.val, t.bounds, t.countSymbols, fun p q => t.window p.val q.val⟩

/-- What a tape that is kept as two sides answers. -/
def Sides.answers (s : Sides) : Answers :=
  ⟨s.read, s.bounds, s.countSymbols, s.window⟩

/-- Both forms of a tape answer alike. -/
theorem Tape.HasSides.answers {t : Tape} {s : Sides} (h : t.HasSides s) :
    s.answers = t.answers := by
  have hread : s.read = fun p => t.read p.val := funext h.read
  have hwindow : s.window = fun p q => t.window p.val q.val := by
    funext p q
    exact h.window p q
  rw [Sides.answers, Tape.answers, hread, h.bounds, h.countSymbols, hwindow]

/-! ## Edits -/

/-- A change that is made to a tape. -/
inductive Edit where
  /-- One cell is written. -/
  | write (p : Position) (c : Char)
  /-- Symbols are written from a position on. -/
  | load (p : Position) (cs : List Char)

namespace Edit

/-- What an edit puts into a cell, if it reaches the cell. -/
def puts? (p : Position) : Edit → Option Char
  | write q c => if p = q then some c else none
  | load q cs => if q.val ≤ p.val then cs[(p.val - q.val).toNat]?.map Symbol.stored else none

end Edit

/-- The tape after an edit. -/
def Tape.edit (t : Tape) : Edit → Tape
  | .write p c => t.write p c
  | .load p cs => t.load p cs

/-- The sides after an edit. -/
def Sides.edit (s : Sides) : Edit → Sides
  | .write p c => s.write p c
  | .load p cs => s.load p cs

/-- The sides that edits make of nothing. -/
def Sides.edited (edits : List Edit) : Sides :=
  edits.foldl Sides.edit .empty

namespace Tape

/-- The tape that edits make of nothing. -/
def edited (edits : List Edit) : Tape :=
  edits.foldl edit empty

/-- The map that edits define: of those that reach a cell, the last one decides. -/
def written (edits : List Edit) (p : Position) : Option Char :=
  edits.reverse.findSome? (Edit.puts? p)

variable {t : Tape}

/-- Loading lays the text over what the tape keeps. -/
theorem cells_load (t : Tape) (q : Position) (cs : List Char) (p : Position) :
    (t.load q cs).cells[p.val]? = ((Edit.load q cs).puts? p).or t.cells[p.val]? := by
  induction cs generalizing t q with
  | nil => simp [load, Edit.puts?]
  | cons c cs ih =>
    have hlast := p.le_last
    have hwrite : (t.write q (Symbol.stored c)).cells[p.val]? =
        if q.val = p.val then some (Symbol.stored c) else t.cells[p.val]? := by
      rw [cells_write, Std.ExtTreeMap.getElem?_insert]
      simp only [Std.LawfulEqCmp.compare_eq_iff_eq]
    simp only [load, Edit.puts?]
    by_cases hhere : q.val = p.val
    · -- the first symbol goes into this cell, and the others right of it
      have hzero : (p.val - q.val).toNat = 0 := by omega
      rw [if_pos hhere] at hwrite
      rw [if_pos (by omega), hzero, List.getElem?_cons_zero, Option.map_some, Option.some_or]
      cases hmove : q.move? 1 with
      | none => exact hwrite
      | some r =>
        have hr := Position.val_ofInt? hmove
        show ((t.write q (Symbol.stored c)).load r cs).cells[p.val]? = _
        rw [ih, Edit.puts?, if_neg (by omega), Option.none_or]
        exact hwrite
    · rw [if_neg hhere] at hwrite
      cases hmove : q.move? 1 with
      | none =>
        -- there is no cell right of the first symbol
        rw [Position.move?, Position.ofInt?_eq_none] at hmove
        have hfirst := q.first_le
        rw [if_neg (by omega), Option.none_or]
        exact hwrite
      | some r =>
        have hr := Position.val_ofInt? hmove
        show ((t.write q (Symbol.stored c)).load r cs).cells[p.val]? = _
        rw [ih, Edit.puts?, hwrite]
        by_cases hright : q.val ≤ p.val
        · have hnext : (p.val - q.val).toNat = (p.val - r.val).toNat + 1 := by omega
          rw [if_pos (by omega), if_pos hright, hnext, List.getElem?_cons_succ]
        · rw [if_neg (by omega), if_neg hright]

/-- **One edit** lays what it puts over what the tape keeps. -/
theorem cells_edit (t : Tape) (e : Edit) (p : Position) :
    (t.edit e).cells[p.val]? = (e.puts? p).or t.cells[p.val]? := by
  cases e with
  | write q c =>
    show (t.write q c).cells[p.val]? = _
    rw [cells_write, Std.ExtTreeMap.getElem?_insert, Edit.puts?]
    by_cases hpq : p = q
    · simp [hpq]
    · have hval : ¬q.val = p.val := fun hval => hpq (Position.ext hval.symm)
      simp [hpq, hval]
  | load q cs => exact cells_load t q cs p

theorem OnPositions.edit (h : t.OnPositions) (e : Edit) : (t.edit e).OnPositions := by
  cases e with
  | write p c => exact h.write p c
  | load p cs => exact h.load p cs

theorem HasSides.edit {s : Sides} (h : t.HasSides s) (e : Edit) : (t.edit e).HasSides (s.edit e) := by
  cases e with
  | write p c => exact h.write p c
  | load p cs => exact h.load p cs

theorem edited_append (edits : List Edit) (e : Edit) :
    edited (edits ++ [e]) = (edited edits).edit e := by
  rw [edited, List.foldl_append]
  rfl

theorem written_append (edits : List Edit) (e : Edit) (p : Position) :
    written (edits ++ [e]) p = (e.puts? p).or (written edits p) := by
  rw [written, List.reverse_append, List.reverse_singleton, List.singleton_append,
    List.findSome?_cons]
  cases e.puts? p <;> rfl

/-- **Any edits.** A tape keeps in each cell what the last edit put there. -/
theorem cells_edited (edits : List Edit) (p : Position) :
    (edited edits).cells[p.val]? = written edits p := by
  -- by induction on the edits, of which the last one is taken off
  induction edits using List.reverseRecOn with
  | nil => simp [edited, written, empty]
  | append_singleton edits e ih => rw [edited_append, cells_edit, ih, written_append]

theorem onPositions_edited (edits : List Edit) : (edited edits).OnPositions := by
  induction edits using List.reverseRecOn with
  | nil => exact onPositions_empty
  | append_singleton edits e ih =>
    rw [edited_append]
    exact ih.edit e

theorem hasSides_edited (edits : List Edit) : (edited edits).HasSides (Sides.edited edits) := by
  induction edits using List.reverseRecOn with
  | nil => exact hasSides_empty
  | append_singleton edits e ih =>
    rw [edited_append, Sides.edited, List.foldl_append]
    exact ih.edit e

/-! ## The answers of a map -/

/-- There are no bounds exactly if nothing is kept. -/
theorem bounds_eq_none_iff : t.bounds = none ↔ t.cells = ∅ := by
  rw [← Std.ExtTreeMap.minKey?_eq_none_iff, bounds, Std.ExtTreeMap.minKey?_eq_head?_keys]
  cases hfirst : t.cells.keys.head? with
  | none => simp
  | some first =>
    -- where there is a first key there is a last one
    cases hlast : t.cells.keys.getLast? with
    | none => simp [List.getLast?_eq_none_iff.mp hlast] at hfirst
    | some last => simp

/-- The bounds are the least and the greatest kept cell. -/
theorem OnPositions.bounds_eq_some_iff (h : t.OnPositions) {first last : Int} :
    t.bounds = some (first, last) ↔
      IsLeast {i | i ∈ t.cells} first ∧ IsGreatest {i | i ∈ t.cells} last := by
  rw [h.bounds_eq, ← Std.ExtTreeMap.minKey?_eq_head?_keys, ← Std.ExtTreeMap.maxKey?_eq_getLast?_keys]
  have hleast : IsLeast {i | i ∈ t.cells} first ↔ t.cells.minKey? = some first :=
    Std.ExtTreeMap.minKey?_eq_some_iff_le.symm
  have hgreatest : IsGreatest {i | i ∈ t.cells} last ↔ t.cells.maxKey? = some last :=
    Std.ExtTreeMap.maxKey?_eq_some_iff_le.symm
  rw [hleast, hgreatest]
  cases t.cells.minKey? with
  | none => simp
  | some i => cases t.cells.maxKey? <;> simp

theorem length_window (t : Tape) (first last : Int) :
    (t.window first last).length = (last - first + 1).toNat := by
  rw [window, List.length_map, List.length_range]

/-- The characters of a window are those of its cells. -/
theorem getElem?_window {first last i : Int} (hfirst : first ≤ i) (hlast : i ≤ last) :
    (t.window first last)[(i - first).toNat]? = some (t.read i) := by
  have hplace : first + ((i - first).toNat : Int) = i := by omega
  rw [window, List.getElem?_map, List.getElem?_range (by omega), Option.map_some, hplace]

section Map

variable {m : Position → Option Char}

/-- The kept cells are the positions that the map has. -/
theorem OnPositions.setOf_mem_cells (h : t.OnPositions) (hm : ∀ p, t.cells[p.val]? = m p) :
    {i | i ∈ t.cells} = Position.val '' {p | m p ≠ none} := by
  ext i
  show i ∈ t.cells ↔ ∃ p, m p ≠ none ∧ p.val = i
  constructor
  · intro hi
    have hrange := h i hi
    refine ⟨⟨i, hrange.1, hrange.2⟩, ?_, rfl⟩
    rw [← hm, ← Option.isSome_iff_ne_none, Std.ExtTreeMap.isSome_getElem?_iff_mem]
    exact hi
  · intro hi
    obtain ⟨p, hp, hval⟩ := hi
    rw [← hm, ← Option.isSome_iff_ne_none, Std.ExtTreeMap.isSome_getElem?_iff_mem] at hp
    rwa [← hval]

/-- A tape counts the characters of its map that are not blank. -/
theorem OnPositions.encard_eq (h : t.OnPositions) (hm : ∀ p, t.cells[p.val]? = m p) :
    (t.countSymbols : ℕ∞) = {p | ∃ c, m p = some c ∧ c ≠ Symbol.blank}.encard := by
  let symbols := (t.cells.toList.filter fun e => e.2 != Symbol.blank).map Prod.fst
  have hmem : ∀ i, i ∈ symbols ↔ ∃ c, t.cells[i]? = some c ∧ c ≠ Symbol.blank := by
    intro i
    simp [symbols, Std.ExtTreeMap.mem_toList_iff_getElem?_eq_some]
  have hlength : symbols.length = t.countSymbols := by
    rw [countSymbols, Std.ExtTreeMap.values_eq_map_toList, List.countP_map,
      List.countP_eq_length_filter, List.length_map]
    rfl
  have hnodup : symbols.Nodup := by
    have hsub : symbols.Sublist (t.cells.toList.map Prod.fst) := List.filter_sublist.map Prod.fst
    refine hsub.nodup ?_
    rw [List.Nodup, List.pairwise_map]
    refine t.cells.distinct_keys_toList.imp ?_
    intro e e' hne heq
    exact hne (Std.LawfulEqCmp.compare_eq_iff_eq.mpr heq)
  -- the symbols stand on positions, each of which is one number
  have himage : Position.val '' {p | ∃ c, m p = some c ∧ c ≠ Symbol.blank} =
      (symbols.toFinset : Set Int) := by
    ext i
    rw [Finset.mem_coe, List.mem_toFinset, hmem]
    constructor
    · intro hi
      obtain ⟨p, ⟨c, hc, hne⟩, hval⟩ := hi
      exact ⟨c, by rw [← hval, hm, hc], hne⟩
    · intro hi
      obtain ⟨c, hc, hne⟩ := hi
      have hkept : i ∈ t.cells := by
        rw [Std.ExtTreeMap.mem_iff_isSome_getElem?, hc]
        rfl
      have hrange := h i hkept
      exact ⟨⟨i, hrange.1, hrange.2⟩, ⟨c, by rw [← hm, hc], hne⟩, rfl⟩
  have hinjective : Function.Injective Position.val := fun p q hpq => Position.ext hpq
  rw [← hinjective.encard_image, himage, Set.encard_coe_eq_coe_finsetCard,
    List.toFinset_card_of_nodup hnodup, hlength]

/-- A tape whose cells are those of a map answers for the map. -/
theorem OnPositions.describe (h : t.OnPositions) (hm : ∀ p, t.cells[p.val]? = m p) :
    t.answers.Describe m := by
  have hread : ∀ p : Position, t.read p.val = (m p).getD Symbol.blank := by
    intro p
    rw [Tape.read, hm]
  have hcells := h.setOf_mem_cells hm
  refine ⟨hread, ?_, ?_, h.encard_eq hm, ?_, ?_⟩
  · show t.bounds = none ↔ _
    have hempty : t.cells = ∅ ↔ {i | i ∈ t.cells} = ∅ := by
      rw [Std.ExtTreeMap.eq_empty_iff_forall_not_mem, Set.eq_empty_iff_forall_notMem]
      rfl
    rw [bounds_eq_none_iff, hempty, hcells, Set.image_eq_empty, Set.eq_empty_iff_forall_notMem]
    simp only [Set.mem_ofPred_eq, ne_eq, not_not]
  · intro first last
    rw [← hcells]
    exact h.bounds_eq_some_iff
  · intro p q
    exact t.length_window p.val q.val
  · intro p q r hpr hrq
    rw [← hread]
    exact getElem?_window hpr hrq

end Map

/-- Two tapes are equal exactly if the maps of their edits are. -/
theorem edited_eq_iff (edits edits' : List Edit) :
    edited edits = edited edits' ↔ written edits = written edits' := by
  constructor
  · intro heq
    funext p
    rw [← cells_edited, heq, cells_edited]
  · intro heq
    apply Tape.ext
    apply Std.ExtTreeMap.ext_getElem?
    intro i
    by_cases hrange : -0x8000000000000000 ≤ i ∧ i ≤ 0x7FFFFFFFFFFFFFFF
    · have hcell := fun edits => cells_edited edits ⟨i, hrange.1, hrange.2⟩
      rw [hcell, hcell, heq]
    · -- nothing is kept where no head can stand
      rw [Std.ExtTreeMap.getElem?_eq_none fun hi => hrange (onPositions_edited edits i hi),
        Std.ExtTreeMap.getElem?_eq_none fun hi => hrange (onPositions_edited edits' i hi)]

/-- **Finite maps.** However a tape is made by writing cells and loading texts, at any positions and
in any order, it answers for the finite map in which the last edit that reaches a position decides:
what a cell holds, the outermost positions, the number of symbols and the characters from one
position to another.  Two tapes made so are equal exactly if their maps are.  All of this is true as
well of the tape that is kept as two sides, with complemented keys on the left one. -/
theorem edited_describes (edits : List Edit) :
    (edited edits).answers.Describe (written edits) ∧
      (Sides.edited edits).answers.Describe (written edits) ∧
      ∀ edits', (edited edits = edited edits' ↔ written edits = written edits') ∧
        (Sides.edited edits = Sides.edited edits' ↔ written edits = written edits') := by
  have hdescribe := (onPositions_edited edits).describe (cells_edited edits)
  refine ⟨hdescribe, ?_, fun edits' => ⟨edited_eq_iff edits edits', ?_⟩⟩
  · rw [(hasSides_edited edits).answers]
    exact hdescribe
  · rw [(hasSides_edited edits).eq_iff (hasSides_edited edits'), edited_eq_iff]

-- a cell at either end, and a text that reaches past the last one
example : (edited [.write .first 'x', .load .last ['_', 'b']]).bounds =
    some (-0x8000000000000000, 0x7FFFFFFFFFFFFFFF) := by decide +kernel

end Tape

end SingleTape
