import SingleTape.Proofs.Machine.Symbols
import SingleTape.Proofs.Tape.FiniteMap

/-!
# The stretch of tape that a machine has touched

A machine begins with its initial tape, which is a stretch of neighbouring cells, and with its head
on the first of them.  A step writes the cell under the head and only then moves, by one cell at
most.  So the head is always on the stretch or right beside it, and what it writes extends the
stretch by one cell or not at all; a rule that would take the head past the last position writes
nothing.  `Machine.Stretched` is this invariant, together with how far the head can have come and how
many cells can have been written after so many steps.

So there are as many positions from one bound to the other as there are kept cells, and a view of
that span is no longer than what was written.

## Key results

- `Tape.Covers.write`: a write on a stretch, or right beside it
- `Machine.Stretched.step`: a step keeps the invariant
- `Machine.touched_cells`: what a machine that began with a compiled program has touched
-/

namespace SingleTape

namespace Tape

variable {t : Tape} {a b : Int}

/-- The tape keeps exactly the cells from `a` up to `b`, with `b` left out. -/
structure Covers (t : Tape) (a b : Int) : Prop where
  le : a ≤ b
  mem_iff : ∀ i, i ∈ t.cells ↔ a ≤ i ∧ i < b

/-- A write on a stretch leaves it as it is, and one right beside it makes it one cell longer. -/
theorem Covers.write (h : t.Covers a b) {p : Position} (hleft : a - 1 ≤ p.val) (hright : p.val ≤ b)
    (c : Char) : (t.write p c).Covers (min a p.val) (max b (p.val + 1)) := by
  have hle := h.le
  refine ⟨by omega, fun i => ?_⟩
  rw [cells_write, Std.ExtTreeMap.mem_insert, Std.LawfulEqCmp.compare_eq_iff_eq, h.mem_iff]
  omega

/-- A text that is loaded onto an empty tape covers a stretch, if there is room for it. -/
theorem covers_load (p : Position) {cs : List Char}
    (hroom : p.val + cs.length ≤ 0x8000000000000000) :
    (empty.load p cs).Covers p.val (p.val + cs.length) := by
  refine ⟨by omega, fun i => ?_⟩
  have hfirst := p.first_le
  by_cases hrange : -0x8000000000000000 ≤ i ∧ i ≤ 0x7FFFFFFFFFFFFFFF
  · -- the cell is a position, and what was put there is a symbol of the text
    have hcell := cells_load empty p cs ⟨i, hrange.1, hrange.2⟩
    have hempty : empty.cells[i]? = none := Std.ExtTreeMap.getElem?_empty
    rw [hempty, Option.or_none] at hcell
    rw [Std.ExtTreeMap.mem_iff_isSome_getElem?, hcell, Edit.puts?]
    by_cases hright : p.val ≤ i
    · simp only [hright, ↓reduceIte, Option.isSome_map, Option.isSome_iff_ne_none, ne_eq,
        List.getElem?_eq_none_iff, true_and]
      omega
    · simp [hright]
  · have hout : ¬i ∈ (empty.load p cs).cells := fun hi => hrange (onPositions_empty.load p cs i hi)
    simp only [hout, false_iff]
    omega

/-- Loading keeps no more cells than it has symbols. -/
theorem size_load_le (t : Tape) (p : Position) (cs : List Char) :
    (t.load p cs).cells.size ≤ t.cells.size + cs.length := by
  induction cs generalizing t p with
  | nil => exact Nat.le_refl _
  | cons c cs ih =>
    have hwrite : (t.write p (Symbol.stored c)).cells.size ≤ t.cells.size + 1 :=
      Std.ExtTreeMap.size_insert_le
    simp only [load, List.length_cons]
    cases p.move? 1 with
    | none =>
      show (t.write p (Symbol.stored c)).cells.size ≤ _
      omega
    | some q =>
      have hrest := ih (t.write p (Symbol.stored c)) q
      show ((t.write p (Symbol.stored c)).load q cs).cells.size ≤ _
      omega

/-- The bounds of a stretch are its two ends. -/
theorem Covers.bounds (h : t.Covers a b) (hpositions : t.OnPositions) (hlt : a < b) :
    t.bounds = some (a, b - 1) := by
  rw [hpositions.bounds_eq_some_iff]
  refine ⟨⟨?_, ?_⟩, ?_, ?_⟩
  · show a ∈ t.cells
    rw [h.mem_iff]
    omega
  · intro i hi
    exact ((h.mem_iff i).mp hi).1
  · show b - 1 ∈ t.cells
    rw [h.mem_iff]
    omega
  · intro i hi
    have hi' := ((h.mem_iff i).mp hi).2
    omega

/-- A stretch of no cells is an empty tape. -/
theorem Covers.cells_eq_empty (h : t.Covers a a) : t.cells = ∅ := by
  rw [Std.ExtTreeMap.eq_empty_iff_forall_not_mem]
  intro i hi
  have hi' := (h.mem_iff i).mp hi
  omega

end Tape

/-- The head moves one cell at most. -/
theorem Direction.offset_bounds (d : Direction) : -1 ≤ d.offset ∧ d.offset ≤ 1 := by
  cases d <;> decide

namespace Machine

/-- What a machine has touched is a stretch that its head has not left, and it is not larger than
the steps that were applied allow. -/
structure Stretched (m : Machine) : Prop where
  onPositions : m.tape.OnPositions
  /-- The head is on the stretch or right beside it; before anything is written it has not moved. -/
  covers : ∃ a b, m.tape.Covers a b ∧ a - 1 ≤ m.position.val ∧ m.position.val ≤ b ∧
    (a = b → m.position = m.program.offset)
  distance_le : (m.position.val - m.program.offset.val).natAbs ≤ m.transitions.toNat
  size_le : m.tape.cells.size ≤ m.program.initialTape.length + m.transitions.toNat

/-- A machine that halts without applying a rule has touched nothing more. -/
theorem Stretched.stop {m : Machine} (h : m.Stretched) : m.stop.Stretched :=
  ⟨h.onPositions, h.covers, h.distance_le, h.size_le⟩

/-- **One step** keeps the invariant: it writes where the head stands, and then moves the head. -/
theorem Stretched.step {m m' : Machine} {s : Step} (h : m.Stretched) (hs : m.step = .ok (m', s)) :
    m'.Stretched := by
  cases stepsTo_of_step hs with
  | still => exact h
  | noRule => exact h.stop
  | tapeEnd => exact h.stop
  | rule hlive hrule hmove hcount hroom =>
    rename_i rule position symbols
    obtain ⟨a, b, hcovers, hleft, hright, -⟩ := h.covers
    have hdistance := h.distance_le
    have hsize := h.size_le
    have hposition := Position.val_ofInt? hmove
    obtain ⟨hback, hforth⟩ := rule.direction.offset_bounds
    have htransitions := toNat_transitions_succ hroom
    have hwrite : (m.tape.write m.position (Symbol.stored rule.write)).cells.size ≤
        m.tape.cells.size + 1 := Std.ExtTreeMap.size_insert_le
    refine ⟨h.onPositions.write _ _, ?_, ?_, ?_⟩
    · -- the written cell is on the new stretch, so the head is at most one cell beside it
      refine ⟨_, _, hcovers.write hleft hright _, ?_, ?_, ?_⟩
      · dsimp only
        omega
      · dsimp only
        omega
      · intro hempty
        omega
    · dsimp only
      omega
    · dsimp only
      omega

/-- A machine at the beginning of a program whose initial tape fits. -/
theorem stretched_start {program : Program}
    (hfits : Program.fits program.offset program.initialTape.length = true) :
    (start program).Stretched := by
  have hroom := Program.room_of_fits hfits
  have hsize := Tape.empty.size_load_le program.offset program.initialTape.toList
  refine ⟨Tape.onPositions_empty.load _ _, ?_, ?_, ?_⟩
  · refine ⟨_, _, Tape.covers_load program.offset hroom, ?_, ?_, fun _ => rfl⟩
    · show program.offset.val - 1 ≤ program.offset.val
      omega
    · show program.offset.val ≤ program.offset.val + _
      omega
  · show (program.offset.val - program.offset.val).natAbs ≤ 0
    omega
  · rw [String.length_toList] at hsize
    have hempty : Tape.empty.cells.size = 0 := rfl
    show (Tape.empty.load program.offset program.initialTape.toList).cells.size ≤
      program.initialTape.length + 0
    omega

/-- **The touched cells.** Whatever a compiled program has done after any number of steps, the cells
that its machine keeps are all those between the bounds, both included, and the head stands on one
of them or right beside them; or nothing was written yet, and the head is where it began.  The head
is no further from there than rules were applied, and there are no more kept cells than the initial
tape has symbols and rules were applied. -/
theorem touched_cells {source tape : String} {offset : Position} {program : Program}
    (hcompile : Program.compile source tape offset = .ok program) {n : Nat} {m : Machine}
    (hm : (start program).iterate n = .ok m) :
    (m.tape.bounds = none ∧ m.tape.cells = ∅ ∧ m.position = offset ∨
      ∃ first last, m.tape.bounds = some (first, last) ∧
        (∀ i, i ∈ m.tape.cells ↔ first ≤ i ∧ i ≤ last) ∧
        first - 1 ≤ m.position.val ∧ m.position.val ≤ last + 1) ∧
    (m.position.val - offset.val).natAbs ≤ m.transitions.toNat ∧
    m.tape.cells.size ≤ tape.length + m.transitions.toNat := by
  obtain ⟨hfits, -, htape, hoffset⟩ := Program.compile_eq_ok hcompile
  have hprogram : m.program = program :=
    iterate_induction (P := fun p => p.program = program)
      (fun hs hp => (program_step hs).trans hp) rfl hm
  have hstart : (start program).Stretched := by
    apply stretched_start
    rw [hoffset, htape]
    exact hfits
  have h : m.Stretched := iterate_induction (fun hs hp => hp.step hs) hstart hm
  obtain ⟨a, b, hcovers, hleft, hright, hhead⟩ := h.covers
  have hdistance := h.distance_le
  have hsize := h.size_le
  rw [hprogram, hoffset] at hdistance hhead
  rw [hprogram, htape] at hsize
  refine ⟨?_, hdistance, hsize⟩
  by_cases hempty : a = b
  · left
    subst hempty
    have hcells := hcovers.cells_eq_empty
    exact ⟨Tape.bounds_eq_none_iff.mpr hcells, hcells, hhead rfl⟩
  · right
    have hle := hcovers.le
    refine ⟨a, b - 1, hcovers.bounds h.onPositions (by omega), fun i => ?_, hleft, by omega⟩
    rw [hcovers.mem_iff]
    omega

/-- A program on the last cell that writes there and on the cell before it, and then tries to leave
the row of cells. -/
def cornered : Program :=
  match Program.compile "1,a 2,b<\n2,_ 1,c>\n1,b 1,d>" "a" .last with
  | .ok program => program
  | .error _ => ⟨.empty, "", .origin⟩

/-- Two rules are applied and the third is not, so two cells are kept, up to the last one. -/
theorem touched_cells_cornered :
    Program.compile "1,a 2,b<\n2,_ 1,c>\n1,b 1,d>" "a" .last = .ok cornered ∧
    ∃ m, (start cornered).iterate 5 = .ok m ∧ m.transitions = 2 ∧
      m.tape.bounds = some (0x7FFFFFFFFFFFFFFE, 0x7FFFFFFFFFFFFFFF) ∧
      (∀ i, i ∈ m.tape.cells ↔ 0x7FFFFFFFFFFFFFFE ≤ i ∧ i ≤ 0x7FFFFFFFFFFFFFFF) ∧
      m.tape.cells.size ≤ 3 := by
  have hcompile : Program.compile "1,a 2,b<\n2,_ 1,c>\n1,b 1,d>" "a" .last = .ok cornered := by
    decide +kernel
  have hfinal : ((start cornered).iterate 5).map (fun m => (m.transitions, m.tape.bounds)) =
      .ok (2, some (0x7FFFFFFFFFFFFFFE, 0x7FFFFFFFFFFFFFFF)) := by decide +kernel
  cases hm : (start cornered).iterate 5 with
  | error fault =>
    rw [hm] at hfinal
    cases hfinal
  | ok m =>
    rw [hm] at hfinal
    obtain ⟨htransitions, hbounds⟩ := Prod.mk.inj (Except.ok.inj hfinal)
    obtain ⟨htouched, -, hsize⟩ := touched_cells hcompile hm
    rw [htransitions] at hsize
    rcases htouched with ⟨hnone, -⟩ | ⟨first, last, hsome, hcells, -⟩
    · cases hnone.symm.trans hbounds
    · cases hsome.symm.trans hbounds
      exact ⟨hcompile, m, rfl, htransitions, hbounds, hcells, hsize⟩

end Machine

end SingleTape
