import SingleTape.Proofs.Machine.Stretch
import SingleTape.Proofs.Program.Diagnostics

/-!
# The place of the initial tape

The compiler looks at the place of the initial tape before it looks at the program text: the last
symbol has to stand on a position.  Loading stops after the last position, whatever is left of the
text, so a tape that was let through although it does not fit would lose symbols without notice.
The two agree: what is let through is loaded to the last symbol.

## Key results

- `Program.fits_iff`: which tapes fit
- `Program.compile_of_fits`, `Program.compile_of_not_fits`: the place comes before the program text
- `Program.compile_eq_invalidOffset_iff`: a tape is refused exactly if it does not fit
- `Tape.read_load`, `Tape.bounds_load`: what was loaded onto an empty tape
- `Program.placement_exact`: which tapes are refused, and where the symbols of the others stand
-/

namespace SingleTape

/-! ## Loading an empty tape -/

namespace Tape

variable {p : Position} {cs : List Char}

/-- Every symbol is loaded into the cell that is as far from the first one as it is in the text. -/
theorem read_load (hroom : p.val + cs.length ≤ 0x8000000000000000) {i : Nat} (hi : i < cs.length) :
    (empty.load p cs).read (p.val + i) = Symbol.stored cs[i] := by
  have hfirst := p.first_le
  -- the cell is a position, so it holds what the loading put there
  have hcell := cells_load empty p cs ⟨p.val + i, by omega, by omega⟩
  have hputs : (Edit.load p cs).puts? ⟨p.val + i, by omega, by omega⟩ =
      some (Symbol.stored cs[i]) := by
    have hindex : (p.val + (i : Int) - p.val).toNat = i := by omega
    simp only [Edit.puts?, hindex, List.getElem?_eq_getElem hi, Option.map_some]
    rw [if_pos (by omega)]
  rw [hputs, Option.some_or] at hcell
  rw [read, hcell, Option.getD_some]

/-- A cell that no symbol is loaded into reads as blank. -/
theorem read_load_of_not_mem (hroom : p.val + cs.length ≤ 0x8000000000000000) {i : Int}
    (hi : ¬(p.val ≤ i ∧ i < p.val + cs.length)) : (empty.load p cs).read i = Symbol.blank := by
  rw [← (covers_load p hroom).mem_iff, Std.ExtTreeMap.mem_iff_isSome_getElem?,
    Bool.not_eq_true, Option.isSome_eq_false_iff, Option.isNone_iff_eq_none] at hi
  rw [read, hi, Option.getD_none]

/-- The bounds are the cells of the first and of the last symbol. -/
theorem bounds_load (hroom : p.val + cs.length ≤ 0x8000000000000000) :
    (empty.load p cs).bounds = if cs = [] then none else some (p.val, p.val + cs.length - 1) := by
  split
  · rename_i hnil
    subst hnil
    rw [bounds_eq_none_iff]
    rfl
  · rename_i hne
    have hpos := List.length_pos_iff.mpr hne
    exact (covers_load p hroom).bounds (onPositions_empty.load p cs) (by omega)

end Tape

/-! ## The order of the checks -/

/-- A program text is not refused for the place of a tape. -/
theorem Table.ofSource_ne_invalidOffset (source : List Char) (text : String) :
    ofSource source ≠ .error (.invalidOffset text) := by
  intro h
  unfold ofSource at h
  cases hadd : Table.empty.addLines ∅ 1 (Text.lines source) with
  | error e =>
    rw [hadd] at h
    cases h
    -- the fault is one of a line
    obtain ⟨_, _, hfault⟩ := (addLines_eq_error_iff _ _ _ _).mp hadd
    cases hfault
  | ok result =>
    obtain ⟨t, references⟩ := result
    have hcheck : t.check references ≠ .error (.invalidOffset text) := by
      unfold check
      split
      · simp
      · split
        · simp
        · split <;> simp
    rw [hadd] at h
    cases hresult : t.check references with
    | error e =>
      simp only [bind, Except.bind, hresult, Except.error.injEq] at h
      exact hcheck (hresult.trans (congrArg Except.error h))
    | ok =>
      simp only [bind, Except.bind, hresult] at h
      cases h

namespace Program

variable {offset : Position} {tape : String}

/-- A tape fits if its last symbol stands on a position; an empty one fits anywhere. -/
theorem fits_iff {length : Nat} :
    fits offset length = true ↔
      offset.val + max ((length : Int) - 1) 0 ≤ 0x7FFFFFFFFFFFFFFF := by
  have hfirst := offset.first_le
  unfold fits Position.move?
  rw [Option.isSome_iff_ne_none, ne_eq, Position.ofInt?_eq_none]
  omega

/-- The program text decides if the tape fits. -/
theorem compile_of_fits (source : String) (h : fits offset tape.length = true) :
    compile source tape offset =
      (Table.ofSource source.toList).map fun table => ⟨table, tape, offset⟩ := by
  unfold compile
  rw [h]
  cases Table.ofSource source.toList <;> rfl

/-- A tape that does not fit is refused whatever the program text is. -/
theorem compile_of_not_fits (source : String) (h : fits offset tape.length = false) :
    compile source tape offset =
      .error (.invalidOffset (String.ofList (Text.signed offset.val))) := by
  unfold compile
  rw [h]
  rfl

/-- A program is refused for the place of its initial tape exactly if the tape does not fit. -/
theorem compile_eq_invalidOffset_iff (source text : String) :
    compile source tape offset = .error (.invalidOffset text) ↔
      0x7FFFFFFFFFFFFFFF < offset.val + max ((tape.length : Int) - 1) 0 ∧
        text = String.ofList (Text.signed offset.val) := by
  rw [← not_le, ← fits_iff]
  cases hfits : fits offset tape.length with
  | false =>
    rw [compile_of_not_fits source hfits]
    simp [eq_comm]
  | true =>
    -- the text is compiled, and that fails for other causes
    rw [compile_of_fits source hfits]
    cases htable : Table.ofSource source.toList with
    | ok table => simp [Except.map]
    | error e =>
      have hne : e ≠ .invalidOffset text := by
        rintro rfl
        exact Table.ofSource_ne_invalidOffset _ _ htable
      simp [Except.map, hne]

/-- **Placement.** A program is refused for the place of its initial tape exactly if the last symbol
would stand right of the last position, whatever the program text is.  A machine that begins with a
program that was not refused has all of the initial tape before it: every symbol in its cell, with
the mark as a blank, and no other cell written. -/
theorem placement_exact (source tape : String) (offset : Position) :
    (∀ text, compile source tape offset = .error (.invalidOffset text) ↔
      0x7FFFFFFFFFFFFFFF < offset.val + max ((tape.length : Int) - 1) 0 ∧
        text = String.ofList (Text.signed offset.val)) ∧
    ∀ program, compile source tape offset = .ok program →
      (∀ i (hi : i < tape.toList.length),
        (Machine.start program).tape.read (offset.val + i) = Symbol.stored tape.toList[i]) ∧
      (∀ i, i ∈ (Machine.start program).tape.cells ↔
        offset.val ≤ i ∧ i < offset.val + tape.length) ∧
      (∀ i, ¬(offset.val ≤ i ∧ i < offset.val + tape.length) →
        (Machine.start program).tape.read i = Symbol.blank) ∧
      (Machine.start program).tape.bounds =
        (if tape = "" then none else some (offset.val, offset.val + tape.length - 1)) ∧
      (Machine.start program).symbols = tape.toList.countP (fun c => c ≠ ' ' ∧ c ≠ '_') ∧
      (Machine.start program).tape.countSymbols = (Machine.start program).symbols := by
  refine ⟨fun text => compile_eq_invalidOffset_iff source text, fun program hcompile => ?_⟩
  have htidy := tidy_start hcompile
  obtain ⟨hfits, -, rfl, rfl⟩ := compile_eq_ok hcompile
  have hroom := room_of_fits hfits
  rw [← String.length_toList]
  have hsymbols : program.initialSymbols =
      program.initialTape.toList.countP fun c => c ≠ ' ' ∧ c ≠ '_' := by
    simp [initialSymbols, Symbol.blank, Symbol.blankMark, bne, Bool.beq_eq_decide_eq]
  refine ⟨fun i hi => Tape.read_load hroom hi, (Tape.covers_load _ hroom).mem_iff,
    fun i hi => Tape.read_load_of_not_mem hroom hi, ?_, hsymbols, htidy.count_eq⟩
  simp only [← String.toList_eq_nil_iff]
  exact Tape.bounds_load hroom

/-- A program whose initial tape ends with the last position. -/
def brimful : Program :=
  match compile "1,a H,b" "😀_ b" ⟨0x7FFFFFFFFFFFFFFC, by decide, by decide⟩ with
  | .ok program => program
  | .error _ => ⟨.empty, "", .origin⟩

/-- The four symbols reach up to the last position, and one cell further to the right the tape does
not fit. -/
theorem placement_exact_brimful :
    compile "1,a H,b" "😀_ b" ⟨0x7FFFFFFFFFFFFFFC, by decide, by decide⟩ = .ok brimful ∧
    (Machine.start brimful).tape.read 0x7FFFFFFFFFFFFFFC = '😀' ∧
    (Machine.start brimful).tape.read 0x7FFFFFFFFFFFFFFD = ' ' ∧
    (Machine.start brimful).tape.read 0x7FFFFFFFFFFFFFFF = 'b' ∧
    0x8000000000000000 ∉ (Machine.start brimful).tape.cells ∧
    (Machine.start brimful).tape.bounds = some (0x7FFFFFFFFFFFFFFC, 0x7FFFFFFFFFFFFFFF) ∧
    (Machine.start brimful).symbols = 2 ∧
    compile "malformed" "😀_ b" ⟨0x7FFFFFFFFFFFFFFD, by decide, by decide⟩ =
      .error (.invalidOffset "9223372036854775805") := by
  have hcompile : compile "1,a H,b" "😀_ b" ⟨0x7FFFFFFFFFFFFFFC, by decide, by decide⟩ =
      .ok brimful := by
    decide +kernel
  obtain ⟨-, hplaced⟩ := placement_exact "1,a H,b" "😀_ b"
    ⟨0x7FFFFFFFFFFFFFFC, by decide, by decide⟩
  obtain ⟨hread, hmem, -, hbounds, hsymbols, -⟩ := hplaced brimful hcompile
  obtain ⟨hrefused, -⟩ := placement_exact "malformed" "😀_ b"
    ⟨0x7FFFFFFFFFFFFFFD, by decide, by decide⟩
  refine ⟨hcompile, hread 0 (by decide), hread 1 (by decide), hread 3 (by decide), ?_, hbounds,
    hsymbols, (hrefused _).mpr ⟨by decide, by decide⟩⟩
  rw [hmem]
  decide

end Program

end SingleTape
