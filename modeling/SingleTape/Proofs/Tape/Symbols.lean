import SingleTape.Program
import SingleTape.Tape
import SingleTape.Proofs.ForStd.ExtTreeMap

/-!
# Counting the symbols on a tape

`Tape.countSymbols` goes over all kept cells.  A write changes one cell, so it changes the count by
what it puts into that cell less what stood there; a cell that was never written counts as blank.

## Key results

- `Tape.countSymbols_write`: what a write does to the count
- `Tape.countSymbols_load`: loading symbols onto blank cells adds those that are not blank
-/

namespace SingleTape.Tape

/-- What a cell holding `c` adds to the number of symbols. -/
def amount (c : Char) : Nat :=
  if c = Symbol.blank then 0 else 1

@[simp] theorem amount_blank : amount Symbol.blank = 0 := rfl

/-- A character other than the blank adds one. -/
theorem amount_of_ne_blank {c : Char} (h : c ≠ Symbol.blank) : amount c = 1 := by
  simp [amount, h]

/-- A cell adds at most one. -/
theorem amount_le_one (c : Char) : amount c ≤ 1 := by
  unfold amount
  split <;> omega

/-- The number of symbols as a total over the kept cells. -/
private theorem countP_eq_foldr (cs : List Char) :
    cs.countP (· != Symbol.blank) = cs.foldr (fun c n => amount c + n) 0 := by
  induction cs with
  | nil => rfl
  | cons c cs ih =>
    rw [List.countP_cons, List.foldr_cons, ih, amount]
    by_cases hc : c = Symbol.blank
    · simp [hc]
    · simp [hc]
      omega

/-- A write exchanges what stood in the cell for what is written. -/
theorem countSymbols_write (t : Tape) (p : Position) (c : Char) :
    (t.write p c).countSymbols + amount (t.read p.val) = t.countSymbols + amount c := by
  have htotal := Std.ExtTreeMap.foldr_values_insert amount t.cells p.val c
  have hread : amount (t.read p.val) = ((t.cells[p.val]?).map amount).getD 0 := by
    cases hcell : t.cells[p.val]? <;> simp [read, hcell]
  rw [countSymbols, countSymbols, countP_eq_foldr, countP_eq_foldr, cells_write, hread]
  exact htotal

@[simp] theorem countSymbols_empty : empty.countSymbols = 0 := rfl

/-- Every symbol under the head is counted. -/
theorem one_le_countSymbols {t : Tape} {p : Position} (h : t.read p.val ≠ Symbol.blank) :
    1 ≤ t.countSymbols := by
  -- blanking the cell takes one off the count
  have hblank := t.countSymbols_write p Symbol.blank
  rw [amount_of_ne_blank h, amount_blank] at hblank
  omega

/-! ## Loading -/

/-- What a symbol that is loaded adds to the count. -/
private theorem amount_stored (c : Char) :
    amount (Symbol.stored c) =
      if (c != Symbol.blank && c != Symbol.blankMark) = true then 1 else 0 := by
  by_cases hmark : c = Symbol.blankMark
  · simp [hmark]
  · by_cases hblank : c = Symbol.blank
    · simp [hblank, Symbol.stored, amount]
    · simp [hblank, hmark, Symbol.stored, amount]

/-- Loading adds at most the symbols that are loaded. -/
theorem countSymbols_load_le (t : Tape) (p : Position) (cs : List Char) :
    (t.load p cs).countSymbols ≤
      t.countSymbols + cs.countP fun c => c != Symbol.blank && c != Symbol.blankMark := by
  induction cs generalizing t p with
  | nil => simp [load]
  | cons c cs ih =>
    have hwrite := t.countSymbols_write p (Symbol.stored c)
    rw [amount_stored] at hwrite
    rw [List.countP_cons]
    simp only [load]
    split
    · omega
    · rename_i p' hp'
      have hrest := ih (t.write p (Symbol.stored c)) p'
      omega

/-- Loading onto blank cells adds the symbols that are loaded, if there is room for them all. -/
theorem countSymbols_load (t : Tape) (p : Position) (cs : List Char)
    (hblank : ∀ i, p.val ≤ i → t.read i = Symbol.blank)
    (hfits : p.val + cs.length ≤ 0x8000000000000000) :
    (t.load p cs).countSymbols =
      t.countSymbols + cs.countP fun c => c != Symbol.blank && c != Symbol.blankMark := by
  induction cs generalizing t p with
  | nil => simp [load]
  | cons c cs ih =>
    have hwrite := t.countSymbols_write p (Symbol.stored c)
    rw [amount_stored, hblank p.val (by omega), amount_blank] at hwrite
    rw [List.countP_cons]
    rw [List.length_cons] at hfits
    simp only [load]
    split
    · -- the next cell would lie right of the last one, so nothing is left to load
      rename_i hlast
      rw [Position.move?, Position.ofInt?_eq_none] at hlast
      have hfirst := p.first_le
      have hcs : cs = [] := by
        rw [← List.length_eq_zero_iff]
        omega
      rw [hcs, List.countP_nil]
      omega
    · rename_i p' hp'
      have hval := Position.val_ofInt? hp'
      -- the cells that are left are still blank
      have hblank' : ∀ i, p'.val ≤ i → (t.write p (Symbol.stored c)).read i = Symbol.blank := by
        intro i hi
        rw [read_write, if_neg (by omega)]
        exact hblank i (by omega)
      have hrest := ih (t.write p (Symbol.stored c)) p' hblank' (by omega)
      omega

/-- What is true of every cell and of all that is loaded is true of every cell afterwards. -/
theorem read_load_of_forall {P : Char → Prop} {t : Tape} {cs : List Char}
    (h : ∀ i, P (t.read i)) (hcs : ∀ c ∈ cs, P (Symbol.stored c)) (p : Position) (i : Int) :
    P ((t.load p cs).read i) := by
  induction cs generalizing t p with
  | nil => exact h i
  | cons c cs ih =>
    have hwrite : ∀ i, P ((t.write p (Symbol.stored c)).read i) := by
      intro i
      rw [read_write]
      split
      · exact hcs c List.mem_cons_self
      · exact h i
    simp only [load]
    split
    · exact hwrite i
    · exact ih hwrite (fun c' hc' => hcs c' (List.mem_cons_of_mem c hc')) _

/-- Loading puts no blank mark on the tape. -/
theorem read_load_ne_blankMark {t : Tape} (h : ∀ i, t.read i ≠ Symbol.blankMark) (p : Position)
    (cs : List Char) (i : Int) : (t.load p cs).read i ≠ Symbol.blankMark :=
  read_load_of_forall (P := (· ≠ Symbol.blankMark)) h
    (fun c _ => Symbol.stored_ne_blankMark c) p i

end SingleTape.Tape
