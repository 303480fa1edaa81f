import Std.Data.ExtTreeMap
import SingleTape.Position
import SingleTape.Symbol

/-!
# The tape

A tape is a row of cells without end on either side.  Only the cells that were written are kept,
in a finite map from cell numbers to characters, so a cell that was written with a blank is told
apart from one that was never written; both read as blank.

A tape that was written by a machine keeps cells at positions only.  A tape that comes from
outside may also keep cells beyond them, up to one further bit on either side; no head can read
those, but `bounds` tells of them, by the position with the same low 64 bits.

* `cells_write` what a write does to the kept cells
* `read_write`  a write changes the cell it is given and no other
-/

namespace SingleTape

/-- The characters kept for the written cells. -/
@[ext]
structure Tape where
  /-- The kept cells. -/
  cells : Std.ExtTreeMap Int Char
  /-- Cell numbers have at most one bit more than positions. -/
  inRange : ∀ i ∈ cells, -0x10000000000000000 ≤ i ∧ i < 0x10000000000000000
deriving DecidableEq

namespace Tape

/-- The tape on which nothing was written. -/
def empty : Tape := ⟨∅, by simp⟩

instance : Inhabited Tape := ⟨empty⟩

/-- The character in a cell. -/
def read (t : Tape) (i : Int) : Char :=
  (t.cells[i]?).getD Symbol.blank

/-- The tape with one cell written, whose number is in range. -/
def writeCell (t : Tape) (i : Int) (h : -0x10000000000000000 ≤ i ∧ i < 0x10000000000000000)
    (c : Char) : Tape :=
  ⟨t.cells.insert i c, by
    intro j hj
    rw [Std.ExtTreeMap.mem_insert] at hj
    rcases hj with hj | hj
    · rw [Std.LawfulEqCmp.compare_eq_iff_eq] at hj
      exact hj ▸ h
    · exact t.inRange j hj⟩

/-- The tape with one cell written. -/
def write (t : Tape) (p : Position) (c : Char) : Tape :=
  t.writeCell p.val (by have := p.first_le; have := p.le_last; omega) c

/-- The tape with symbols written from `p` on, one a cell; the blank mark leaves the cell blank.
Symbols that would stand right of the last position are dropped. -/
def load (t : Tape) (p : Position) : List Char → Tape
  | [] => t
  | c :: cs =>
    let t := t.write p (Symbol.stored c)
    match p.move? 1 with
    | none => t
    | some p => t.load p cs

/-- The position with the same low 64 bits as a cell number. -/
def wrap (i : Int) : Int :=
  i.bmod UInt64.size

/-- The leftmost and the rightmost kept cell. -/
def bounds (t : Tape) : Option (Int × Int) :=
  match t.cells.keys.head?, t.cells.keys.getLast? with
  | some first, some last => some (wrap first, wrap last)
  | _, _ => none

/-- The characters from one cell to another, both included. -/
def window (t : Tape) (first last : Int) : List Char :=
  (List.range (last - first + 1).toNat).map fun (k : Nat) => t.read (first + k)

/-- The text without the blanks at either end. -/
def trimBlanks (cs : List Char) : List Char :=
  ((cs.dropWhile (· = Symbol.blank)).reverse.dropWhile (· = Symbol.blank)).reverse

/-- The written part of the tape without the blanks around it. -/
def contents (t : Tape) : List Char :=
  match t.bounds with
  | none => []
  | some (first, last) => trimBlanks (t.window first last)

/-- The number of kept cells that are not blank. -/
def countSymbols (t : Tape) : Nat :=
  t.cells.values.countP (· != Symbol.blank)

@[simp] theorem read_empty (i : Int) : empty.read i = Symbol.blank := by
  simp [read, empty]

@[simp] theorem cells_write (t : Tape) (p : Position) (c : Char) :
    (t.write p c).cells = t.cells.insert p.val c := rfl

theorem read_write (t : Tape) (p : Position) (c : Char) (i : Int) :
    (t.write p c).read i = if i = p.val then c else t.read i := by
  by_cases h : i = p.val
  · simp [read, h]
  · simp [read, Std.ExtTreeMap.getElem?_insert, h, Ne.symm h]

@[simp] theorem window_of_lt {t : Tape} {first last : Int} (h : last < first) :
    t.window first last = [] := by
  have : (last - first + 1).toNat = 0 := by omega
  simp [window, this]

end Tape

end SingleTape
