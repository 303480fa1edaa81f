/-!
# Symbols

A cell of the tape holds one character.  An empty cell holds a space, but program text and
reports cannot show a space, so there the empty cell is written as an underscore.
-/

namespace SingleTape.Symbol

/-- The character held by an empty cell. -/
def blank : Char := ' '

/-- The character that stands for an empty cell in program text and reports. -/
def blankMark : Char := '_'

/-- The character a cell holds after `c` is written to it: the mark empties the cell. -/
def stored (c : Char) : Char :=
  if c = blankMark then blank else c

/-- The symbol by which a cell holding `c` is read: an empty cell reads as the mark. -/
def shown (c : Char) : Char :=
  if c = blank then blankMark else c

@[simp] theorem stored_blankMark : stored blankMark = blank := rfl

@[simp] theorem shown_blank : shown blank = blankMark := rfl

/-- Nothing stored is the mark itself. -/
theorem stored_ne_blankMark (c : Char) : stored c ≠ blankMark := by
  unfold stored
  split
  · decide
  · assumption

end SingleTape.Symbol
