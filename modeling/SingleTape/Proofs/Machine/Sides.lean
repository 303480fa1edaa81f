import SingleTape.Proofs.Machine.Shift
import SingleTape.Proofs.Tape.Sides

/-!
# A machine on two sides

A machine may keep its tape as two sides instead of one row of cells.  `Machine.sidesAfter` takes
two sides along with a machine: each step looks its rule up by what they hold under the head, and
writes to them what the rule says.  They stay the sides of the tape, so the machine finds the same
rules on them, whichever side it is on and however often it crosses from one to the other.

In particular, where the sides meet makes no difference.  A program that is placed at two offsets
has this seam at two places of its tape, or on no kept cell at all, and still the two tapes are one
and the same but for the distance.

## Key results

- `Tape.HasSides.step`, `Tape.HasSides.iterate`: sides that are taken along stay those of the tape
- `Machine.sidesOf_shifted`: the sides of a program at two offsets
-/

namespace SingleTape

open Machine

namespace Machine

/-- Two sides after the next step of a machine that keeps its tape on them. -/
def stepSides (m : Machine) (s : Sides) : Sides :=
  if m.halted then s
  else match m.program.table.get? m.state (Symbol.shown (s.read m.position)) with
    | none => s
    | some rule =>
      match m.position.move? rule.direction.offset with
      | none => s
      | some _ => s.write m.position (Symbol.stored rule.write)

/-- Two sides after the next `n` steps, up to one that cannot be counted. -/
def sidesAfter (m : Machine) (s : Sides) : Nat → Sides
  | 0 => s
  | n + 1 =>
    match m.step with
    | .error _ => s
    | .ok (m', _) => m'.sidesAfter (m.stepSides s) n

/-- The two sides of a program that began on them, after `n` steps. -/
def sidesOf (program : Program) (n : Nat) : Sides :=
  (start program).sidesAfter (Sides.empty.load program.offset program.initialTape.toList) n

end Machine

namespace Tape

variable {m m' : Machine} {s : Sides} {n : Nat}

/-- **One step.** Two sides change as the tape does. -/
theorem HasSides.step {r : Step} (h : m.tape.HasSides s) (hstep : m.step = .ok (m', r)) :
    m'.tape.HasSides (m.stepSides s) := by
  have hsymbol : Symbol.shown (s.read m.position) = m.symbol := by rw [h.read, symbol]
  unfold stepSides
  rw [hsymbol]
  cases stepsTo_of_step hstep with
  | still hhalted =>
    rw [if_pos hhalted]
    exact h
  | noRule hlive hrule =>
    simp only [hlive, hrule]
    exact h
  | tapeEnd hlive hrule hmove =>
    simp only [hlive, hrule, hmove]
    exact h
  | rule hlive hrule hmove hcount hroom =>
    -- the only step that writes, and it writes where the head was
    simp only [hlive, hrule, hmove]
    exact h.write m.position _

/-- **Any number of steps.** Two sides that are taken along stay those of the tape. -/
theorem HasSides.iterate (h : m.tape.HasSides s) (hiter : m.iterate n = .ok m') :
    m'.tape.HasSides (m.sidesAfter s n) := by
  -- by induction on the number of steps; the sides go along with the machine
  induction n generalizing m s with
  | zero =>
    cases hiter
    exact h
  | succ n ih =>
    simp only [Machine.iterate] at hiter
    split at hiter
    · cases hiter
    · rename_i p r hstep
      simp only [sidesAfter, hstep]
      exact ih (h.step hstep) hiter

theorem hasSides_sidesOf {program : Program} (hiter : (start program).iterate n = .ok m) :
    m.tape.HasSides (sidesOf program n) := by
  have hstart : (start program).tape.HasSides
      (Sides.empty.load program.offset program.initialTape.toList) :=
    hasSides_empty.load program.offset program.initialTape.toList
  exact hstart.iterate hiter

end Tape

namespace Machine

/-- **Position independence on two sides.** A program text on an initial tape is placed at two
offsets, and each machine keeps its tape as two sides.  After steps that can be counted and of which
none reported the end of the tape, cells that are the distance of the offsets apart hold the same,
on whichever sides they are, and the bounds are that distance apart as well. -/
theorem sidesOf_shifted {source tape : String} {o₁ o₂ : Position} {p₁ p₂ : Program}
    (h₁ : Program.compile source tape o₁ = .ok p₁) (h₂ : Program.compile source tape o₂ = .ok p₂)
    {n : Nat} (hend₁ : ∀ p, .stopped (.tapeEnd p) ∉ (start p₁).results n)
    (hend₂ : ∀ p, .stopped (.tapeEnd p) ∉ (start p₂).results n)
    {m₁ : Machine} (hm₁ : (start p₁).iterate n = .ok m₁) :
    (∀ i j : Position, j.val = i.val + (o₂.val - o₁.val) →
      (sidesOf p₂ n).read j = (sidesOf p₁ n).read i) ∧
    (sidesOf p₂ n).bounds = (sidesOf p₁ n).bounds.map fun ends =>
      (ends.1 + (o₂.val - o₁.val), ends.2 + (o₂.val - o₁.val)) := by
  obtain ⟨-, ⟨fault, hfault, -⟩ | ⟨m₁', m₂, hm₁', hm₂, h⟩⟩ :=
    (shiftedBy_start h₁ h₂).iterate hend₁ hend₂
  · cases hm₁.symm.trans hfault
  · cases hm₁.symm.trans hm₁'
    -- the two tapes differ by the distance, and each of them has its sides
    have hsides₁ := Tape.hasSides_sidesOf hm₁
    have hsides₂ := Tape.hasSides_sidesOf hm₂
    constructor
    · intro i j hij
      rw [hsides₁.read, hsides₂.read, hij, h.tape.read]
    · rw [hsides₁.bounds, hsides₂.bounds]
      exact h.tape.bounds h.onPositions₁ h.onPositions₂

/-- What lies on one side lies on both if the tape is placed one cell further to the left. -/
example : (sidesOf (straying .origin) 5).left = ∅ ∧
    (sidesOf (straying beforeOrigin) 5).left.toList = [(0, 'd')] ∧
    (sidesOf (straying beforeOrigin) 5).right.toList = [(0, 'c')] := by
  decide +kernel

end Machine

end SingleTape
