import SingleTape.Error
import SingleTape.Program
import SingleTape.Tape

/-!
# The machine

A machine holds a program, the tape, the head and a few counters, and executes the program one
rule at a time.  A rule that would move the head past the last cell is not applied, not even in
part: the machine halts with the tape as it was.

The counter of steps is a word.  Where a step would count past its end, or take a symbol off a
count of none, there is no machine after it, and the step is a `Fault`; that is not a way to halt.
The count of symbols has no end.  It grows by no more than one with a step that is counted, so a
word is enough for it until the counter of steps has room for no more steps than there were symbols
to begin with (`Machine.symbols_lt_of_performAll`).
-/

namespace SingleTape

/-- A machine in the midst of its work. -/
@[ext]
structure Machine where
  /-- The program it executes. -/
  program : Program
  /-- The current state. -/
  state : StateId
  /-- The position of the head. -/
  position : Position
  /-- The number of rules applied since the beginning. -/
  transitions : UInt64
  /-- The number of symbols on the tape, kept up to date on every write. -/
  symbols : Nat
  /-- The latest movement of the head. -/
  lastDirection : Direction
  /-- Whether the machine has halted, in the halt state or for want of a rule. -/
  halted : Bool
  /-- The tape. -/
  tape : Tape
deriving DecidableEq

/-- How a step ended. -/
inductive Step where
  /-- A rule was applied and the machine goes on. -/
  | moved
  /-- A rule was applied and the machine is in the halt state. -/
  | halted
  /-- No rule was applied. -/
  | stopped (cause : Error)
deriving DecidableEq

/-- What makes a step impossible to count. -/
inductive Fault where
  /-- As many rules have been applied as can be counted. -/
  | transitionsFull
  /-- A symbol is erased although none is counted. -/
  | symbolsSpent
deriving DecidableEq

namespace Machine

/-- The machine at the beginning of a program. -/
def start (program : Program) : Machine where
  program
  state := .initial
  position := program.offset
  transitions := 0
  symbols := program.initialSymbols
  lastDirection := .stay
  halted := false
  tape := Tape.empty.load program.offset program.initialTape.toList

/-- The machine back at the beginning of its program. -/
def reset (m : Machine) : Machine :=
  start m.program

/-- The symbol under the head; an empty cell reads as the blank mark. -/
def symbol (m : Machine) : Char :=
  Symbol.shown (m.tape.read m.position.val)

/-- The machine halted without applying a rule. -/
def stop (m : Machine) : Machine :=
  { m with halted := true, lastDirection := .stay }

/-- The number of symbols after `write` has replaced `read`, where `count` were counted before. -/
def recount (count : Nat) (read write : Char) : Except Fault Nat :=
  if read = Symbol.blankMark ∧ write ≠ Symbol.blankMark then .ok (count + 1)
  else if read ≠ Symbol.blankMark ∧ write = Symbol.blankMark then
    if count = 0 then .error .symbolsSpent else .ok (count - 1)
  else .ok count

/-- Applies a rule that takes the head to `position`. -/
def apply (m : Machine) (rule : Rule) (position : Position) : Except Fault (Machine × Step) :=
  match recount m.symbols m.symbol rule.write with
  | .error fault => .error fault
  | .ok symbols =>
    if m.transitions.toNat + 1 < UInt64.size then
      .ok ({ m with
        state := rule.next
        position
        transitions := m.transitions + 1
        symbols
        lastDirection := rule.direction
        halted := rule.next.isHalt
        tape := m.tape.write m.position (Symbol.stored rule.write) },
        if rule.next.isHalt then .halted else .moved)
    else .error .transitionsFull

/-- Executes one step. -/
def step (m : Machine) : Except Fault (Machine × Step) :=
  if m.halted then .ok (m, .stopped .machineHalted)
  else match m.program.table.get? m.state m.symbol with
    | none => .ok (m.stop, .stopped (.noRule m.state m.symbol))
    | some rule =>
      match m.position.move? rule.direction.offset with
      | none => .ok (m.stop, .stopped (.tapeEnd m.position))
      | some position => m.apply rule position

/-- Executes steps until the machine halts, but no more than `budget`. -/
def run (m : Machine) : (budget : Nat) → Except Fault (Machine × Step)
  | 0 => .ok (m, .moved)
  | budget + 1 =>
    match m.step with
    | .ok (m, .moved) => m.run budget
    | result => result

@[simp] theorem run_zero (m : Machine) : m.run 0 = .ok (m, .moved) := rfl

theorem step_of_halted {m : Machine} (h : m.halted = true) :
    m.step = .ok (m, .stopped .machineHalted) := by
  simp [step, h]

@[simp] theorem reset_start (program : Program) : (start program).reset = start program := rfl

end Machine

end SingleTape
