import SingleTape.Config
import SingleTape.Machine

/-!
# Snapshots

A snapshot is a complete copy of a machine, together with the reserved names and the blank by
which it was made.  A machine is restored from a snapshot only if those are the ones in use here
and if the number of symbols is the one that the tape holds.
-/

namespace SingleTape

/-- A copy of a machine. -/
@[ext]
structure Snapshot where
  /-- The state of the machine. -/
  state : StateId
  /-- The position of the head. -/
  position : Position
  /-- The number of rules applied. -/
  transitions : UInt64
  /-- The number of symbols on the tape. -/
  symbols : Nat
  /-- The latest movement of the head. -/
  lastDirection : Direction
  /-- Whether the machine has halted. -/
  halted : Bool
  /-- The tape. -/
  tape : Tape
  /-- The program. -/
  program : Program
  /-- The reserved state that ends a run. -/
  haltState : StateId
  /-- The reserved state that begins a run. -/
  initialState : StateId
  /-- The character that stands for an empty cell. -/
  blank : Char
  /-- The time budget of an isolated computation, in milliseconds. -/
  defaultTimeout : UInt64
deriving DecidableEq

/-- A copy of a machine. -/
def Machine.snapshot (m : Machine) : Snapshot where
  state := m.state
  position := m.position
  transitions := m.transitions
  symbols := m.symbols
  lastDirection := m.lastDirection
  halted := m.halted
  tape := m.tape
  program := m.program
  haltState := .halt
  initialState := .initial
  blank := Symbol.blankMark
  defaultTimeout := Config.standard.timeout

namespace Snapshot

/-- Tells whether the reserved names and the blank are those in use here. -/
def isCompatible (s : Snapshot) : Bool :=
  s.haltState = .halt && s.initialState = .initial && s.blank = Symbol.blankMark

/-- The machine that was copied, without any check. -/
def machine (s : Snapshot) : Machine where
  program := s.program
  state := s.state
  position := s.position
  transitions := s.transitions
  symbols := s.symbols
  lastDirection := s.lastDirection
  halted := s.halted
  tape := s.tape

/-- The machine that was copied, if the copy can be trusted. -/
def restore (s : Snapshot) : Except Error Machine :=
  if !s.isCompatible then .error (.incompatibleSnapshot s.haltState s.initialState s.blank)
  else if s.tape.countSymbols ≠ s.symbols then
    .error (.miscountedSnapshot s.symbols s.tape.countSymbols)
  else .ok s.machine

end Snapshot

@[simp] theorem Machine.machine_snapshot (m : Machine) : m.snapshot.machine = m := rfl

/-- A machine is restored from its own copy exactly if its count of symbols is right. -/
theorem Machine.restore_snapshot (m : Machine) :
    m.snapshot.restore = if m.tape.countSymbols = m.symbols then .ok m
      else .error (.miscountedSnapshot m.symbols m.tape.countSymbols) := by
  have : m.snapshot.isCompatible = true := rfl
  by_cases h : m.tape.countSymbols = m.symbols <;>
    simp [Snapshot.restore, this, h] <;> simp [Machine.snapshot, h]

end SingleTape
