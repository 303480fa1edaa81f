/-!
# Configuration

The two times an engine works with, in milliseconds.
-/

namespace SingleTape

/-- The timing of an engine. -/
@[ext]
structure Config where
  /-- The pause between two steps of a continuous run, in milliseconds. -/
  delay : UInt64
  /-- The time budget of an isolated computation, in milliseconds. -/
  timeout : UInt64
deriving DecidableEq

namespace Config

/-- The timing that is used where none is given. -/
def standard : Config := ⟨100, 10000⟩

instance : Inhabited Config := ⟨standard⟩

/-- A time given in milliseconds, in nanoseconds. -/
def nanoseconds (milliseconds : Nat) : Nat :=
  milliseconds * 1000000

/-- The pause between two steps, in nanoseconds. -/
def delayNanoseconds (c : Config) : Nat :=
  nanoseconds c.delay.toNat

/-- The time budget of a computation, in nanoseconds. -/
def timeoutNanoseconds (c : Config) : Nat :=
  nanoseconds c.timeout.toNat

end Config

end SingleTape
