import SingleTape.Error
import SingleTape.Table

/-!
# Checks on a finished table

A table is usable if it has a rule at all, if every state to which a rule leads is the halt
state or has rules itself, and if the initial state has rules.  The first of these conditions
that fails is reported, and of several undefined states the first in the order of reference.
-/

namespace SingleTape

/-- A state that is the target of a rule. -/
structure Reference where
  /-- The state. -/
  state : StateId
  /-- The number of the line that mentions it first. -/
  line : Nat
deriving DecidableEq

namespace Table

/-- Tells whether a run may go on in a state: it is the halt state or has rules. -/
def accepts (t : Table) (q : StateId) : Bool :=
  q.isHalt || t.defines q

/-- Checks a table whose rules mention the given states, in this order. -/
def check (t : Table) (references : List Reference) : Except Error Unit :=
  if t.isEmpty then .error .emptyProgram
  else match references.find? fun r => !t.accepts r.state with
    | some r => .error (.undefinedState r.state r.line)
    | none =>
      if t.defines .initial then .ok () else .error (.noInitialRule .initial)

end Table

end SingleTape
