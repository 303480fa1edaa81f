import Std.Data.ExtTreeMap

/-!
# State names

States are named by short texts.  In program text a name may be written in several ways:
case does not matter, and neither do up to two zeros in front, so `001`, `01` and `1` are one
state.  Only two zeros are dropped: `0` and `00` are both the empty name, and `000` is `0`.

Names are ordered by their characters, which is the order in which they are listed.
-/

namespace SingleTape

/-- The name of a state. -/
@[ext]
structure StateId where
  /-- The text of the name. -/
  name : String
deriving DecidableEq

namespace StateId

instance : Ord StateId := ⟨fun a b => compare a.name b.name⟩

theorem compare_def (a b : StateId) : compare a b = compare a.name b.name := rfl

instance : Std.TransOrd StateId where
  eq_swap := Std.OrientedOrd.eq_swap (α := String)
  isLE_trans := Std.TransOrd.isLE_trans (α := String)

instance : Std.LawfulEqOrd StateId where
  compare_self := by simp
  eq_of_compare h := StateId.ext (Std.LawfulEqOrd.eq_of_compare (α := String) h)

/-- The name without one zero in front. -/
def dropZero : List Char → List Char
  | '0' :: cs => cs
  | cs => cs

/-- The state meant by a name as it is written in program text. -/
def normalize (raw : List Char) : StateId :=
  ⟨String.ofList ((dropZero (dropZero raw)).map Char.toUpper)⟩

/-- The reserved state that ends a run once it is entered. -/
def halt : StateId := ⟨"H"⟩

/-- The state in which every program starts. -/
def initial : StateId := ⟨"1"⟩

/-- Tells whether a state is the halt state. -/
def isHalt (q : StateId) : Bool :=
  q = halt

@[simp] theorem isHalt_iff {q : StateId} : q.isHalt = true ↔ q = halt := by
  simp [isHalt]

theorem initial_ne_halt : initial ≠ halt := by decide

end StateId

end SingleTape
