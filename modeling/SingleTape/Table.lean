import Std.Data.ExtTreeMap
import SingleTape.Direction
import SingleTape.StateId

/-!
# Rule tables

A table gives for a state and a symbol the rule that applies, if there is one.  It is kept as a
map from states to the rules of that state, so a table may list a state that has no rules: such
a state is counted by `stateCount` and is not defined in the sense of `defines`.

Two tables are equal exactly if they list the same states with the same rules.

* `get?_insertNew?` what a table with one more rule answers
-/

namespace SingleTape

/-- What to do in one situation: write, move, go on in the next state. -/
@[ext]
structure Rule where
  /-- The symbol written; the blank mark empties the cell. -/
  write : Char
  /-- The movement of the head after writing. -/
  direction : Direction
  /-- The state that follows. -/
  next : StateId
deriving DecidableEq

/-- The rules of one state, by the symbol under the head. -/
abbrev RuleMap := Std.ExtTreeMap Char Rule

/-- The rules of a program. -/
@[ext]
structure Table where
  /-- The rules of each listed state. -/
  rules : Std.ExtTreeMap StateId RuleMap
deriving DecidableEq

namespace Table

/-- The table that lists no state. -/
def empty : Table := ⟨∅⟩

instance : Inhabited Table := ⟨empty⟩

/-- The rules of a state, if it is listed. -/
def rulesOf? (t : Table) (q : StateId) : Option RuleMap :=
  t.rules[q]?

/-- The rule for state `q` when the head reads `a`. -/
def get? (t : Table) (q : StateId) (a : Char) : Option Rule :=
  (t.rulesOf? q).bind fun rules => rules[a]?

/-- Tells whether a state has at least one rule. -/
def defines (t : Table) (q : StateId) : Bool :=
  (t.rulesOf? q).any fun rules => !rules.isEmpty

/-- The listed states in ascending order. -/
def states (t : Table) : List StateId :=
  t.rules.keys

/-- The number of listed states. -/
def stateCount (t : Table) : Nat :=
  t.rules.size

/-- The number of rules. -/
def size (t : Table) : Nat :=
  t.rules.values.foldr (fun rules n => rules.size + n) 0

/-- Tells whether there are no rules. -/
def isEmpty (t : Table) : Bool :=
  t.size = 0

/-- The states to which the rules of `q` lead. -/
def successors (t : Table) (q : StateId) : List StateId :=
  match t.rulesOf? q with
  | none => []
  | some rules => rules.values.map fun rule => rule.next

/-- The table with one more rule, unless it has a rule for this state and symbol already. -/
def insertNew? (t : Table) (q : StateId) (a : Char) (rule : Rule) : Option Table :=
  if (t.get? q a).isSome then none
  else some ⟨t.rules.insert q (((t.rulesOf? q).getD ∅).insert a rule)⟩

@[simp] theorem get?_empty (q : StateId) (a : Char) : empty.get? q a = none := by
  simp [get?, rulesOf?, empty]

theorem insertNew?_eq_none {t : Table} {q : StateId} {a : Char} {rule : Rule} :
    t.insertNew? q a rule = none ↔ (t.get? q a).isSome := by
  unfold insertNew?
  split <;> simp_all

theorem get?_insertNew? {t t' : Table} {q : StateId} {a : Char} {rule : Rule}
    (h : t.insertNew? q a rule = some t') (q' : StateId) (a' : Char) :
    t'.get? q' a' = if q' = q ∧ a' = a then some rule else t.get? q' a' := by
  unfold insertNew? at h
  split at h
  · cases h
  · cases h
    by_cases hq : q' = q
    · subst hq
      by_cases ha : a' = a
      · subst ha
        simp [get?, rulesOf?]
      · cases hr : t.rules[q']? <;>
          simp [get?, rulesOf?, hr, ha, Std.ExtTreeMap.getElem?_insert, Ne.symm ha]
    · simp [get?, rulesOf?, hq, Std.ExtTreeMap.getElem?_insert, Ne.symm hq]

end Table

end SingleTape
