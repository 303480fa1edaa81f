import SingleTape.Proofs.Machine.Symbols
import SingleTape.Proofs.Table.Exploration

/-!
# Checked programs at run time

The compiler refuses a program in which a rule leads to a state without rules, and the exploration
of its table lists the states that no run can enter.  Both look at the table only and know nothing
of tapes.  This file follows the machine of a compiled program and shows that they are right about
every run: the machine is always in a state to which the rules lead and in which a run may go on,
and it halts for a reason that is still visible afterwards.

## Key results

- `Table.accepts_next`: the rules of a compiled table lead to states in which a run may go on
- `Machine.Checked.step`: a step keeps a machine in such a state
- `Machine.static_checks_hold`: what is known of the state of a machine after any steps
-/

namespace SingleTape

namespace Table

variable {source : List Char} {t : Table}

/-- The rules of a compiled table lead to states in which a run may go on. -/
theorem accepts_next (h : ofSource source = .ok t) {q : StateId} {a : Char} {rule : Rule}
    (hrule : t.get? q a = some rule) : t.accepts rule.next = true := by
  obtain ⟨references, hadd, hcheck⟩ := ofSource_eq_ok_iff.mp h
  obtain ⟨-, haccepts, -⟩ := check_eq_ok_iff.mp hcheck
  obtain ⟨hlists, hstates⟩ := lists_of_addLines hadd
  -- the rule stands on a line, and the target on that line is one of the checked references
  obtain ⟨r, hr, -, -, hnext⟩ := (hlists.get?_iff q a rule).mp hrule
  apply haccepts
  rw [hstates, ← hnext]
  exact ⟨r, hr, rfl⟩

theorem defines_initial (h : ofSource source = .ok t) : t.defines .initial = true := by
  obtain ⟨references, -, hcheck⟩ := ofSource_eq_ok_iff.mp h
  exact (check_eq_ok_iff.mp hcheck).2.2

end Table

namespace Machine

/-- No rule can be applied: there is none for the state and the symbol under the head, or the one
there is would move the head past the end of the tape on which it stands. -/
inductive Stuck (m : Machine) : Prop where
  | noRule (h : m.program.table.get? m.state m.symbol = none)
  | atLast {rule : Rule} (h : m.program.table.get? m.state m.symbol = some rule)
      (hright : rule.direction = .right) (hlast : m.position = .last)
  | atFirst {rule : Rule} (h : m.program.table.get? m.state m.symbol = some rule)
      (hleft : rule.direction = .left) (hfirst : m.position = .first)

/-- What is true of a machine with a compiled program. -/
structure Checked (m : Machine) : Prop where
  closed : ∀ q a rule, m.program.table.get? q a = some rule →
    m.program.table.accepts rule.next = true
  accepts : m.program.table.accepts m.state = true
  leads : m.program.table.Leads .initial m.state
  halted : m.state = .halt → m.halted = true
  /-- The cause of a halt outside the halt state can be seen on the halted machine. -/
  stuck : m.halted = true → m.state ≠ .halt → m.Stuck

/-- The head cannot move only where the tape ends on the side to which it would move. -/
theorem stuck_of_move? {m : Machine} {rule : Rule}
    (hrule : m.program.table.get? m.state m.symbol = some rule)
    (hmove : m.position.move? rule.direction.offset = none) : m.Stuck := by
  rw [Position.move?, Position.ofInt?_eq_none] at hmove
  have hfirst := m.position.first_le
  have hlast := m.position.le_last
  cases hdirection : rule.direction with
  | right =>
    apply Stuck.atLast hrule hdirection
    apply Position.ext
    show m.position.val = 0x7FFFFFFFFFFFFFFF
    rw [hdirection, Direction.offset] at hmove
    omega
  | left =>
    apply Stuck.atFirst hrule hdirection
    apply Position.ext
    show m.position.val = -0x8000000000000000
    rw [hdirection, Direction.offset] at hmove
    omega
  | stay =>
    -- a head that stays where it is does not leave the tape
    rw [hdirection, Direction.offset] at hmove
    omega

/-- A machine that halts without applying a rule keeps its state and its tape. -/
theorem Checked.stop {m : Machine} (hm : m.Checked) (hstuck : m.Stuck) : m.stop.Checked where
  closed := hm.closed
  accepts := hm.accepts
  leads := hm.leads
  halted _ := rfl
  stuck _ _ := by
    -- all that `Stuck` speaks of is the same
    cases hstuck with
    | noRule h => exact .noRule h
    | atLast h hright hlast => exact .atLast h hright hlast
    | atFirst h hleft hfirst => exact .atFirst h hleft hfirst

theorem Checked.step {m m' : Machine} {s : Step} (hm : m.Checked) (h : m.step = .ok (m', s)) :
    m'.Checked := by
  cases stepsTo_of_step h with
  | still => exact hm
  | noRule _ hrule => exact hm.stop (.noRule hrule)
  | tapeEnd _ hrule hmove => exact hm.stop (stuck_of_move? hrule hmove)
  | rule _ hrule _ _ _ =>
    rename_i rule _ _ _ _ _ _
    exact
      { closed := hm.closed
        accepts := hm.closed _ _ _ hrule
        leads := .step hm.leads (Table.mem_successors_of_get? hrule)
        halted := fun hhalt => by
          show rule.next.isHalt = true
          rw [StateId.isHalt_iff]
          exact hhalt
        stuck := fun hhalted hne => by
          -- a machine that has halted by a rule is in the halt state
          have hhalt : rule.next = .halt := StateId.isHalt_iff.mp hhalted
          exact absurd hhalt hne }

theorem Checked.iterate {m m' : Machine} {n : Nat} (hm : m.Checked)
    (h : m.iterate n = .ok m') : m'.Checked :=
  iterate_induction (P := Checked) (fun hs hp => hp.step hs) hm h

theorem checked_start {source tape : String} {offset : Position} {program : Program}
    (h : Program.compile source tape offset = .ok program) : (start program).Checked := by
  obtain ⟨-, htable, -, -⟩ := Program.compile_eq_ok h
  exact
    { closed := fun q a rule hrule => Table.accepts_next htable hrule
      accepts := by
        show (_ || program.table.defines .initial) = true
        rw [Table.defines_initial htable, Bool.or_true]
      leads := .refl _
      halted := fun hhalt => absurd hhalt StateId.initial_ne_halt
      stuck := fun hhalted => by cases hhalted }

/-- A machine that misses a rule names its own state, which has rules for other symbols and can be
reached. -/
theorem Checked.of_noRule {m m' : Machine} {q : StateId} {a : Char} (hm : m.Checked)
    (h : m.step = .ok (m', .stopped (.noRule q a))) :
    m.program.table.defines q = true ∧ q ∉ m.program.table.unreachable := by
  generalize hs : Step.stopped (.noRule q a) = s at h
  cases stepsTo_of_step h with
  | still => cases hs
  | tapeEnd => cases hs
  | rule => split at hs <;> cases hs
  | noRule hlive _ =>
    cases hs
    have haccepts := hm.accepts
    rw [Table.accepts, Bool.or_eq_true, StateId.isHalt_iff] at haccepts
    constructor
    · rcases haccepts with hhalt | hdefines
      · -- in the halt state the machine would have halted before
        rw [hm.halted hhalt] at hlive
        cases hlive
      · exact hdefines
    · exact Table.not_mem_unreachable_of_leads hm.leads

/-- **Static checks.** After any steps, the machine of a compiled program is in the halt state or in
a state that has rules, and not in one that is listed as unreachable.  It is in the halt state only
if it has halted; if it has halted in another state, then there is no rule for this state and the
symbol under the head, or the head stands at an end of the tape and the rule would move it on.  So
a missing rule, found by a step or in a bounded run, is always one of a state that has other rules
and can be reached. -/
theorem static_checks_hold {source tape : String} {offset : Position} {program : Program}
    {n : Nat} {m : Machine} (hcompile : Program.compile source tape offset = .ok program)
    (hm : (start program).iterate n = .ok m) :
    (m.state = .halt ∨ program.table.defines m.state = true) ∧
    m.state ∉ program.table.unreachable ∧
    (m.state = .halt → m.halted = true) ∧
    (m.halted = true → m.state ≠ .halt →
      program.table.get? m.state m.symbol = none ∨
      ∃ rule, program.table.get? m.state m.symbol = some rule ∧
        (rule.direction = .right ∧ m.position = .last ∨
          rule.direction = .left ∧ m.position = .first)) ∧
    (∀ m' q a, m.step = .ok (m', .stopped (.noRule q a)) →
      program.table.defines q = true ∧ q ∉ program.table.unreachable) ∧
    ∀ budget m' q a, m.run budget = .ok (m', .stopped (.noRule q a)) →
      program.table.defines q = true ∧ q ∉ program.table.unreachable := by
  have hchecked := (checked_start hcompile).iterate hm
  have hprogram : ∀ {k p}, (start program).iterate k = .ok p → p.program = program := fun hp =>
    iterate_induction (P := fun p => p.program = program)
      (fun hs hp => (program_step hs).trans hp) rfl hp
  have htable : m.program.table = program.table := by rw [hprogram hm]
  rw [← htable]
  refine ⟨?_, Table.not_mem_unreachable_of_leads hchecked.leads, hchecked.halted, ?_, ?_, ?_⟩
  · have haccepts := hchecked.accepts
    rwa [Table.accepts, Bool.or_eq_true, StateId.isHalt_iff] at haccepts
  · intro hhalted hne
    cases hchecked.stuck hhalted hne with
    | noRule h => exact .inl h
    | atLast h hright hlast => exact .inr ⟨_, h, .inl ⟨hright, hlast⟩⟩
    | atFirst h hleft hfirst => exact .inr ⟨_, h, .inr ⟨hleft, hfirst⟩⟩
  · intro m' q a hstep
    exact hchecked.of_noRule hstep
  · intro budget m' q a hrun
    -- the run ends with the step that misses the rule, and that step is taken by a checked machine
    rcases run_cases hrun with ⟨hmoved, -, -⟩ | ⟨k, p, -, hp, -, hlast, -⟩
    · cases hmoved
    · have hnamed := (hchecked.iterate hp).of_noRule hlast
      have hsame : p.program.table = m.program.table := by
        rw [htable, hprogram (iterate_add hm k ▸ hp)]
      rwa [hsame] at hnamed

/-- A program with a state that no run enters.  On its tape it misses a rule in the second state. -/
def astray : Program :=
  match Program.compile "1,a 2,b>\n2,a 1,a\n3,a H,a" "ac" .origin with
  | .ok program => program
  | .error _ => ⟨.empty, "", .origin⟩

/-- The machine of that program after two steps. -/
def strayed : Machine :=
  match (start astray).iterate 2 with
  | .ok m => m
  | .error _ => start astray

/-- The machine has halted in a state that has a rule and can be reached, for want of another. -/
theorem static_checks_hold_astray :
    astray.table.unreachable = [⟨"3"⟩] ∧ strayed.halted = true ∧ strayed.state = ⟨"2"⟩ ∧
    astray.table.defines ⟨"2"⟩ = true ∧ ⟨"2"⟩ ∉ astray.table.unreachable ∧
    astray.table.get? strayed.state strayed.symbol = none := by
  have hcompile : Program.compile "1,a 2,b>\n2,a 1,a\n3,a H,a" "ac" .origin = .ok astray := by
    decide +kernel
  have hm : (start astray).iterate 2 = .ok strayed := by decide +kernel
  have hhalted : strayed.halted = true := by decide +kernel
  have hstate : strayed.state = ⟨"2"⟩ := by decide +kernel
  obtain ⟨hdefines, hreached, -, hstuck, -⟩ := static_checks_hold hcompile hm
  have hne : strayed.state ≠ .halt := by decide +kernel
  have hinside : strayed.position ≠ .last ∧ strayed.position ≠ .first := by decide +kernel
  refine ⟨by decide +kernel, hhalted, hstate, ?_, hstate ▸ hreached, ?_⟩
  · rw [← hstate]
    exact hdefines.resolve_left hne
  · -- the head stands at neither end of the tape
    rcases hstuck hhalted hne with hnone | ⟨rule, -, ⟨-, hlast⟩ | ⟨-, hfirst⟩⟩
    · exact hnone
    · exact absurd hlast hinside.1
    · exact absurd hfirst hinside.2

end Machine

end SingleTape
