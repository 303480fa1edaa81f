import SingleTape.Proofs.Machine.Symbols

/-!
# Everything that can be done with a machine

A machine can take a step, run for some steps, be reset, and be copied and restored from the copy.
This file follows the machine of a compiled program through any sequence of these operations.

The count of symbols is kept up to date by what each step reads and writes, and `Tape.countSymbols`
knows nothing of it.  They agree all the same, because `Machine.Tidy` survives every operation: a
step keeps it, a run is made of steps, a reset leads back to the beginning of a compiled program,
and a tidy machine is restored from its copy as it was.

## Key results

- `Machine.perform_induction`: what steps and resets keep is kept by every operation
- `Machine.Runs.perform`: every operation keeps a machine of the program tidy
- `Machine.Runs.failure_eq`: the only thing that can fail is the count of steps
- `Machine.symbols_eq_countSymbols`: the count of symbols is right after any operations
-/

namespace SingleTape.Machine

/-- What can be done with a machine. -/
inductive Operation where
  /-- One step. -/
  | step
  /-- Steps until the machine halts, but no more than `budget`. -/
  | run (budget : Nat)
  /-- Back to the beginning of the program. -/
  | reset
  /-- The machine is copied, and the one that is restored from the copy takes its place. -/
  | copy

/-- What can keep an operation from leaving a machine. -/
inductive Failure where
  /-- A step cannot be counted. -/
  | fault (fault : Fault)
  /-- No machine is restored from the copy. -/
  | refused (cause : Error)
deriving DecidableEq

/-- The machine after an operation. -/
def perform (m : Machine) : Operation → Except Failure Machine
  | .step =>
    match m.step with
    | .ok (m', _) => .ok m'
    | .error fault => .error (.fault fault)
  | .run budget =>
    match m.run budget with
    | .ok (m', _) => .ok m'
    | .error fault => .error (.fault fault)
  | .reset => .ok m.reset
  | .copy =>
    match m.snapshot.restore with
    | .ok m' => .ok m'
    | .error cause => .error (.refused cause)

/-- The machine after operations. -/
def performAll (m : Machine) : List Operation → Except Failure Machine
  | [] => .ok m
  | op :: ops =>
    match m.perform op with
    | .error failure => .error failure
    | .ok m' => m'.performAll ops

/-! ## Runs -/

/-- Whatever a step keeps is kept by a bounded run. -/
theorem run_induction {P : Machine → Prop} {m m' : Machine} {n : Nat} {s : Step}
    (hstep : ∀ {p p' s}, p.step = .ok (p', s) → P p → P p') (hm : P m)
    (h : m.run n = .ok (m', s)) : P m' := by
  rcases run_cases h with ⟨-, hiter, -⟩ | ⟨k, p, -, hiter, -, hlast, -⟩
  · exact iterate_induction hstep hm hiter
  · exact hstep hlast (iterate_induction hstep hm hiter)

/-- A bounded run fails only where one of its steps does. -/
theorem exists_step_of_run_error {m : Machine} {n : Nat} {fault : Fault}
    (h : m.run n = .error fault) : ∃ k p, m.iterate k = .ok p ∧ p.step = .error fault := by
  induction n generalizing m with
  | zero => cases h
  | succ n ih =>
    simp only [run] at h
    split at h
    · rename_i m₁ hstep
      obtain ⟨k, p, hiter, hfault⟩ := ih h
      exact ⟨k + 1, p, by rw [iterate_succ_of_step hstep, hiter], hfault⟩
    · exact ⟨0, m, rfl, h⟩

/-! ## Operations -/

/-- What a step and a reset keep is kept by every operation. -/
theorem perform_induction {P : Machine → Prop} {m m' : Machine} {op : Operation}
    (hstep : ∀ {p p' s}, p.step = .ok (p', s) → P p → P p') (hreset : ∀ {p}, P p → P p.reset)
    (hm : P m) (h : m.perform op = .ok m') : P m' := by
  cases op with
  | step =>
    simp only [perform] at h
    split at h
    · rename_i hp
      cases h
      exact hstep hp hm
    · cases h
  | run budget =>
    simp only [perform] at h
    split at h
    · rename_i hrun
      cases h
      exact run_induction hstep hm hrun
    · cases h
  | reset =>
    cases h
    exact hreset hm
  | copy =>
    -- a machine that is restored from its copy is the one that was copied
    simp only [perform, restore_snapshot] at h
    split at h
    · rename_i hrestore
      split at hrestore
      · cases hrestore
        cases h
        exact hm
      · cases hrestore
    · cases h

/-- A fault of an operation is the fault of a step that is taken in it. -/
theorem exists_step_of_perform_fault {m : Machine} {op : Operation} {fault : Fault}
    (h : m.perform op = .error (.fault fault)) :
    ∃ k p, m.iterate k = .ok p ∧ p.step = .error fault := by
  cases op with
  | step =>
    simp only [perform] at h
    split at h
    · cases h
    · rename_i hstep
      cases h
      exact ⟨0, m, rfl, hstep⟩
  | run budget =>
    simp only [perform] at h
    split at h
    · cases h
    · rename_i hrun
      cases h
      exact exists_step_of_run_error hrun
  | reset => cases h
  | copy =>
    simp only [perform] at h
    split at h <;> cases h

/-- Only a copy of a machine that counts wrong is refused. -/
theorem countSymbols_ne_of_refused {m : Machine} {op : Operation} {cause : Error}
    (h : m.perform op = .error (.refused cause)) : m.tape.countSymbols ≠ m.symbols := by
  intro hcount
  cases op with
  | step | run budget =>
    simp only [perform] at h
    split at h <;> cases h
  | reset => cases h
  | copy =>
    simp only [perform, restore_snapshot, if_pos hcount] at h
    cases h

/-- What every operation keeps is kept by any sequence of them, and still there where one of them
fails. -/
theorem performAll_induction {P : Machine → Prop} {m : Machine}
    (hop : ∀ {p p' op}, p.perform op = .ok p' → P p → P p') (hm : P m) (ops : List Operation) :
    (∀ m', m.performAll ops = .ok m' → P m') ∧
      ∀ failure, m.performAll ops = .error failure →
        ∃ p op, P p ∧ p.perform op = .error failure := by
  induction ops generalizing m with
  | nil =>
    constructor
    · intro m' h
      cases h
      exact hm
    · intro failure h
      cases h
  | cons op ops ih =>
    simp only [performAll]
    cases hperform : m.perform op with
    | ok p => exact ih (hop hperform hm)
    | error cause =>
      -- the first failure is the failure of all the operations
      constructor
      · intro m' h
        cases h
      · intro failure h
        cases h
        exact ⟨m, op, hm, hperform⟩

/-! ## Machines of a compiled program -/

/-- What operations keep of the machine of a program. -/
structure Runs (program : Program) (m : Machine) : Prop where
  program_eq : m.program = program
  tidy : m.Tidy
  reachable : m.Reachable

namespace Runs

variable {source tape : String} {offset : Position} {program : Program} {m m' : Machine}

theorem start (h : Program.compile source tape offset = .ok program) :
    Runs program (Machine.start program) :=
  ⟨rfl, Program.tidy_start h, .start program⟩

theorem step {s : Step} (h : m.step = .ok (m', s)) (hm : Runs program m) : Runs program m' :=
  ⟨(program_step h).trans hm.program_eq, hm.tidy.step h, hm.reachable.step h⟩

/-- Every operation leaves a machine of the program. -/
theorem perform {op : Operation} (hcompile : Program.compile source tape offset = .ok program)
    (h : m.perform op = .ok m') (hm : Runs program m) : Runs program m' := by
  refine perform_induction (P := Runs program) Runs.step ?_ hm h
  intro p hp
  rw [reset, hp.program_eq]
  exact .start hcompile

/-- An operation fails only where a step finds the counter full. -/
theorem failure_eq {op : Operation} {failure : Failure} (hm : Runs program m)
    (h : m.perform op = .error failure) : failure = .fault .transitionsFull := by
  cases failure with
  | fault fault =>
    obtain ⟨k, p, hiter, hstep⟩ := exists_step_of_perform_fault h
    have hp := iterate_induction (P := Runs program) Runs.step hm hiter
    rw [(hp.reachable.fault_eq hstep).1]
  | refused cause =>
    -- a tidy machine is restored from its own copy
    exact absurd hm.tidy.count_eq (countSymbols_ne_of_refused h)

/-- Any operations leave a machine of the program, or fail where a step finds the counter full. -/
theorem performAll (hcompile : Program.compile source tape offset = .ok program)
    (hm : Runs program m) (ops : List Operation) :
    (∀ m', m.performAll ops = .ok m' → Runs program m') ∧
      ∀ failure, m.performAll ops = .error failure → failure = .fault .transitionsFull := by
  obtain ⟨hok, herror⟩ :=
    performAll_induction (P := Runs program) (Runs.perform hcompile) hm ops
  refine ⟨hok, ?_⟩
  intro failure h
  obtain ⟨p, op, hp, hop⟩ := herror failure h
  exact hp.failure_eq hop

end Runs

/-! ## The count of symbols -/

/-- No cell of a tidy machine holds the mark. -/
theorem Tidy.cell_ne {m : Machine} (hm : m.Tidy) {i : Int} {c : Char}
    (h : m.tape.cells[i]? = some c) : c ≠ Symbol.blankMark := by
  have hread := hm.read_ne i
  rw [Tape.read, h, Option.getD_some] at hread
  exact hread

/-- **The count of symbols.** However a machine that began with a compiled program was stepped,
run, reset, copied and restored, it counts exactly the symbols that a scan of its tape finds, and
no cell of the tape holds the blank mark.  Nothing in such a sequence can fail but a step that the
full counter of steps cannot count; in particular, the machine is always restored from its copy. -/
theorem symbols_eq_countSymbols {source tape : String} {offset : Position} {program : Program}
    (hcompile : Program.compile source tape offset = .ok program) (ops : List Operation) :
    (∀ m, (start program).performAll ops = .ok m →
      m.symbols = m.tape.countSymbols ∧ ∀ (i : Int) c, m.tape.cells[i]? = some c → c ≠ '_') ∧
    ∀ failure, (start program).performAll ops = .error failure →
      failure = .fault .transitionsFull := by
  obtain ⟨hruns, hfailure⟩ := (Runs.start hcompile).performAll hcompile ops
  refine ⟨?_, hfailure⟩
  intro m hm
  have htidy := (hruns m hm).tidy
  exact ⟨htidy.count_eq.symm, fun i c hc => htidy.cell_ne hc⟩

/-- A program that erases one symbol and writes another, on a tape with blanks of both kinds that
begins on the leftmost cell. -/
def erasing : Program :=
  match Program.compile "1,a 2,_>\n2,_ 2,x>\n2,b 1,_<\n1,x H,_" "a_ b" .first with
  | .ok program => program
  | .error _ => ⟨.empty, "", .origin⟩

/-- What is done with the machine of that program: it is copied under way and after it has halted,
and begins again. -/
def workout : List Operation :=
  [.step, .copy, .run 2, .run 5, .step, .copy, .reset, .run 2]

/-- The count of symbols is right after all that. -/
theorem symbols_eq_countSymbols_erasing :
    ∃ m, (start erasing).performAll workout = .ok m ∧ m.symbols = m.tape.countSymbols ∧
      ∀ (i : Int) c, m.tape.cells[i]? = some c → c ≠ '_' := by
  have hcompile : Program.compile "1,a 2,_>\n2,_ 2,x>\n2,b 1,_<\n1,x H,_" "a_ b" .first =
      .ok erasing := by decide +kernel
  have hsome : ((start erasing).performAll workout).toOption.isSome = true := by decide +kernel
  cases hm : (start erasing).performAll workout with
  | error failure =>
    rw [hm] at hsome
    cases hsome
  | ok m => exact ⟨m, rfl, (symbols_eq_countSymbols hcompile workout).1 m hm⟩

end SingleTape.Machine
