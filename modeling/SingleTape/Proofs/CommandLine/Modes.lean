import SingleTape.Proofs.CommandLine.Lines
import SingleTape.Proofs.CommandLine.Play
import SingleTape.Proofs.Encoding.RoundTrip
import SingleTape.Proofs.Engine.Calls
import SingleTape.Proofs.Job.Progress
import SingleTape.Proofs.Machine.Symbols

/-!
# Three ways to one end

A program that halts can be executed from the command line in three modes.  One takes single steps,
one runs continuously, and one computes on a copy.  All three come to the same machine and print the
same closing lines.  On the way the first two show the same steps, except that single steps begin
with a line for the machine as it is before any step.

That line is the first that is printed, but it is a line of text only as long as there is no line
feed on the initial tape, since the tape is printed as it is (`CommandLine.first_line_broken`).

## Key results

- `Session.comesTo_stepping`, `Session.comesTo_running`, `Session.comesTo_computing`: what a session
  comes to in each mode
- `CommandLine.modes_agree`: what the three modes print, at whatever pace
-/

namespace SingleTape

namespace CommandLine

/-- The lines that tell of a step. -/
def noticeLines (s : Step) : List String :=
  (Engine.noticesOf s).filterMap noticeLine?

/-- The lines that tell of a step and show the machine after it. -/
def stepShown (s : Step) (m : Machine) : List String :=
  noticeLines s ++ [stepLine m]

/-- The lines that tell of the next `n` steps and show the machine after each. -/
def stepsShown (m : Machine) : Nat → List String
  | 0 => []
  | n + 1 =>
    match m.step with
    | .error _ => []
    | .ok (m', s) => stepShown s m' ++ stepsShown m' n

/-- The snapshot that is printed at the end, if it is asked for. -/
def closing (config : Config) (printSnapshot : Bool) (m : Machine) : Option Snapshot :=
  if printSnapshot then some { m.snapshot with defaultTimeout := config.timeout } else none

theorem stepsShown_succ {m m' : Machine} {s : Step} (h : m.step = .ok (m', s)) (n : Nat) :
    stepsShown m (n + 1) = stepShown s m' ++ stepsShown m' n := by
  rw [stepsShown, h]

end CommandLine

open CommandLine

namespace Session

variable {e : Engine} {m p p' : Machine} {s : Step} {n now resume : Nat} {printSnapshot : Bool}
  {lines : List String}

/-! ## Single turns -/

/-- In every stage the turn after a halt is the last. -/
theorem next_of_halted (hidle : e.activity = .idle) (hmachine : e.machine = some m)
    (hhalted : m.halted = true) (stage : Stage) :
    next ⟨e, stage, printSnapshot⟩ now =
      .over (finalLines m) (.success (closing e.config printSnapshot m)) := by
  have hlast : last ⟨e, stage, printSnapshot⟩ =
      .over (finalLines m) (.success (closing e.config printSnapshot m)) := by
    simp only [last, hmachine]
    rfl
  cases stage with
  | stepping => simp [next, Engine.isHalted, hmachine, hhalted, hlast]
  | running | computing => simp [next, Engine.isRunning, hidle, hlast]

/-- A turn with a single step. -/
theorem next_stepping (hidle : e.activity = .idle) (hmachine : e.machine = some p)
    (hlive : p.halted = false) (hstep : p.step = .ok (p', s)) :
    next ⟨e, .stepping, printSnapshot⟩ now =
      .more (stepShown s p') 0
        ⟨{ e with machine := some p' }, .stepping, printSnapshot⟩ := by
  have hready : e.ready = .ok p := by
    simp [Engine.ready, hmachine, Engine.isRunning, hidle, hlive]
  have hreply : e.step = .ok ({ e with machine := some p' }.done (Engine.noticesOf s)) := by
    simp only [Engine.step, hready, hstep]
  have hdue : Engine.due? { e with machine := some p' } = none := by
    simp [Engine.due?, hidle]
  simp [next, Engine.isHalted, hmachine, hlive, hreply, proceed, Engine.done, hdue, replyLines,
    stepShown, noticeLines]

/-- A turn with a step of a continuous run that is due. -/
theorem next_running {due : Nat} (hactivity : e.activity = .running due)
    (hrequest : e.haltRequested = false) (hmachine : e.machine = some p)
    (hstep : p.step = .ok (p', s)) (hdue : due ≤ now) :
    next ⟨e, .running, printSnapshot⟩ now =
      .more (stepShown s p')
        (Option.getD (Engine.due? { e with machine := some p', activity := e.planned p' now }) 0)
        ⟨{ e with machine := some p', activity := e.planned p' now }, .running, printSnapshot⟩ := by
  have hreply : e.poll now = .ok ({ e with machine := some p', activity := e.planned p' now }.report
      (Engine.noticesOf s)) := by
    simp only [Engine.poll, hrequest, hactivity, hdue, hmachine, Engine.runStep, hstep]
    rfl
  simp [next, Engine.isRunning, hactivity, hreply, proceed, Engine.report, replyLines, stepShown,
    noticeLines]

/-- The report of the worker is taken over.  A halt is told in other notices than those of a step,
but in the same lines. -/
theorem settle_ofHalt (e : Engine) (job : Job) (hrestore : m.snapshot.restore = .ok m)
    (hs : s ≠ .moved) :
    ∃ notices, e.settle (job, some (.ofHalt m s)) =
        { e with activity := .idle, machine := some m }.report notices ∧
      notices.filterMap noticeLine? = noticeLines s := by
  cases s with
  | moved => exact absurd rfl hs
  | halted =>
    refine ⟨[.update, .computeDone, .haltState], ?_, rfl⟩
    simp only [Engine.settle, Engine.finish, Outcome.ofHalt, hrestore]
  | stopped cause =>
    refine ⟨[.update, .failure cause], ?_, rfl⟩
    simp only [Engine.settle, Engine.finish, Outcome.ofHalt, hrestore]

/-- A turn that finds the report of the worker, and one that finds none yet. -/
theorem next_computing {job : Job} {k deadline : Nat} (hactivity : e.activity = .computing job)
    (hrequest : e.haltRequested = false) (hrestore : m.snapshot.restore = .ok m)
    (hnears : job.Nears m s deadline k) (htime : now < deadline) (hs : s ≠ .moved) :
    next ⟨e, .computing, printSnapshot⟩ now = .more (noticeLines s) 0
        ⟨{ e with activity := .idle, machine := some m }, .computing, printSnapshot⟩ ∨
    ∃ job' k', k' + 2 ≤ k ∧ job'.Nears m s deadline (k' + 1) ∧
      next ⟨e, .computing, printSnapshot⟩ now =
        .more [] 0 ⟨{ e with activity := .computing job' }, .computing, printSnapshot⟩ := by
  obtain ⟨k', hk', hacts⟩ := hnears.act htime
  have hpoll : (e.work now).poll now = .ok ({ e with activity := .computing (job.act now) }.settle
      ((job.act now).tryOutcome now)) := by
    simp only [Engine.work, hactivity, Engine.poll, hrequest]
    rfl
  have hrunning : e.isRunning = true := by
    simp only [Engine.isRunning, hactivity]
  rcases hacts.tryOutcome htime with ⟨job', hfound⟩ | ⟨hpos, hnone⟩
  · left
    obtain ⟨notices, hsettle, hlines⟩ :=
      settle_ofHalt { e with activity := .computing (job.act now) } job' hrestore hs
    rw [hfound, hsettle] at hpoll
    simp [next, hrunning, hpoll, proceed, Engine.report, Engine.due?, replyLines, hlines]
  · right
    rw [hnone] at hpoll
    obtain ⟨k, rfl⟩ : ∃ k, k' = k + 1 := ⟨k' - 1, by omega⟩
    refine ⟨job.act now, k, by omega, hacts, ?_⟩
    simp [next, hrunning, hpoll, Engine.settle, proceed, Engine.report, Engine.due?, replyLines]

/-- A host that wakes up and finds the report of the worker, or finds none. -/
theorem wake_computing {job : Job} {k deadline : Nat} (hactivity : e.activity = .computing job)
    (hrestore : m.snapshot.restore = .ok m) (hnears : job.Nears m s deadline k)
    (htime : now < deadline) (hs : s ≠ .moved) (byTimer : Bool) (stage : Stage)
    (printSnapshot : Bool) :
    wake ⟨e, stage, printSnapshot⟩ byTimer now =
        (⟨{ e with activity := .idle, machine := some m }, stage, printSnapshot⟩, noticeLines s) ∨
      wake ⟨e, stage, printSnapshot⟩ byTimer now = (⟨e, stage, printSnapshot⟩, []) := by
  have hwake : e.wake byTimer now = e.settle (job.wake byTimer now) := by
    simp only [Engine.wake, hactivity]
  rcases hnears.wake byTimer htime with ⟨job', hfound⟩ | hnone
  · left
    obtain ⟨notices, hsettle, hlines⟩ := settle_ofHalt e job' hrestore hs
    rw [hfound, hsettle] at hwake
    simp [wake, hwake, Engine.report, replyLines, hlines]
  · right
    -- the job is left as it was, and nobody is told anything
    have hsame : e.settle (job, none) = e.report [] := by
      rw [Engine.settle, ← hactivity]
    rw [hnone, hsame] at hwake
    simp [wake, hwake, Engine.report, replyLines]

/-! ## Whole sessions -/

/-- After a halt a session ends with its next turn. -/
theorem comesTo_of_halted (beats : List Beat) (hidle : e.activity = .idle)
    (hmachine : e.machine = some m) (hhalted : m.halted = true) (stage : Stage) :
    ComesTo beats now (.more lines resume ⟨e, stage, printSnapshot⟩) 1
      (lines ++ finalLines m, .success (closing e.config printSnapshot m)) := by
  induction beats generalizing now with
  | nil => exact comesTo_nil
  | cons beat beats ih =>
    have hcomputing : e.isComputing = false := by simp only [Engine.isComputing, hidle]
    cases beat with
    | work d | wake byTimer d => exact .between hcomputing rfl ih
    | turn d =>
      apply ComesTo.turn
      rw [next_of_halted hidle hmachine hhalted]
      exact comesTo_over

/-- A session of single steps shows every step and ends. -/
theorem comesTo_stepping (beats : List Beat) (hidle : e.activity = .idle)
    (hmachine : e.machine = some p) (hhalts : p.HaltsIn n m s) :
    ComesTo beats now (.more lines resume ⟨e, .stepping, printSnapshot⟩) (n + 1)
      (lines ++ (stepsShown p n ++ finalLines m),
        .success (closing e.config printSnapshot m)) := by
  -- by induction on the beats; the steps that are left get fewer with every turn
  induction beats generalizing now e p n lines resume with
  | nil => exact comesTo_nil
  | cons beat beats ih =>
    have hcomputing : e.isComputing = false := by simp only [Engine.isComputing, hidle]
    cases beat with
    | work d | wake byTimer d => exact .between hcomputing rfl (ih hidle hmachine hhalts)
    | turn d =>
      apply ComesTo.turn
      cases hhalts with
      | last hlive hstep hs =>
        rw [next_stepping hidle hmachine hlive hstep, stepsShown_succ hstep, stepsShown,
          List.append_nil]
        apply comesTo_of_halted (e := { e with machine := some m }) beats hidle rfl
        exact (Machine.HaltsIn.last hlive hstep hs).halted
      | more hstep hhalts' =>
        have hlive := (Machine.HaltsIn.more hstep hhalts').live
        rw [next_stepping hidle hmachine hlive hstep, stepsShown_succ hstep, List.append_assoc]
        exact ih (e := { e with machine := some _ }) hidle rfl hhalts'

/-- A run that goes on is planned to go on. -/
private theorem planned_of_live (hlive : p.halted = false) (e : Engine) (now : Nat) :
    e.planned p now = .running (now + e.config.delayNanoseconds) := by
  simp only [Engine.planned, hlive, Bool.false_eq_true, ↓reduceIte]

/-- A continuous run shows every step and ends. -/
theorem comesTo_running (beats : List Beat) {due : Nat} (hactivity : e.activity = .running due)
    (hrequest : e.haltRequested = false) (hmachine : e.machine = some p)
    (hhalts : p.HaltsIn n m s) :
    ComesTo beats now (.more lines (e.due?.getD 0) ⟨e, .running, printSnapshot⟩) (n + 1)
      (lines ++ (stepsShown p n ++ finalLines m),
        .success (closing e.config printSnapshot m)) := by
  induction beats generalizing now e p n lines due with
  | nil => exact comesTo_nil
  | cons beat beats ih =>
    have hcomputing : e.isComputing = false := by simp only [Engine.isComputing, hactivity]
    cases beat with
    | work d | wake byTimer d =>
      exact .between hcomputing rfl (ih hactivity hrequest hmachine hhalts)
    | turn d =>
      apply ComesTo.turn
      -- no turn is taken before the step is due
      have hdue : due ≤ max (now + d) (e.due?.getD 0) := by
        simp only [Engine.due?, hactivity, Option.getD_some]
        exact Nat.le_max_right _ _
      cases hhalts with
      | last hlive hstep hs =>
        have hhalted := (Machine.HaltsIn.last hlive hstep hs).halted
        rw [next_running hactivity hrequest hmachine hstep hdue, stepsShown_succ hstep, stepsShown,
          List.append_nil]
        apply comesTo_of_halted
          (e := { e with machine := some m, activity := e.planned m _ }) beats _ rfl hhalted
        simp [Engine.planned, hhalted]
      | more hstep hhalts' =>
        rw [next_running hactivity hrequest hmachine hstep hdue, stepsShown_succ hstep,
          List.append_assoc]
        exact ih (e := { e with machine := some _, activity := e.planned _ _ })
          (planned_of_live hhalts'.live e _) hrequest rfl hhalts'

/-- A session that computes tells how the machine halted and ends, if that is in time. -/
theorem comesTo_computing (beats : List Beat) {job : Job} {k deadline : Nat}
    (hactivity : e.activity = .computing job) (hrequest : e.haltRequested = false)
    (hrestore : m.snapshot.restore = .ok m) (hhalted : m.halted = true) (hs : s ≠ .moved)
    (hnears : job.Nears m s deadline k) (htime : now + elapsed beats < deadline) :
    ComesTo beats now (.more lines 0 ⟨e, .computing, printSnapshot⟩) (k + 2)
      (lines ++ (noticeLines s ++ finalLines m),
        .success (closing e.config printSnapshot m)) := by
  -- by induction on the beats; the actions that are left get fewer with every beat
  induction beats generalizing now e job k lines with
  | nil => exact comesTo_nil
  | cons beat beats ih =>
    rw [elapsed_cons] at htime
    cases beat with
    | work d =>
      replace htime : now + d + elapsed beats < deadline := by
        rw [Nat.add_assoc]
        exact htime
      have hnow : now + d < deadline := by omega
      obtain ⟨k', hk', hacts⟩ := hnears.act hnow
      apply ComesTo.work
      rw [show e.work (now + d) = { e with activity := .computing (job.act (now + d)) } by
        simp only [Engine.work, hactivity]]
      exact (ih (e := { e with activity := _ }) rfl hrequest hacts htime).mono (by omega)
    | wake byTimer d =>
      replace htime : now + d + elapsed beats < deadline := by
        rw [Nat.add_assoc]
        exact htime
      have hnow : now + d < deadline := by omega
      apply ComesTo.wake
      rcases wake_computing hactivity hrestore hnears hnow hs byTimer .computing printSnapshot with
        hwake | hwake
      · -- the report is taken over before the next turn, which is then the last
        rw [hwake]
        dsimp only
        rw [← List.append_assoc]
        exact (comesTo_of_halted (e := { e with activity := .idle, machine := some m }) beats
          rfl rfl hhalted _).mono (by omega)
      · rw [hwake]
        dsimp only
        rw [List.append_nil]
        exact ih hactivity hrequest hnears htime
    | turn d =>
      replace htime : max (now + d) 0 + elapsed beats < deadline := by
        rw [Nat.max_zero, Nat.add_assoc]
        exact htime
      apply ComesTo.turn
      have hnow : max (now + d) 0 < deadline := by omega
      rcases next_computing hactivity hrequest hrestore hnears hnow hs with
        hnext | ⟨job', k', hk', hacts, hnext⟩
      · rw [hnext]
        exact (comesTo_of_halted (e := { e with activity := .idle, machine := some m }) beats
          rfl rfl hhalted _).mono (by omega)
      · rw [hnext]
        exact (ih (e := { e with activity := _ }) rfl hrequest hacts htime).mono (by omega)

end Session

namespace CommandLine

open Session

variable {o : Options} {inputs : Inputs} {config : Config} {task : Task} {lines : List String}
  {program : Program} {m : Machine} {s : Step} {n : Nat}

/-- The options ask for the given program to be executed with the given timing, after the given
lines are printed. -/
structure Prepares (o : Options) (inputs : Inputs) (config : Config) (task : Task)
    (lines : List String) (program : Program) : Prop where
  list_eq : o.list = false
  configOf_eq : configOf o inputs = .ok config
  taskOf_eq : ∃ given, sourceOf o inputs = .ok (given, lines) ∧ taskOf o given = .ok task
  compile_eq : Program.compile task.source task.tape task.offset = .ok program

/-- The engine in which a program was just installed. -/
def installed (config : Config) (program : Program) : Engine :=
  { Engine.new config with machine := some (.start program) }

/-- The first turn begins with an engine in which the program is installed. -/
theorem Prepares.first_eq (h : Prepares o inputs config task lines program) (now : Nat) :
    first o inputs now = launch o (installed config program) now lines := by
  have hinstall : (Engine.new config).install task.source task.tape task.offset =
      (installed config program).done [.update] := by
    simp only [Engine.install, h.compile_eq]
    rfl
  obtain ⟨given, hsource, htask⟩ := h.taskOf_eq
  simp only [first, h.list_eq, h.configOf_eq, hsource, htask, bind, Except.bind, pure, Except.pure,
    begin, hinstall]
  rfl

/-- The mode has nothing to do with what is executed. -/
theorem Prepares.withMode (h : Prepares o inputs config task lines program) (mode : Mode) :
    Prepares { o with mode := some mode } inputs config task lines program :=
  ⟨h.list_eq, h.configOf_eq, h.taskOf_eq, h.compile_eq⟩

/-- What the program prints in a mode and how it ends, at whatever pace its turns are taken, the
worker acts and the host wakes up in between, if there are turns enough and the limit of time, if
there is one, is kept. -/
structure Prints (o : Options) (inputs : Inputs) (mode : Mode) (limit : Option Nat) (bound : Nat)
    (lines : List String) (exit : Exit) : Prop where
  played : ∀ beats now, (∀ t ∈ limit, elapsed beats < t) →
    ComesTo beats now (first { o with mode := some mode } inputs now) bound (lines, exit)
  executed : ∀ args pace turns, Options.parse args = .ok { o with mode := some mode } →
    bound ≤ turns → (∀ t ∈ limit, turns * pace < t) →
    execute args inputs pace turns = some (lines.toArray, exit)

/-- A session that is executed is played to even beats. -/
theorem Prints.of_played {mode : Mode} {limit : Option Nat} {bound : Nat} {exit : Exit}
    (h : ∀ beats now, (∀ t ∈ limit, elapsed beats < t) →
      ComesTo beats now (first { o with mode := some mode } inputs now) bound (lines, exit)) :
    Prints o inputs mode limit bound lines exit := by
  refine ⟨h, ?_⟩
  intro args pace turns hparse hbound hlimit
  apply execute_of_comesTo hparse _ hbound
  apply h
  intro t ht
  rw [elapsed_replicate_turn]
  exact hlimit t ht

/-- What is printed with single steps. -/
theorem Prepares.prints_step (h : Prepares o inputs config task lines program)
    (hhalts : (Machine.start program).HaltsIn n m s) :
    Prints o inputs .step none (n + 1)
      (lines ++ [stepLine (.start program)] ++ (stepsShown (.start program) n ++ finalLines m))
      (.success (closing config o.printSnapshot m)) := by
  apply Prints.of_played
  intro beats now _
  rw [(h.withMode _).first_eq]
  exact comesTo_stepping (e := installed config program) beats rfl rfl hhalts

/-- What is printed in a continuous run. -/
theorem Prepares.prints_run (h : Prepares o inputs config task lines program)
    (hhalts : (Machine.start program).HaltsIn n m s) :
    Prints o inputs .run none n (lines ++ (stepsShown (.start program) n ++ finalLines m))
      (.success (closing config o.printSnapshot m)) := by
  apply Prints.of_played
  intro beats now _
  -- the first step is taken at the start
  have hstart : ∀ p s, (Machine.start program).step = .ok (p, s) →
      first { o with mode := some .run } inputs now = .more (lines ++ stepShown s p)
        (Option.getD (Engine.due?
          { installed config program with
            machine := some p, activity := (installed config program).planned p now }) 0)
        ⟨{ installed config program with
          machine := some p, activity := (installed config program).planned p now },
          .running, o.printSnapshot⟩ := by
    intro p s hstep
    have hready : (installed config program).ready = .ok (.start program) := rfl
    rw [(h.withMode _).first_eq]
    simp only [launch, Option.getD_some, Engine.start, hready, Engine.runStep, hstep]
    rfl
  cases hhalts with
  | last hlive hstep hs =>
    have hhalted := (Machine.HaltsIn.last hlive hstep hs).halted
    rw [hstart _ _ hstep, stepsShown_succ hstep, stepsShown, List.append_nil, ← List.append_assoc]
    apply comesTo_of_halted (e := { installed config program with
      machine := some m, activity := (installed config program).planned m now }) beats _ rfl hhalted
    simp [Engine.planned, hhalted]
  | more hstep hhalts' =>
    rw [hstart _ _ hstep, stepsShown_succ hstep, List.append_assoc, ← List.append_assoc]
    exact comesTo_running (e := { installed config program with
      machine := some _, activity := (installed config program).planned _ now }) beats
      (planned_of_live hhalts'.live _ now) rfl rfl hhalts'

/-- What is printed with a computation. -/
theorem Prepares.prints_compute (h : Prepares o inputs config task lines program)
    (hhalts : (Machine.start program).HaltsIn n m s) :
    Prints o inputs .compute (some config.timeoutNanoseconds) (3 * n + 3)
      (lines ++ (noticeLines s ++ finalLines m))
      (.success (closing config o.printSnapshot m)) := by
  apply Prints.of_played
  intro beats now htime
  have htidy := Program.tidy_start h.compile_eq
  have hcopy : ((installed config program).copy (.start program)).restore =
      .ok (.start program) := htidy.restore_snapshot
  obtain ⟨job, hspawn, hnears⟩ :=
    Job.nears_of_spawn hcopy hhalts (installed config program).config.timeoutNanoseconds now
  have hready : (installed config program).ready = .ok (.start program) := rfl
  have hfirst : first { o with mode := some .compute } inputs now = .more (lines ++ []) 0
      ⟨{ installed config program with activity := .computing job }, .computing,
        o.printSnapshot⟩ := by
    rw [(h.withMode _).first_eq]
    simp only [launch, Option.getD_some, Engine.compute, hready, hspawn]
    rfl
  rw [hfirst, List.append_nil]
  apply comesTo_computing (e := { installed config program with activity := .computing job }) beats
    rfl rfl (htidy.iterate hhalts.iterate).restore_snapshot hhalts.halted hhalts.ne_moved hnears
  have hlimit := htime _ rfl
  show now + elapsed beats < now + config.timeoutNanoseconds
  omega

/-- **Three modes.** Where the options ask for a program that halts, all three modes end with
success, after the same closing lines about the same machine and with the same snapshot, which can
be read back from its text.  A continuous run prints what single steps print, without the line for
the machine at the beginning; and that is the first line of the text, if the tape has no line
feed. -/
theorem modes_agree (h : Prepares o inputs config task lines program)
    (hm : (Machine.start program).iterate n = .ok m) (hhalted : m.halted = true) :
    ∃ k s, k ≤ n ∧ (Machine.start program).HaltsIn k m s ∧
      Prints o inputs .step none (k + 1)
        (lines ++ [stepLine (.start program)] ++ (stepsShown (.start program) k ++ finalLines m))
        (.success (closing config o.printSnapshot m)) ∧
      Prints o inputs .run none k (lines ++ (stepsShown (.start program) k ++ finalLines m))
        (.success (closing config o.printSnapshot m)) ∧
      Prints o inputs .compute (some config.timeoutNanoseconds) (3 * k + 3)
        (lines ++ (noticeLines s ++ finalLines m)) (.success (closing config o.printSnapshot m)) ∧
      (Exit.success (closing config o.printSnapshot m)).code = 0 ∧
      (∀ c ∈ closing config o.printSnapshot m, c.symbols < UInt64.size →
        Snapshot.decode c.encode = .ok c) ∧
      (lines = [] → '\n' ∉ task.tape.toList →
        text (lines ++ (stepsShown (.start program) k ++ finalLines m)) =
          afterLine (text (lines ++ [stepLine (.start program)] ++
            (stepsShown (.start program) k ++ finalLines m)))) := by
  obtain ⟨k, s, hk, hhalts⟩ := Machine.exists_haltsIn rfl hm hhalted
  refine ⟨k, s, hk, hhalts, h.prints_step hhalts, h.prints_run hhalts, h.prints_compute hhalts,
    rfl, ?_, ?_⟩
  · intro c _ hsymbols
    exact Snapshot.decode_render hsymbols (.same _)
  · intro hlines htape
    obtain ⟨-, -, htape', -⟩ := Program.compile_eq_ok h.compile_eq
    subst hlines
    rw [← htape'] at htape
    exact (afterLine_text (not_mem_stepLine_start htape) _).symm

/-- Standard input with a program on it, and no files. -/
def piped (source : String) : Inputs :=
  ⟨fun _ => .error .notFound, some (.ok source)⟩

/-- The arguments for a mode and a tape, without a pause between steps and with the machine printed
at the end. -/
def argsFor (mode tape : String) : List String :=
  ["--mode", mode, "--delay=0", "--export", "-t", tape]

/-- A machine that goes right and stops there for want of a rule. -/
def stranded : Program :=
  match Program.compile "1,a 2,b>\n2,a 1,b>\n1,_ 2,c>" "aa" .origin with
  | .ok program => program
  | .error _ => ⟨.empty, "", .origin⟩

/-- Its three steps and the one that fails are shown in two modes and computed in the third; all
three print the machine at the end. -/
theorem modes_agree_stranded :
    ∃ (shown told closing : List String) (c : Snapshot),
      execute (argsFor "step" "aa") (piped "1,a 2,b>\n2,a 1,b>\n1,_ 2,c>") 1 20 =
        some (("Step: 0, State: 1, Head: 0, Tape: [aa]" :: (shown ++ closing)).toArray,
          .success (some c)) ∧
      execute (argsFor "run" "aa") (piped "1,a 2,b>\n2,a 1,b>\n1,_ 2,c>") 1 20 =
        some ((shown ++ closing).toArray, .success (some c)) ∧
      execute (argsFor "compute" "aa") (piped "1,a 2,b>\n2,a 1,b>\n1,_ 2,c>") 1 20 =
        some ((told ++ closing).toArray, .success (some c)) ∧
      text (shown ++ closing) =
        afterLine (text ("Step: 0, State: 1, Head: 0, Tape: [aa]" :: (shown ++ closing))) := by
  have hprepares : Prepares { tape := some "aa", delay := some 0, printSnapshot := true }
      (piped "1,a 2,b>\n2,a 1,b>\n1,_ 2,c>") ⟨0, 10000⟩
      ⟨"1,a 2,b>\n2,a 1,b>\n1,_ 2,c>", "aa", .origin⟩ [] stranded :=
    ⟨rfl, rfl, ⟨_, rfl, rfl⟩, by decide +kernel⟩
  have hhalts : ((Machine.start stranded).iterate 4).toOption.any (fun m => m.halted) = true := by
    decide +kernel
  cases hm : (Machine.start stranded).iterate 4 with
  | error fault =>
    rw [hm] at hhalts
    cases hhalts
  | ok m =>
    have hhalted : m.halted = true := by
      rw [hm] at hhalts
      exact hhalts
    obtain ⟨k, s, hk, -, hstep, hrun, hcompute, -, -, htext⟩ := modes_agree hprepares hm hhalted
    have hfirst : stepLine (.start stranded) = "Step: 0, State: 1, Head: 0, Tape: [aa]" := by
      decide +kernel
    have hparse : ∀ mode ∈ [("step", Mode.step), ("run", .run), ("compute", .compute)],
        Options.parse (argsFor mode.1 "aa") = .ok
          { tape := some "aa", delay := some 0, printSnapshot := true, mode := some mode.2 } := by
      decide +kernel
    rw [hfirst] at hstep htext
    refine ⟨stepsShown (.start stranded) k, noticeLines s, finalLines m, _,
      hstep.executed _ 1 20 (hparse ("step", .step) (by simp)) (by omega) (by simp),
      hrun.executed _ 1 20 (hparse ("run", .run) (by simp)) (by omega) (by simp),
      hcompute.executed _ 1 20 (hparse ("compute", .compute) (by simp)) (by omega) ?_,
      htext rfl (by decide)⟩
    intro t ht
    cases ht
    decide

/-- **The first line may be broken.** With a line feed on the tape, the text of a continuous run is
not that of single steps without its first line: the rest of the broken line is left over. -/
theorem first_line_broken :
    ∃ stepped ran : List String,
      (execute ["--mode", "step", "--delay", "0", "--tape", "a\nb"] (piped "1,a H,b") 0 9).map
        (fun result => (result.1.toList, result.2.code)) = some (stepped, 0) ∧
      (execute ["--mode", "run", "--delay", "0", "--tape", "a\nb"] (piped "1,a H,b") 0 9).map
        (fun result => (result.1.toList, result.2.code)) = some (ran, 0) ∧
      text ran ≠ afterLine (text stepped) ∧
      afterLine (text stepped) = "b]\n".toList ++ text ran := by
  refine ⟨["Step: 0, State: 1, Head: 0, Tape: [a\nb]", "Machine halted.",
    "Step: 1, State: H, Head: 0, Tape: [b\nb]", "", "Final tape:", "b\nb",
    "Transitions: 1, Symbols: 3, State: H, Head: 0"],
    ["Machine halted.", "Step: 1, State: H, Head: 0, Tape: [b\nb]", "", "Final tape:", "b\nb",
    "Transitions: 1, Symbols: 3, State: H, Head: 0"], ?_, ?_, ?_, ?_⟩
  all_goals decide +kernel

end CommandLine

end SingleTape
