import SingleTape.Proofs.Job.Protocol
import SingleTape.Proofs.World.Reached

/-!
# What calls need

An engine refuses a call for the first condition that it finds violated, and different calls look at
the conditions in different orders.  In a sound engine the order does not matter: an engine without
a program is idle, and one with something under way has a machine that has not halted, so no two
conditions of a call are ever violated together.

## Key results

- `Engine.Sound.ready_cases`: an engine stands in one of four ways
- `World.goesOn_of_after`: what is under way ends or goes on, and nothing takes its place
- `World.exact_preconditions`: what calls need, in every world there can be
-/

namespace SingleTape

/-! ## The causes of a refusal -/

/-- The causes for which a program is refused by the compiler. -/
def Error.isOfProgram : Error → Bool
  | .malformedLine _ | .ruleForHalt _ | .duplicateRule _ | .emptyProgram | .undefinedState _ _
  | .noInitialRule _ | .invalidOffset _ => true
  | _ => false

/-- The causes for which a snapshot is refused. -/
def Error.isOfSnapshot : Error → Bool
  | .incompatibleSnapshot _ _ _ | .miscountedSnapshot _ _ => true
  | _ => false

theorem Table.isOfProgram_of_addLines {t : Table} {known : Std.ExtTreeSet StateId} {n : Nat}
    {texts : List (List Char)} {cause : Error} (h : t.addLines known n texts = .error cause) :
    cause.isOfProgram = true := by
  induction texts generalizing t known n with
  | nil => cases h
  | cons text rest ih =>
    simp only [addLines] at h
    split at h
    · cases h
      rfl
    · exact ih h
    · split at h
      · cases h
        rfl
      · split at h
        · cases h
          rfl
        · split at h
          · -- the cause lies in a later line
            rename_i hrest
            cases h
            exact ih hrest
          · cases h

theorem Table.isOfProgram_of_check {t : Table} {references : List Reference} {cause : Error}
    (h : t.check references = .error cause) : cause.isOfProgram = true := by
  unfold check at h
  split at h
  · cases h
    rfl
  · split at h
    · cases h
      rfl
    · split at h
      · cases h
      · cases h
        rfl

theorem Program.isOfProgram_of_compile {source tape : String} {offset : Position} {cause : Error}
    (h : compile source tape offset = .error cause) : cause.isOfProgram = true := by
  unfold compile Table.ofSource at h
  cases hfits : fits offset tape.length with
  | false =>
    rw [hfits] at h
    cases h
    rfl
  | true =>
    cases hlines : Table.empty.addLines ∅ 1 (Text.lines source.toList) with
    | error e =>
      rw [hfits, hlines] at h
      cases h
      exact Table.isOfProgram_of_addLines hlines
    | ok result =>
      obtain ⟨t, references⟩ := result
      cases hcheck : t.check references with
      | error e =>
        simp only [hfits, hlines, hcheck, bind, Except.bind] at h
        cases h
        exact Table.isOfProgram_of_check hcheck
      | ok _ =>
        simp only [hfits, hlines, hcheck, bind, Except.bind] at h
        cases h

theorem Snapshot.isOfSnapshot_of_restore {s : Snapshot} {cause : Error}
    (h : s.restore = .error cause) : cause.isOfSnapshot = true := by
  unfold restore at h
  split at h
  · cases h
    rfl
  · split at h
    · cases h
      rfl
    · cases h

/-! ## Sound engines -/

namespace Engine

variable {e : Engine}

/-- Where an engine can stand, and what it then answers to a call for a step. -/
theorem Sound.ready_cases (h : e.Sound) :
    (e.machine = none ∧ e.isRunning = false ∧ e.ready = .error .notProgrammed) ∨
    (∃ m, e.machine = some m ∧ e.isRunning = true ∧ m.halted = false ∧
      e.ready = .error .alreadyRunning) ∨
    (∃ m, e.machine = some m ∧ e.isRunning = false ∧ m.halted = true ∧
      e.ready = .error .machineHalted) ∨
    ∃ m, e.machine = some m ∧ e.isRunning = false ∧ m.halted = false ∧ e.ready = .ok m := by
  cases hrunning : e.isRunning with
  | true =>
    obtain ⟨m, hmachine, hlive⟩ := h.live hrunning
    exact .inr (.inl ⟨m, hmachine, rfl, hlive, by simp [ready, hmachine, hrunning]⟩)
  | false =>
    cases hmachine : e.machine with
    | none => exact .inl ⟨rfl, rfl, by simp [ready, hmachine]⟩
    | some m =>
      cases hhalted : m.halted with
      | true => exact .inr (.inr (.inl ⟨m, rfl, rfl, hhalted, by simp [ready, *]⟩))
      | false => exact .inr (.inr (.inr ⟨m, rfl, rfl, hhalted, by simp [ready, *]⟩))

theorem isSome_due? (e : Engine) :
    e.due?.isSome = true ↔ e.isRunning = true ∧ e.isComputing = false := by
  cases hactivity : e.activity <;> simp [due?, isRunning, isComputing, hactivity]

/-- Only a step of the machine can fail, so only a call that takes one can. -/
theorem call_of_fault {now : Nat} {c : Call} {fault : Fault}
    (h : e.perform now c = .error fault) : c = .start ∨ c = .step ∨ c = .poll := by
  cases c with
  | start => exact .inl rfl
  | step => exact .inr (.inl rfl)
  | poll => exact .inr (.inr rfl)
  | copy =>
    simp only [perform] at h
    split at h <;> cases h
  | _ => cases h

end Engine

/-! ## What is under way -/

/-- What is under way goes on: a continuous run as a continuous run, and a computation as the same
computation, perhaps with one more action of its worker. -/
inductive Activity.GoesOn (now : Nat) : Activity → Activity → Prop where
  | running (due due' : Nat) : GoesOn now (.running due) (.running due')
  | computing (job : Job) : GoesOn now (.computing job) (.computing job)
  | working (job : Job) : GoesOn now (.computing job) (.computing (job.act now))

theorem Activity.GoesOn.refl {now : Nat} {a : Activity} (h : a ≠ .idle) : a.GoesOn now a := by
  cases a with
  | idle => exact absurd rfl h
  | running due => exact .running due due
  | computing job => exact .computing job

namespace Engine

variable {e : Engine}

theorem activity_ne_idle (h : e.isRunning = true) : e.activity ≠ .idle := by
  intro hidle
  simp [isRunning, hidle] at h

/-- Looking for an outcome ends a computation or leaves it as it is. -/
theorem goesOn_of_settle {now : Nat} {job : Job} {result : Job × Option Outcome}
    (hactivity : e.activity = .computing job)
    (hresult : result = (job, none) ∨
      ∃ j' outcome, result = (j', some outcome) ∧ job.Gives now outcome)
    (hrunning : (e.settle result).engine.isRunning = true) :
    e.activity.GoesOn now (e.settle result).engine.activity := by
  rcases hresult with rfl | ⟨j', outcome, rfl, -⟩
  · rw [hactivity]
    exact .computing job
  · -- an outcome leaves nothing under way
    have hidle : (e.settle (j', some outcome)).engine.activity = .idle := by
      cases outcome with
      | timedOut => rfl
      | aborted => rfl
      | finished snapshot cause =>
        simp only [settle, finish]
        split <;> rfl
    exact absurd hidle (activity_ne_idle hrunning)

/-- A call that finds something under way ends it or lets it go on. -/
theorem goesOn_of_perform {now : Nat} {c : Call} {reply : Reply}
    (hperform : e.perform now c = .ok reply) (hbefore : e.isRunning = true)
    (hafter : reply.engine.isRunning = true) :
    e.activity.GoesOn now reply.engine.activity := by
  have hactive := activity_ne_idle hbefore
  cases performs_of_perform hperform with
  -- these calls need an idle engine
  | installed hidle | restored hidle | reset hidle | ignored _ hidle => exact absurd hidle hactive
  | started hready | stepped hready | computing hready =>
    exact absurd (ready_eq_ok hready).2.1 hactive
  | stopped hstop | obeyed _ hstop =>
    obtain ⟨rfl, -⟩ := stop?_eq_some hstop
    exact absurd rfl (activity_ne_idle hafter)
  | ran _ hactivity =>
    rename_i due m m' s _ _ _ _
    have hplanned := activity_ne_idle hafter
    simp only [report, planned] at hplanned ⊢
    split at hplanned
    · exact absurd rfl hplanned
    · rename_i hlive
      rw [hactivity, if_neg hlive]
      exact .running _ _
  | looked _ hactivity => exact goesOn_of_settle hactivity (Job.tryOutcome_cases _ _) hafter
  | woke hactivity => exact goesOn_of_settle hactivity (Job.wake_cases _ _ _) hafter
  | refused | unready | slept | copied | delayed | requested | subscribed | unsubscribed =>
    exact .refl hactive

end Engine

namespace World

variable {w w' : World}

/-- What is under way ends or goes on, and nothing takes its place. -/
theorem goesOn_of_after {o : Occurrence} {told : List Delivery}
    (h : w.after o = .ok (w', told)) (hbefore : w.engine.isRunning = true)
    (hafter : w'.engine.isRunning = true) :
    w.engine.activity.GoesOn w.now w'.engine.activity := by
  cases o with
  | call c =>
    obtain ⟨reply, hcall, -⟩ := call_of_after h
    obtain ⟨hperform, rfl⟩ := call_eq_ok hcall
    exact Engine.goesOn_of_perform hperform hbefore hafter
  | elapse nanoseconds =>
    cases h
    exact .refl (Engine.activity_ne_idle hbefore)
  | work =>
    cases h
    cases hactivity : w.engine.activity with
    | idle => exact absurd hactivity (Engine.activity_ne_idle hbefore)
    | running due =>
      simp only [World.work, Engine.work, hactivity]
      exact .running due due
    | computing job =>
      simp only [World.work, Engine.work, hactivity]
      exact .working job

/-! ## What calls need -/

/-- A call is refused for the given cause, and that is all that happens. -/
def RefusesFor (w : World) (c : Call) (cause : Error) : Prop :=
  w.call c = .ok (w, w.engine.refuse cause)

/-- A call is carried out, unless it takes a step that the full counter cannot count. -/
def CarriesOut (w : World) (c : Call) : Prop :=
  (∃ w' reply, w.call c = .ok (w', reply) ∧ reply.answer = .done) ∨
    w.call c = .error .transitionsFull

/-- What a call needs.  Of the conditions, each given with the cause for which the call is refused
without it, at most one is violated.  The call is refused for the one that is, and it is carried out
if there is none. -/
def Needs (w : World) (c : Call) (conditions : List (Bool × Error)) : Prop :=
  match conditions.filter fun condition => !condition.1 with
  | [] => w.CarriesOut c
  | [(_, cause)] => w.RefusesFor c cause
  | _ => False

/-- A call that fails does so because the counter of steps is full. -/
theorem fault_of_call (hsound : w.engine.Sound) {c : Call} {fault : Fault}
    (h : w.call c = .error fault) :
    fault = .transitionsFull ∧
      ∃ m, w.engine.machine = some m ∧ UInt64.size ≤ m.transitions.toNat + 1 := by
  obtain ⟨m, hmachine, hstep⟩ := Engine.fault_of_perform (call_eq_error h)
  obtain ⟨hfault, hfull⟩ := (hsound.reachable m hmachine).fault_eq hstep
  exact ⟨hfault, m, hmachine, hfull⟩

/-- A call for a step needs a program, an idle engine and a machine that has not halted. -/
theorem needs_of_ready (hsound : w.engine.Sound) {c : Call}
    (hrefused : ∀ cause, w.engine.ready = .error cause → w.RefusesFor c cause)
    (hdone : ∀ m, w.engine.ready = .ok m → ∀ w' reply, w.call c = .ok (w', reply) →
      reply.answer = .done) :
    w.Needs c [(w.engine.machine.isSome, .notProgrammed), (!w.engine.isRunning, .alreadyRunning),
      (!w.engine.isHalted, .machineHalted)] := by
  rcases hsound.ready_cases with ⟨hmachine, hidle, hready⟩ | ⟨m, hmachine, hrunning, hlive, hready⟩ |
    ⟨m, hmachine, hidle, hhalted, hready⟩ | ⟨m, hmachine, hidle, hlive, hready⟩
  · simpa [Needs, Engine.isHalted, hmachine, hidle] using hrefused _ hready
  · simpa [Needs, Engine.isHalted, hmachine, hrunning, hlive] using hrefused _ hready
  · simpa [Needs, Engine.isHalted, hmachine, hidle, hhalted] using hrefused _ hready
  · have hcarries : w.CarriesOut c := by
      cases hcall : w.call c with
      | ok result => exact .inl ⟨result.1, result.2, hcall, hdone m hready _ _ hcall⟩
      | error fault =>
        obtain ⟨rfl, -⟩ := fault_of_call hsound hcall
        exact .inr hcall
    simpa [Needs, Engine.isHalted, hmachine, hidle, hlive] using hcarries

theorem needs_start (hsound : w.engine.Sound) :
    w.Needs .start [(w.engine.machine.isSome, .notProgrammed),
      (!w.engine.isRunning, .alreadyRunning), (!w.engine.isHalted, .machineHalted)] := by
  refine needs_of_ready hsound (fun cause hready => ?_) fun m hready w' reply hcall => ?_
  · simp only [RefusesFor, World.call, Engine.perform, Engine.start, hready]
    rfl
  · obtain ⟨hperform, -⟩ := call_eq_ok hcall
    simp only [Engine.perform, Engine.start, hready] at hperform
    split at hperform
    · cases hperform
    · cases hperform
      rfl

theorem needs_step (hsound : w.engine.Sound) :
    w.Needs .step [(w.engine.machine.isSome, .notProgrammed),
      (!w.engine.isRunning, .alreadyRunning), (!w.engine.isHalted, .machineHalted)] := by
  refine needs_of_ready hsound (fun cause hready => ?_) fun m hready w' reply hcall => ?_
  · simp only [RefusesFor, World.call, Engine.perform, Engine.step, hready]
    rfl
  · obtain ⟨hperform, -⟩ := call_eq_ok hcall
    simp only [Engine.perform, Engine.step, hready] at hperform
    split at hperform
    · cases hperform
    · cases hperform
      rfl

theorem needs_reset (hsound : w.engine.Sound) :
    w.Needs .reset [(w.engine.machine.isSome, .notProgrammed),
      (!w.engine.isRunning, .alreadyRunning)] := by
  -- the second condition is looked at first; where it is violated the first is met
  cases hrunning : w.engine.isRunning with
  | true =>
    obtain ⟨m, hmachine, -⟩ := hsound.live hrunning
    simp [Needs, RefusesFor, World.call, Engine.perform, Engine.reset, hrunning, hmachine,
      Engine.refuse]
  | false =>
    cases hmachine : w.engine.machine with
    | none =>
      simp [Needs, RefusesFor, World.call, Engine.perform, Engine.reset, hrunning, hmachine,
        Engine.refuse]
    | some m =>
      simp [Needs, CarriesOut, World.call, Engine.perform, Engine.reset, hrunning, hmachine,
        Engine.done]

theorem needs_halt (w : World) : w.Needs .halt [(w.engine.isRunning, .notRunning)] := by
  cases hactivity : w.engine.activity with
  | idle =>
    have hrunning : w.engine.isRunning = false := by simp [Engine.isRunning, hactivity]
    simp [Needs, RefusesFor, World.call, Engine.perform, Engine.halt, Engine.stop?, hactivity,
      hrunning, Engine.refuse]
  | running due | computing job =>
    have hrunning : w.engine.isRunning = true := by simp [Engine.isRunning, hactivity]
    simp [Needs, CarriesOut, World.call, Engine.perform, Engine.halt, Engine.stop?, hactivity,
      hrunning, Engine.done]

/-- A program is refused on account of a run or a computation exactly if one is under way. -/
theorem refusesFor_install_iff (w : World) (source tape : String) (offset : Position) :
    w.RefusesFor (.install source tape offset) .installWhileRunning ↔
      w.engine.isRunning = true := by
  constructor
  · intro h
    obtain ⟨hperform, -⟩ := call_eq_ok h
    cases hrunning : w.engine.isRunning with
    | true => rfl
    | false =>
      simp only [Engine.perform, Engine.install, hrunning] at hperform
      cases hcompile : Program.compile source tape offset with
      | error cause =>
        -- what the compiler finds wrong with a program goes by other names
        have hcause : cause = .installWhileRunning := by
          simpa [hcompile, Engine.refuse] using hperform
        have hprogram := Program.isOfProgram_of_compile hcompile
        rw [hcause] at hprogram
        cases hprogram
      | ok program => simp [hcompile, Engine.done, Engine.refuse] at hperform
  · intro hrunning
    simp [RefusesFor, World.call, Engine.perform, Engine.install, hrunning, Engine.refuse]

/-- A snapshot is refused on account of a run or a computation exactly if one is under way. -/
theorem refusesFor_restore_iff (w : World) (snapshot : Snapshot) :
    w.RefusesFor (.restore snapshot) .alreadyRunning ↔ w.engine.isRunning = true := by
  constructor
  · intro h
    obtain ⟨hperform, -⟩ := call_eq_ok h
    cases hrunning : w.engine.isRunning with
    | true => rfl
    | false =>
      simp only [Engine.perform, Engine.restore, hrunning] at hperform
      cases hrestore : snapshot.restore with
      | error cause =>
        have hcause : cause = .alreadyRunning := by
          simpa [hrestore, Engine.refuse] using hperform
        have hsnapshot := Snapshot.isOfSnapshot_of_restore hrestore
        rw [hcause] at hsnapshot
        cases hsnapshot
      | ok m => simp [hrestore, Engine.done, Engine.refuse] at hperform
  · intro hrunning
    simp [RefusesFor, World.call, Engine.perform, Engine.restore, hrunning, Engine.refuse]

/-- **What calls need.** In every world there can be, whatever programs and snapshots came in on the
way and whatever the worker did:

* while anything is under way there is a machine that has not halted, and the time of the next step
  is known exactly if that is a continuous run;
* `start` and `step` need a program, an idle engine and a machine that has not halted, `reset` needs
  the first two, and `halt` needs that anything is under way; a call that is refused is refused for
  the one condition that is violated;
* a program or a snapshot is refused on account of what is under way exactly if anything is;
* a call fails only by a step that the full counter cannot count;
* what is under way ends or goes on, and nothing takes its place.

A host that waits stays in these worlds. -/
theorem exact_preconditions (hw : w.Reached) :
    (w.engine.isRunning = true → ∃ m, w.engine.machine = some m ∧ m.halted = false) ∧
    (w.engine.due?.isSome = true ↔
      w.engine.isRunning = true ∧ w.engine.isComputing = false) ∧
    (∀ c, c = .start ∨ c = .step →
      w.Needs c [(w.engine.machine.isSome, .notProgrammed),
        (!w.engine.isRunning, .alreadyRunning), (!w.engine.isHalted, .machineHalted)]) ∧
    w.Needs .reset [(w.engine.machine.isSome, .notProgrammed),
      (!w.engine.isRunning, .alreadyRunning)] ∧
    w.Needs .halt [(w.engine.isRunning, .notRunning)] ∧
    (∀ source tape offset,
      w.RefusesFor (.install source tape offset) .installWhileRunning ↔
        w.engine.isRunning = true) ∧
    (∀ snapshot, w.RefusesFor (.restore snapshot) .alreadyRunning ↔
      w.engine.isRunning = true) ∧
    (∀ c fault, w.call c = .error fault →
      (c = .start ∨ c = .step ∨ c = .poll) ∧ fault = .transitionsFull ∧
        ∃ m, w.engine.machine = some m ∧ UInt64.size ≤ m.transitions.toNat + 1) ∧
    (∀ o w' told, w.after o = .ok (w', told) → w.engine.isRunning = true →
      w'.engine.isRunning = true → w.engine.activity.GoesOn w.now w'.engine.activity) ∧
    ∀ pace rounds told w', (w.wait pace rounds told).1 = .idle w' ∨
      (w.wait pace rounds told).1 = .unfinished w' → w'.Reached := by
  have hsound := hw.sound
  refine ⟨hsound.live, w.engine.isSome_due?, ?_, needs_reset hsound, w.needs_halt,
    w.refusesFor_install_iff, w.refusesFor_restore_iff, ?_, ?_, ?_⟩
  · rintro c (rfl | rfl)
    · exact needs_start hsound
    · exact needs_step hsound
  · intro c fault hcall
    exact ⟨Engine.call_of_fault (call_eq_error hcall), fault_of_call hsound hcall⟩
  · intro o w' told hafter hbefore hrunning
    exact goesOn_of_after hafter hbefore hrunning
  · intro pace rounds told w' hwait
    exact hw.wait hwait

/-- An engine in the midst of a computation, with a halt requested from elsewhere. -/
def aboutToHalt : World :=
  match (new .standard).run [.call (.install "1,a 1,b>\n1,_ H,c" "aa" .origin), .call .step,
      .call (.compute none), .work, .call .requestHalt] with
  | .ok (w, _) => w
  | .error _ => new .standard

/-- The machine has not halted, a step is refused for the one condition that is violated, and a halt
is carried out. -/
theorem exact_preconditions_aboutToHalt :
    (∃ m, aboutToHalt.engine.machine = some m ∧ m.halted = false) ∧
    aboutToHalt.RefusesFor .step .alreadyRunning ∧
    aboutToHalt.RefusesFor (.install "" "" .last) .installWhileRunning ∧
    aboutToHalt.CarriesOut .halt := by
  have hrun : (new .standard).run [.call (.install "1,a 1,b>\n1,_ H,c" "aa" .origin), .call .step,
      .call (.compute none), .work, .call .requestHalt] = .ok (aboutToHalt, []) := by
    decide +kernel
  obtain ⟨hlive, -, hsteps, -, hhalt, hinstall, -⟩ :=
    exact_preconditions ((Reached.new .standard).run hrun)
  have hrunning : aboutToHalt.engine.isRunning = true := by decide +kernel
  refine ⟨hlive hrunning, ?_, (hinstall _ _ _).mpr hrunning, ?_⟩
  · exact hsteps .step (.inr rfl)
  · exact hhalt

end World

end SingleTape
