import SingleTape.Proofs.Job.Protocol
import SingleTape.Proofs.Machine.Symbols
import SingleTape.Proofs.World.Run

/-!
# Schedules

An engine steps its machine in three ways: when it is told to, in a continuous run, and in a
computation on a copy, which is taken over if it comes to an end.  A host may change between them
at any time, reset the machine, and leave runs and computations unfinished.

`World.effect` reads off a world what an occurrence is going to do to the machine.  The machine of
an installed program is at all times the first one after so many steps, and the effect says how
that number changes.  So no schedule loses a step or takes one twice.

## Key results

- `World.Tracks.after`: an occurrence changes the number of steps as its effect says
- `World.counted_of_install`: so does every run after a program is installed, waiting included
-/

namespace SingleTape

/-- What an occurrence can do to the machine of an engine. -/
inductive Effect where
  /-- It stays as it is. -/
  | nothing
  /-- Another machine takes its place. -/
  | replace
  /-- It is put back at the beginning of its program. -/
  | reset
  /-- It takes one step. -/
  | step
  /-- The result of a computation is taken over. -/
  | merge
deriving DecidableEq

namespace World

/-- Tells whether a call is carried out. -/
def accepts (w : World) (c : Call) : Bool :=
  match w.call c with
  | .ok (_, reply) => reply.answer = .done
  | .error _ => false

/-- What comes of looking for an outcome. -/
def effectOf : Option Outcome → Effect
  | some (.finished _ _) => .merge
  | _ => .nothing

/-- What an occurrence does to the machine.  Only calls do anything to it: those that install,
restore, reset or step, if they are carried out; a poll that finds no request to halt but a step
of a continuous run that is due; and a poll or a wake-up that finds the result of a computation. -/
def effect (w : World) : Occurrence → Effect
  | .call (.install source tape offset) =>
    if w.accepts (.install source tape offset) then .replace else .nothing
  | .call (.restore snapshot) => if w.accepts (.restore snapshot) then .replace else .nothing
  | .call .reset => if w.accepts .reset then .reset else .nothing
  | .call .step => if w.accepts .step then .step else .nothing
  | .call .start => if w.accepts .start then .step else .nothing
  | .call .poll =>
    if w.engine.haltRequested then .nothing
    else match w.engine.activity with
      | .idle => .nothing
      | .running due => if due ≤ w.now then .step else .nothing
      | .computing job => effectOf (job.tryOutcome w.now).2
  | .call (.wake byTimer) =>
    match w.engine.activity with
    | .computing job => effectOf (job.wake byTimer w.now).2
    | _ => .nothing
  | _ => .nothing

/-- The machine of the engine is the one that `m₀` becomes in `n` steps. -/
def HasTaken (w : World) (m₀ : Machine) (n : Nat) : Prop :=
  ∃ m, m₀.iterate n = .ok m ∧ w.engine.machine = some m

/-- How the number of steps changes from `n` to `n'` between two worlds. -/
def Progress (m₀ : Machine) (w w' : World) (n n' : Nat) : Effect → Prop
  | .nothing => n' = n ∧ w'.engine.machine = w.engine.machine
  | .replace => False
  | .reset => n' = 0 ∧ w'.engine.machine = some m₀
  | .step => n' = n + 1
  | .merge =>
    -- the machine has halted, by the last of these steps and not before
    w'.engine.isHalted = true ∧
      ∃ k p, n ≤ k ∧ n' = k + 1 ∧ m₀.iterate k = .ok p ∧ p.halted = false

/-- At every point of a run the machine is the one that `m₀` becomes in so many steps, and their
number, which is `n` at the beginning, changes by the effects of what occurs.  The run may be cut
short only by a step that cannot be counted. -/
def Counted (m₀ : Machine) (w : World) (n : Nat) : List Occurrence → Prop
  | [] => w.HasTaken m₀ n
  | o :: os => w.HasTaken m₀ n ∧
    match w.after o with
    | .error fault => fault = .transitionsFull
    | .ok (w', _) => ∃ n', Progress m₀ w w' n n' (w.effect o) ∧ w'.Counted m₀ n' os

/-- Nothing that occurs puts another machine in the place of the one that is there. -/
def keepsProgram (w : World) (os : List Occurrence) : Bool :=
  w.always (fun w o => w.effect o ≠ .replace) os

/-! ## One occurrence -/

/-- The machine is the one that the program's first machine becomes in `n` steps, and a
computation that is under way was given that machine. -/
def Tracks (program : Program) (w : World) (n : Nat) : Prop :=
  ∃ m, (Machine.start program).iterate n = .ok m ∧ w.engine.machine = some m ∧
    ∀ job, w.engine.activity = .computing job → job.Serves m w.now True

variable {program : Program} {w w' : World} {n : Nat}

theorem Tracks.hasTaken (h : w.Tracks program n) : w.HasTaken (.start program) n := by
  obtain ⟨m, hm, hmachine, -⟩ := h
  exact ⟨m, hm, hmachine⟩

/-- Whether a call is carried out shows in the answer. -/
theorem accepts_of_call {c : Call} {reply : Reply} (h : w.call c = .ok (w', reply)) :
    w.accepts c = decide (reply.answer = .done) := by
  simp only [accepts, h]

/-- A call that is refused has no effect. -/
private theorem effect_of_refused {c : Call} (hrefusable : c.isRefusable = true)
    (h : w.accepts c = false) : w.effect (.call c) = .nothing := by
  cases c <;> simp_all [effect, Call.isRefusable]

/-- What leaves the machine as it is and begins no computation keeps the number of steps. -/
private theorem Tracks.keep {o : Occurrence} (h : w.Tracks program n)
    (heffect : w.effect o = .nothing) (hmachine : w'.engine.machine = w.engine.machine)
    (hnow : w.now ≤ w'.now)
    (hactivity : ∀ job, w'.engine.activity = .computing job → w.engine.activity = .computing job) :
    ∃ n', Progress (.start program) w w' n n' (w.effect o) ∧ w'.Tracks program n' := by
  obtain ⟨m, hm, hsome, hjob⟩ := h
  rw [heffect]
  refine ⟨n, ⟨rfl, hmachine⟩, m, hm, hmachine.trans hsome, ?_⟩
  intro job hcomputing
  exact (hjob job (hactivity job hcomputing)).mono hnow id

/-- A step of the machine adds one to the number of steps. -/
private theorem Tracks.advance {o : Occurrence} {m m' : Machine} {s : Step}
    (h : w.Tracks program n) (heffect : w.effect o = .step) (hmachine : w.engine.machine = some m)
    (hstep : m.step = .ok (m', s)) (hmachine' : w'.engine.machine = some m')
    (hactivity : ∀ job, w'.engine.activity ≠ .computing job) :
    ∃ n', Progress (.start program) w w' n n' (w.effect o) ∧ w'.Tracks program n' := by
  obtain ⟨p, hp, hsome, -⟩ := h
  cases hsome.symm.trans hmachine
  rw [heffect]
  refine ⟨n + 1, rfl, m', Machine.iterate_succ hp hstep, hmachine', ?_⟩
  intro job hcomputing
  exact absurd hcomputing (hactivity job)

/-- Nothing is under way, so no computation is. -/
theorem ne_computing_of_idle {a : Activity} (h : a = .idle) (job : Job) :
    a ≠ .computing job := by
  rw [h]
  simp

/-- No computation is under way after a step of a continuous run. -/
theorem planned_ne_computing (e : Engine) (m : Machine) (now : Nat) (job : Job) :
    e.planned m now ≠ .computing job := by
  unfold Engine.planned
  split <;> simp

/-- A result that is taken over adds the steps of the worker, up to the last one. -/
private theorem Tracks.merge {o : Occurrence} {m m' : Machine} {s : Step}
    (h : w.Tracks program n) (heffect : w.effect o = .merge) (hmachine : w.engine.machine = some m)
    (hrests : m.RestsAs m' s) (hmachine' : w'.engine.machine = some m')
    (hidle : w'.engine.activity = .idle) :
    ∃ n', Progress (.start program) w w' n n' (w.effect o) ∧ w'.Tracks program n' := by
  obtain ⟨p, hp, hsome, -⟩ := h
  cases hsome.symm.trans hmachine
  -- the worker's steps follow upon those that led to its machine
  obtain ⟨k, q, hq, hlive, hlast⟩ := hrests.last
  have hq' : (Machine.start program).iterate (n + k) = .ok q := by
    rw [Machine.iterate_add hp]
    exact hq
  have hhalted : w'.engine.isHalted = true := by
    rw [Engine.isHalted, hmachine']
    exact hrests.halted
  rw [heffect]
  refine ⟨n + k + 1, ⟨hhalted, n + k, q, by omega, rfl, hq', hlive⟩, m',
    Machine.iterate_succ hq' hlast, hmachine', ?_⟩
  intro job hcomputing
  exact absurd hcomputing (ne_computing_of_idle hidle job)

/-- The result of a computation takes the place of the machine. -/
theorem settle_finished (e : Engine) (job : Job) (cause : Option Error) {m : Machine}
    (hm : m.Tidy) : (e.settle (job, some (.finished m.snapshot cause))).engine =
      { e with activity := .idle, machine := some m } := by
  simp only [Engine.settle, Engine.finish, hm.restore_snapshot]
  rfl

/-- Looking for an outcome takes over a result, or leaves the machine as it is. -/
private theorem Tracks.settle {job : Job} {result : Job × Option Outcome} {o : Occurrence}
    (htidy : (Machine.start program).Tidy) (h : w.Tracks program n)
    (hactivity : w.engine.activity = .computing job)
    (hresult : result = (job, none) ∨
      ∃ j' outcome, result = (j', some outcome) ∧ job.Gives w.now outcome)
    (heffect : w.effect o = effectOf result.2) :
    ∃ n', Progress (.start program) w ⟨(w.engine.settle result).engine, w.now⟩ n n' (w.effect o) ∧
      World.Tracks program ⟨(w.engine.settle result).engine, w.now⟩ n' := by
  have hle := Nat.le_refl w.now
  obtain ⟨m, hm, hsome, hjob⟩ := id h
  have htidy' : ∀ m' s, m.RestsAs m' s → m'.Tidy := by
    intro m' s hrests
    obtain ⟨k, hk⟩ := hrests.iterate
    exact (htidy.iterate hm).iterate hk
  rcases hresult with rfl | ⟨j', outcome, rfl, hgives⟩
  · refine h.keep heffect rfl hle ?_
    intro job' hjob'
    rw [hactivity]
    exact hjob'
  · -- a result is taken over, and the other two outcomes leave the machine
    rcases (hjob job hactivity).reports hgives with hreports | ⟨rfl, -⟩
    · cases hreports with
      | halted hrests =>
        have hsettle := settle_finished w.engine j' none (htidy' _ _ hrests)
        exact h.merge heffect hsome hrests (by rw [hsettle]) (by rw [hsettle])
      | stopped hrests =>
        rename_i m' cause
        have hsettle := settle_finished w.engine j' (some cause) (htidy' _ _ hrests)
        exact h.merge heffect hsome hrests (by rw [hsettle]) (by rw [hsettle])
      | timedOut =>
        exact h.keep heffect rfl hle
          fun job' hjob' => absurd hjob' (ne_computing_of_idle rfl job')
    · exact h.keep heffect rfl hle
        fun job' hjob' => absurd hjob' (ne_computing_of_idle rfl job')

/-- A call changes the number of steps as its effect says. -/
private theorem Tracks.call {c : Call} {reply : Reply} (htidy : (Machine.start program).Tidy)
    (h : w.Tracks program n) (hcall : w.call c = .ok (w', reply))
    (hkeeps : w.effect (.call c) ≠ .replace) :
    ∃ n', Progress (.start program) w w' n n' (w.effect (.call c)) ∧ w'.Tracks program n' := by
  have haccepts := accepts_of_call hcall
  obtain ⟨hperform, rfl⟩ := call_eq_ok hcall
  have hle := Nat.le_refl w.now
  -- the lemmas above take `h` whole; its parts are for the calls that have none
  obtain ⟨m, hm, hmachine, hjob⟩ := id h
  cases Engine.performs_of_perform hperform with
  | refused hrefusable =>
    exact h.keep (effect_of_refused hrefusable (haccepts.trans rfl)) rfl hle fun _ => id
  | installed | restored => exact absurd (by simp [effect, haccepts, Engine.done]) hkeeps
  | started hready hstep =>
    refine h.advance (if_pos (haccepts.trans rfl)) (Engine.ready_eq_ok hready).1 hstep rfl ?_
    exact planned_ne_computing _ _ _
  | stepped hready hstep =>
    obtain ⟨hready, hidle, -⟩ := Engine.ready_eq_ok hready
    exact h.advance (if_pos (haccepts.trans rfl)) hready hstep rfl (ne_computing_of_idle hidle)
  | reset hidle hsome =>
    rename_i p
    cases hmachine.symm.trans hsome
    -- no step changes the program, so the reset machine is the first one
    have hprogram : m.program = program :=
      Machine.iterate_induction (P := fun p => p.program = program)
        (fun hs hp => (Machine.program_step hs).trans hp) rfl hm
    have hreset : m.reset = .start program := by rw [Machine.reset, hprogram]
    rw [show w.effect (.call .reset) = .reset from if_pos (haccepts.trans rfl)]
    refine ⟨0, ⟨rfl, congrArg some hreset⟩, .start program, rfl, congrArg some hreset, ?_⟩
    intro job hjob'
    exact absurd hjob' (ne_computing_of_idle hidle job)
  | stopped hstop =>
    obtain ⟨rfl, -⟩ := Engine.stop?_eq_some hstop
    exact h.keep rfl rfl hle fun job hjob' => absurd hjob' (ne_computing_of_idle rfl job)
  | computing hready hspawn =>
    rename_i p budget job
    obtain ⟨hsome, -, hlive⟩ := Engine.ready_eq_ok hready
    cases hmachine.symm.trans hsome
    -- the machine stays here, and the worker is given a copy that is restored from a snapshot
    refine ⟨n, ⟨rfl, rfl⟩, m, hm, hmachine, ?_⟩
    rintro job' ⟨⟩
    have hrestore : (w.engine.copy m).restore = .ok m := (htidy.iterate hm).restore_snapshot
    exact Job.serves_of_spawn hrestore hlive hspawn
  | obeyed hrequest hstop =>
    obtain ⟨rfl, -⟩ := Engine.stop?_eq_some hstop
    exact h.keep (if_pos hrequest) rfl hle
      fun job hjob' => absurd hjob' (ne_computing_of_idle rfl job)
  | ignored hrequest hidle => exact h.keep (if_pos hrequest) rfl hle fun _ => id
  | ran hrequest hactivity hdue hsome hstep =>
    have heffect : w.effect (.call .poll) = .step := by simp [effect, hrequest, hactivity, hdue]
    exact h.advance heffect hsome hstep rfl (planned_ne_computing _ _ _)
  | unready hrequest hundue =>
    refine h.keep ?_ rfl hle fun _ => id
    rcases hundue with hidle | ⟨due, hactivity, hnone | hdue⟩
    · simp [effect, hrequest, hidle]
    · -- there is always a machine
      cases hmachine.symm.trans hnone
    · simp [effect, hrequest, hactivity, hdue]
  | looked hrequest hactivity =>
    refine h.settle htidy hactivity (Job.tryOutcome_cases _ _) ?_
    simp [effect, hrequest, hactivity]
  | woke hactivity =>
    refine h.settle htidy hactivity (Job.wake_cases _ _ _) ?_
    simp [effect, hactivity]
  | slept hactivity =>
    refine h.keep ?_ rfl hle fun _ => id
    simp only [effect]
  | copied | delayed | requested | subscribed | unsubscribed =>
    exact h.keep rfl rfl hle fun _ => id

/-- An occurrence changes the number of steps as its effect says. -/
theorem Tracks.after {o : Occurrence} {told : List Delivery}
    (htidy : (Machine.start program).Tidy) (h : w.Tracks program n)
    (hafter : w.after o = .ok (w', told)) (hkeeps : w.effect o ≠ .replace) :
    ∃ n', Progress (.start program) w w' n n' (w.effect o) ∧ w'.Tracks program n' := by
  cases o with
  | call c =>
    simp only [World.after] at hafter
    split at hafter
    · cases hafter
    · rename_i hcall
      cases hafter
      exact h.call htidy hcall hkeeps
  | work =>
    cases hafter
    obtain ⟨m, hm, hmachine, hjob⟩ := h
    cases hactivity : w.engine.activity with
    | computing job =>
      -- the worker has its own copy of the machine
      have hwork : w.work = ⟨{ w.engine with activity := .computing (job.act w.now) }, w.now⟩ := by
        simp only [World.work, Engine.work, hactivity]
      rw [hwork]
      refine ⟨n, ⟨rfl, rfl⟩, m, hm, hmachine, ?_⟩
      rintro job' ⟨⟩
      exact (hjob job hactivity).act fun _ => trivial
    | idle | running due =>
      have hwork : w.work = w := by simp only [World.work, Engine.work, hactivity]
      rw [hwork]
      exact ⟨n, ⟨rfl, rfl⟩, m, hm, hmachine, hjob⟩
  | elapse nanoseconds =>
    cases hafter
    exact h.keep rfl rfl (Nat.le_add_right _ _) fun _ => id

/-- Only counting the steps can fail. -/
private theorem Tracks.fault_eq {o : Occurrence} {fault : Fault} (h : w.Tracks program n)
    (hafter : w.after o = .error fault) : fault = .transitionsFull := by
  obtain ⟨m, hm, hmachine, -⟩ := h
  cases o with
  | call c =>
    have hperform : w.engine.perform w.now c = .error fault := by
      simp only [World.after, World.call] at hafter
      cases hperform : w.engine.perform w.now c with
      | error cause =>
        rw [hperform] at hafter
        cases hafter
        rfl
      | ok reply =>
        rw [hperform] at hafter
        cases hafter
    -- it was the step of the machine that failed, and a machine that is reached by steps can
    -- fail only by its counter
    obtain ⟨p, hp, hstep⟩ := Engine.fault_of_perform hperform
    cases hmachine.symm.trans hp
    have hreachable : m.Reachable :=
      Machine.iterate_induction (P := Machine.Reachable) (fun hs hp => .step hp hs)
        (.start program) hm
    exact (hreachable.fault_eq hstep).1
  | work => cases hafter
  | elapse nanoseconds => cases hafter

/-! ## Runs -/

/-- Every run that keeps the program is counted. -/
theorem Tracks.counted {os : List Occurrence} (htidy : (Machine.start program).Tidy)
    (h : w.Tracks program n) (hkeeps : w.keepsProgram os = true) :
    w.Counted (.start program) n os := by
  -- by induction on the run; `Tracks` is the invariant and `Tracks.after` its step
  induction os generalizing w n with
  | nil => exact h.hasTaken
  | cons o os ih =>
    obtain ⟨ho, hos⟩ := always_cons.mp hkeeps
    refine ⟨h.hasTaken, ?_⟩
    cases hafter : w.after o with
    | error fault => exact h.fault_eq hafter
    | ok result =>
      obtain ⟨w', told⟩ := result
      obtain ⟨n', hprogress, hw'⟩ := h.after htidy hafter (of_decide_eq_true ho)
      exact ⟨n', hprogress, ih hw' (hos w' told hafter)⟩

/-- A program that was just installed is at its beginning. -/
theorem tracks_of_install {source tape : String} {offset : Position} {reply : Reply}
    (hinstall : w.call (.install source tape offset) = .ok (w', reply))
    (hdone : reply.answer = .done) :
    ∃ program, Program.compile source tape offset = .ok program ∧ w'.Tracks program 0 := by
  obtain ⟨hperform, rfl⟩ := call_eq_ok hinstall
  cases Engine.performs_of_perform hperform with
  | refused => cases hdone
  | installed hidle hcompile =>
    refine ⟨_, hcompile, _, rfl, rfl, ?_⟩
    intro job hjob
    exact absurd hjob (ne_computing_of_idle hidle job)

/-- A run that keeps the program keeps track of it. -/
private theorem Tracks.run {os : List Occurrence} {told : List Delivery}
    (htidy : (Machine.start program).Tidy) (h : w.Tracks program n)
    (hkeeps : w.keepsProgram os = true) (hrun : w.run os = .ok (w', told)) :
    ∃ n', w'.Tracks program n' := by
  induction os generalizing w n told with
  | nil =>
    cases hrun
    exact ⟨n, h⟩
  | cons o os ih =>
    obtain ⟨ho, hos⟩ := always_cons.mp hkeeps
    obtain ⟨w₁, told₁, told₂, hafter, hrest, -⟩ := run_cons_eq_ok hrun
    obtain ⟨n', -, hw₁⟩ := h.after htidy hafter (of_decide_eq_true ho)
    exact ih hw₁ (hos w₁ told₁ hafter) hrest

/-- The machine of the engine comes from a program that was installed at some time and has been
kept since. -/
def Programmed (w : World) : Prop :=
  ∃ (w₁ w₀ : World) (source tape : String) (offset : Position) (reply : Reply)
    (os : List Occurrence) (told : List Delivery),
    w₁.call (.install source tape offset) = .ok (w₀, reply) ∧ reply.answer = .done ∧
      w₀.keepsProgram os = true ∧ w₀.run os = .ok (w, told)

/-- Where a program is in place, it is kept track of. -/
theorem Programmed.tracks (h : w.Programmed) :
    ∃ program n, (Machine.start program).Tidy ∧ w.Tracks program n := by
  obtain ⟨w₁, w₀, source, tape, offset, reply, os, told, hinstall, hdone, hkeeps, hrun⟩ := h
  obtain ⟨program, hcompile, htracks⟩ := tracks_of_install hinstall hdone
  have htidy := Program.tidy_start hcompile
  obtain ⟨n, hn⟩ := htracks.run htidy hkeeps hrun
  exact ⟨program, n, htidy, hn⟩

/-- Waiting does not put another machine in the place of the one that is there. -/
private theorem effect_ne_replace {o : Occurrence} (h : o.isWaiting = true) :
    w.effect o ≠ .replace := by
  have hoffers : ∀ found, effectOf found ≠ .replace := by
    intro found
    unfold effectOf
    split <;> simp
  unfold Occurrence.isWaiting at h
  split at h
  · simp only [effect]
    split
    · simp
    · split
      · simp
      · split <;> simp
      · exact hoffers _
  · simp only [effect]
    split
    · exact hoffers _
    · simp
  · simp [effect]
  · simp [effect]
  · cases h

/-- **Schedules.** After a program has been installed, and as long as no other is installed or
restored, the machine of the engine is at all times the one that the first machine becomes in so
many steps, whatever the host calls, the worker does and time passes in between.  The number of
steps changes only by the effects of what occurs.  A host that waits is no exception. -/
theorem counted_of_install {w₀ : World} {source tape : String} {offset : Position} {reply : Reply}
    {os : List Occurrence} (hinstall : w.call (.install source tape offset) = .ok (w₀, reply))
    (hdone : reply.answer = .done) (hkeeps : w₀.keepsProgram os = true) :
    ∃ m₀, w₀.engine.machine = some m₀ ∧ w₀.Counted m₀ 0 os ∧
      ∀ w₁ told₁, w₀.run os = .ok (w₁, told₁) → ∀ pace rounds told,
        ∃ os', w₁.WaitsBy pace rounds told os' ∧ w₀.Counted m₀ 0 (os ++ os') := by
  obtain ⟨program, hcompile, htracks⟩ := tracks_of_install hinstall hdone
  have htidy := Program.tidy_start hcompile
  obtain ⟨m₀, hm₀, hmachine, -⟩ := id htracks
  cases hm₀
  refine ⟨.start program, hmachine, htracks.counted htidy hkeeps, ?_⟩
  intro w₁ told₁ hrun pace rounds told
  obtain ⟨os', hwaits⟩ := exists_waitsBy pace rounds w₁ told
  refine ⟨os', hwaits, htracks.counted htidy (always_append hkeeps ?_)⟩
  intro w' o ho
  exact decide_eq_true (effect_ne_replace (hwaits.1 o ho))

/-- An engine with a program that halts after its fourth step. -/
def fourSteps : World :=
  match (new .standard).call (.install "1,a 2,b>\n2,a 1,b>\n2,_ H,c" "aaa" .origin) with
  | .ok (w, _) => w
  | .error _ => new .standard

/-- A schedule that goes through all the ways to step a machine: a continuous run of two steps, a
call that is refused meanwhile, a halt, a computation whose result is taken over, a reset and a
single step. -/
def mixed : List Occurrence :=
  [.call .start, .call .step, .elapse 100000000, .call .poll, .call .halt, .call (.compute none),
    .work, .work, .work, .call .poll, .work, .call .poll, .call .reset, .call .step]

/-- The schedule is counted from where the program is installed. -/
theorem counted_of_install_mixed :
    ∃ m₀, fourSteps.engine.machine = some m₀ ∧ fourSteps.Counted m₀ 0 mixed := by
  have hinstall : (new .standard).call (.install "1,a 2,b>\n2,a 1,b>\n2,_ H,c" "aaa" .origin) =
      .ok (fourSteps, fourSteps.engine.done [.update]) := by decide +kernel
  have hkeeps : fourSteps.keepsProgram mixed = true := by decide +kernel
  obtain ⟨m₀, hmachine, hcounted, -⟩ := counted_of_install hinstall rfl hkeeps
  exact ⟨m₀, hmachine, hcounted⟩

end World

end SingleTape
