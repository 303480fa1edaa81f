import SingleTape.Proofs.World.Schedule

/-!
# The course of a computation

Once a computation is under way, three parties act on it in any order: the worker, the host that
polls, waits and halts, and whoever requests a halt from elsewhere.  `World.Course` says what can
come of that.  Nothing is told and the machine stays as it is until one occurrence ends the
computation, in one of the ways of `World.Ends`; from then on the engine is at rest and nothing
more is told (`World.Quiet`).

That an aborted computation is a worker that panicked is a matter of history: the worker is gone
by then.  So the course carries along whether there has been a panic.

## Key results

- `World.after_of_computing`: one occurrence ends a computation or lets it go on
- `World.course_of_compute`: the course of a computation from its beginning
-/

namespace SingleTape

/-- Tells whether a call was refused. -/
def Answer.isRefusal : Answer → Bool
  | .refused _ => true
  | _ => false

namespace World

/-- Tells whether a call is refused. -/
def refuses (w : World) (c : Call) : Bool :=
  match w.call c with
  | .ok (_, reply) => reply.answer.isRefusal
  | .error _ => false

/-- What occurs while a host attends to a computation: the worker acts, time passes, and the host
polls, wakes up, halts, has a halt requested, or calls for something that is refused. -/
def attends (w : World) : Occurrence → Bool
  | .work | .elapse _ | .call .poll | .call (.wake _) | .call .halt | .call .requestHalt => true
  | .call c => w.refuses c

/-- The host does nothing but attend to a computation. -/
def attended (w : World) (os : List Occurrence) : Bool :=
  w.always attends os

/-- What cancels a computation: a halt, or a poll after a halt was requested. -/
def interrupts (w : World) : Occurrence → Bool
  | .call .halt => true
  | .call .poll => w.engine.haltRequested
  | _ => false

/-- The worker panics. -/
def Panics (w : World) (o : Occurrence) : Prop :=
  o = .work ∧ ∃ job, w.engine.activity = .computing job ∧ job.Panics

/-- The worker puts a message into the mailbox. -/
def isSending (w : World) : Occurrence → Bool
  | .work =>
    match w.engine.activity with
    | .computing job => job.isSending
    | _ => false
  | _ => false

/-- How many messages the worker sends in a run. -/
def sends (w : World) : List Occurrence → Nat
  | [] => 0
  | o :: os => (if w.isSending o then 1 else 0) +
    match w.after o with
    | .error _ => 0
    | .ok (w', _) => w'.sends os

/-- The ways in which a computation on `m` can end: the machine that is left and what is told. -/
inductive Ends (m : Machine) (panicked : Prop) (w : World) (o : Occurrence) :
    Machine → List Notice → Prop where
  /-- The machine entered the halt state. -/
  | halted {m' : Machine} (hlooks : w.interrupts o = false) (h : m.RestsAs m' .halted) :
      Ends m panicked w o m' [.update, .computeDone, .haltState]
  /-- The machine halted without applying a rule. -/
  | stopped {m' : Machine} {cause : Error} (hlooks : w.interrupts o = false)
      (h : m.RestsAs m' (.stopped cause)) (hcause : cause ≠ .computeAborted) :
      Ends m panicked w o m' [.update, .failure cause]
  /-- The time is up. -/
  | timedOut {job : Job} (hlooks : w.interrupts o = false)
      (hactivity : w.engine.activity = .computing job) (h : job.deadline ≤ w.now) :
      Ends m panicked w o m [.computeTimedOut]
  /-- The computation is cancelled, whatever the worker has done. -/
  | interrupted (h : w.interrupts o = true) : Ends m panicked w o m [.computeInterrupted]
  /-- The worker has panicked. -/
  | aborted (hlooks : w.interrupts o = false) (h : panicked) :
      Ends m panicked w o m [.failure .computeAborted]

/-- A computation is under way, and there is nothing to be found yet. -/
def Pending (w : World) : Prop :=
  ∃ job, w.engine.activity = .computing job ∧ job.Pending w.now

/-- At every point of a run the engine is at rest, its machine stays as it is and nothing is
told. -/
def Quiet (m : Machine) (w : World) : List Occurrence → Prop
  | [] => w.engine.activity = .idle ∧ w.engine.machine = some m
  | o :: os => w.engine.activity = .idle ∧ w.engine.machine = some m ∧
    ∃ w', w.after o = .ok (w', []) ∧ w'.Quiet m os

/-- The course of a computation on `m`.  At every point of a run the computation is under way, the
machine is `m` and nothing is told, up to an occurrence that ends the computation; after that all
is quiet.  A poll ends it unless there is nothing to be found yet. -/
def Course (m : Machine) (panicked : Prop) (w : World) : List Occurrence → Prop
  | [] => w.engine.isComputing = true ∧ w.engine.machine = some m
  | o :: os => w.engine.isComputing = true ∧ w.engine.machine = some m ∧
    ((w.interrupts o = false ∧ (o = .call .poll → w.Pending) ∧
        ∃ w', w.after o = .ok (w', []) ∧ w'.Course m (panicked ∨ w.Panics o) os) ∨
      ∃ w' m' notices, w.after o = .ok (w', w.engine.listeners.deliver notices) ∧
        w.Ends m panicked o m' notices ∧ w'.Quiet m' os)

/-! ## One occurrence -/

variable {w w' : World} {m : Machine} {job : Job} {panicked : Prop}

/-- A call that is refused is one that an engine may refuse, and it changes nothing. -/
theorem call_of_refuses {c : Call} (h : w.refuses c = true) :
    c.isRefusable = true ∧ ∃ cause, w.call c = .ok (w, w.engine.refuse cause) := by
  unfold refuses at h
  split at h
  · rename_i w' reply hcall
    obtain ⟨hperform, rfl⟩ := call_eq_ok hcall
    obtain ⟨cause, hanswer⟩ : ∃ cause, reply.answer = .refused cause := by
      unfold Answer.isRefusal at h
      split at h
      · rename_i cause hanswer
        exact ⟨cause, hanswer⟩
      · cases h
    obtain ⟨hrefusable, rfl⟩ := Engine.refuse_of_perform hperform hanswer
    exact ⟨hrefusable, cause, hcall⟩
  · cases h

/-- Nothing occurs by a call that is refused. -/
theorem after_of_refuses {c : Call} (h : w.refuses c = true) : w.after (.call c) = .ok (w, []) := by
  obtain ⟨-, cause, hcall⟩ := call_of_refuses h
  exact after_call hcall

/-- What an occurrence does to a computation on `m`. -/
inductive Advances (m : Machine) (panicked : Prop) (w : World) (job : Job) (o : Occurrence) :
    Prop where
  /-- The computation goes on.  Only an action of the worker does anything, and only to the
  worker. -/
  | goesOn {w' : World} (hlooks : w.interrupts o = false)
      (hpoll : o = .call .poll → job.Pending w.now) (hafter : w.after o = .ok (w', []))
      (hnow : w.now ≤ w'.now) (hmachine : w'.engine.machine = some m)
      (hactivity : w'.engine.activity = .computing (if o = .work then job.act w.now else job))
  /-- The computation ends. -/
  | ends {w' : World} {m' : Machine} {notices : List Notice} (hwork : o ≠ .work)
      (hafter : w.after o = .ok (w', w.engine.listeners.deliver notices))
      (hends : w.Ends m panicked o m' notices) (hidle : w'.engine.activity = .idle)
      (hmachine : w'.engine.machine = some m')

/-- A computation on `m` is under way, and what it may come to can be taken over. -/
structure Computes (m : Machine) (panicked : Prop) (w : World) (job : Job) : Prop where
  activity : w.engine.activity = .computing job
  machine : w.engine.machine = some m
  serves : job.Serves m w.now panicked
  restores : ∀ m' s, m.RestsAs m' s → m'.snapshot.restore = .ok m'

/-- Looking for an outcome ends a computation or lets it go on. -/
private theorem Computes.settle {c : Call} {result : Job × Option Outcome}
    (h : w.Computes m panicked job) (hlooks : w.interrupts (.call c) = false)
    (hpoll : result.2 = none → c = .poll → job.Pending w.now)
    (hresult : result = (job, none) ∨
      ∃ j' outcome, result = (j', some outcome) ∧ job.Gives w.now outcome)
    (hcall : w.call c =
      .ok (⟨(w.engine.settle result).engine, w.now⟩, w.engine.settle result)) :
    w.Advances m panicked job (.call c) := by
  have hafter := after_call hcall
  rcases hresult with rfl | ⟨j', outcome, rfl, hgives⟩
  · exact .goesOn hlooks (fun hc => hpoll rfl (Occurrence.call.inj hc)) hafter (Nat.le_refl _)
      h.machine rfl
  · rcases h.serves.reports hgives with hreports | ⟨rfl, hpanicked⟩
    · cases hreports with
      | halted hrests =>
        simp only [Engine.settle, Engine.finish, h.restores _ _ hrests] at hafter
        exact .ends (by simp) hafter (.halted hlooks hrests) rfl rfl
      | stopped hrests =>
        simp only [Engine.settle, Engine.finish, h.restores _ _ hrests] at hafter
        exact .ends (by simp) hafter (.stopped hlooks hrests hrests.cause_ne) rfl rfl
      | timedOut hdeadline =>
        exact .ends (by simp) hafter (.timedOut hlooks h.activity hdeadline) rfl h.machine
    · exact .ends (by simp) hafter (.aborted hlooks hpanicked) rfl h.machine

/-- Polling ends a computation or lets it go on. -/
private theorem Computes.poll (h : w.Computes m panicked job) :
    w.Advances m panicked job (.call .poll) := by
  cases hrequest : w.engine.haltRequested with
  | true =>
    -- the request is honoured before the mailbox is looked at
    have hcall : w.call .poll = .ok (⟨{ w.engine with activity := .idle, haltRequested := false },
        w.now⟩, { w.engine with activity := .idle, haltRequested := false }.report
          [.computeInterrupted]) := by
      simp only [World.call, Engine.perform, Engine.poll, hrequest, ↓reduceIte, Engine.stop?,
        h.activity]
      rfl
    exact .ends (by simp) (after_call hcall) (.interrupted hrequest) rfl h.machine
  | false =>
    refine h.settle hrequest (fun hnone _ => Job.pending_of_tryOutcome hnone)
      (job.tryOutcome_cases w.now) ?_
    simp only [World.call, Engine.perform, Engine.poll, hrequest, h.activity]
    rfl

/-- One occurrence ends a computation or lets it go on. -/
theorem after_of_computing {o : Occurrence} (h : w.Computes m panicked job)
    (hattends : w.attends o = true) : w.Advances m panicked job o := by
  cases o with
  | work =>
    have hwork : w.work = ⟨{ w.engine with activity := .computing (job.act w.now) }, w.now⟩ := by
      simp only [World.work, Engine.work, h.activity]
    have hafter : w.after .work = .ok (w.work, []) := rfl
    rw [hwork] at hafter
    exact .goesOn rfl (by simp) hafter (Nat.le_refl _) h.machine rfl
  | elapse nanoseconds =>
    exact .goesOn rfl (by simp) rfl (Nat.le_add_right _ _) h.machine h.activity
  | call c =>
    cases c with
    | poll => exact h.poll
    | wake byTimer =>
      refine h.settle rfl (by simp) (job.wake_cases byTimer w.now) ?_
      simp only [World.call, Engine.perform, Engine.wake, h.activity]
    | halt =>
      have hcall : w.call .halt = .ok (⟨{ w.engine with activity := .idle }, w.now⟩,
          { w.engine with activity := .idle }.done [.computeInterrupted]) := by
        simp only [World.call, Engine.perform, Engine.halt, Engine.stop?, h.activity]
        rfl
      exact .ends (by simp) (after_call hcall) (.interrupted rfl) rfl h.machine
    | requestHalt =>
      exact .goesOn rfl (by simp) rfl (Nat.le_refl _) h.machine h.activity
    | _ =>
      exact .goesOn rfl (by simp) (after_of_refuses hattends) (Nat.le_refl _) h.machine h.activity

/-- Where nothing is under way, attending to it does nothing and tells nothing. -/
private theorem after_of_idle {o : Occurrence} (hidle : w.engine.activity = .idle)
    (hattends : w.attends o = true) :
    ∃ w', w.after o = .ok (w', []) ∧ w'.engine.activity = .idle ∧
      w'.engine.machine = w.engine.machine := by
  cases o with
  | work =>
    have hwork : w.work = w := by simp only [World.work, Engine.work, hidle]
    exact ⟨w.work, rfl, by rw [hwork]; exact hidle, by rw [hwork]⟩
  | elapse nanoseconds => exact ⟨_, rfl, hidle, rfl⟩
  | call c =>
    cases c with
    | poll =>
      cases hrequest : w.engine.haltRequested with
      | true =>
        have hcall : w.call .poll = .ok (⟨{ w.engine with haltRequested := false }, w.now⟩,
            { w.engine with haltRequested := false }.report []) := by
          simp only [World.call, Engine.perform, Engine.poll, hrequest, ↓reduceIte, Engine.stop?,
            hidle]
          rfl
        exact ⟨_, after_call hcall, hidle, rfl⟩
      | false =>
        have hcall : w.call .poll = .ok (w, w.engine.report []) := by
          simp only [World.call, Engine.perform, Engine.poll, hrequest, hidle]
          rfl
        exact ⟨_, after_call hcall, hidle, rfl⟩
    | wake byTimer =>
      have hcall : w.call (.wake byTimer) = .ok (w, w.engine.report []) := by
        simp only [World.call, Engine.perform, Engine.wake, hidle]
        rfl
      exact ⟨_, after_call hcall, hidle, rfl⟩
    | halt =>
      have hcall : w.call .halt = .ok (w, w.engine.refuse .notRunning) := by
        simp only [World.call, Engine.perform, Engine.halt, Engine.stop?, hidle]
        rfl
      exact ⟨_, after_call hcall, hidle, rfl⟩
    | requestHalt => exact ⟨_, rfl, hidle, rfl⟩
    | _ => exact ⟨w, after_of_refuses hattends, hidle, rfl⟩

/-! ## Runs -/

/-- Where nothing is under way, all is quiet. -/
private theorem quiet_of_idle {os : List Occurrence} (hidle : w.engine.activity = .idle)
    (hmachine : w.engine.machine = some m) (hattended : w.attended os = true) :
    w.Quiet m os := by
  induction os generalizing w with
  | nil => exact ⟨hidle, hmachine⟩
  | cons o os ih =>
    obtain ⟨ho, hos⟩ := always_cons.mp hattended
    obtain ⟨w', hafter, hidle', hmachine'⟩ := after_of_idle hidle ho
    exact ⟨hidle, hmachine, w', hafter, ih hidle' (hmachine'.trans hmachine) (hos w' [] hafter)⟩

/-- Where all is quiet, nothing is sent. -/
private theorem Quiet.sends_eq {os : List Occurrence} (h : w.Quiet m os) : w.sends os = 0 := by
  induction os generalizing w with
  | nil => rfl
  | cons o os ih =>
    obtain ⟨hidle, -, w', hafter, hquiet⟩ := h
    have hsending : w.isSending o = false := by cases o <;> simp [isSending, hidle]
    simp only [sends, hsending, hafter, ih hquiet]
    rfl

/-- A computation that goes on is still the same computation. -/
private theorem Computes.goesOn {o : Occurrence} (h : w.Computes m panicked job)
    (hnow : w.now ≤ w'.now) (hmachine : w'.engine.machine = some m)
    (hactivity : w'.engine.activity = .computing (if o = .work then job.act w.now else job)) :
    w'.Computes m (panicked ∨ w.Panics o) (if o = .work then job.act w.now else job) := by
  refine ⟨hactivity, hmachine, ?_, h.restores⟩
  by_cases hwork : o = .work
  · -- a panic of this very action is one of those that count from now on
    rw [if_pos hwork]
    have hserves : job.Serves m w.now (panicked ∨ w.Panics o) := h.serves.mono (Nat.le_refl _) .inl
    exact (hserves.act fun hpanics => .inr ⟨hwork, job, h.activity, hpanics⟩).mono hnow id
  · rw [if_neg hwork]
    exact h.serves.mono hnow .inl

/-- A computation that is attended to takes its course. -/
theorem Computes.course {os : List Occurrence} (h : w.Computes m panicked job)
    (hattended : w.attended os = true) : w.Course m panicked os := by
  -- by induction on the run; what the worker has done so far is in the job and in `panicked`
  induction os generalizing w job panicked with
  | nil => exact ⟨by simp only [Engine.isComputing, h.activity], h.machine⟩
  | cons o os ih =>
    obtain ⟨ho, hos⟩ := always_cons.mp hattended
    refine ⟨by simp only [Engine.isComputing, h.activity], h.machine, ?_⟩
    cases after_of_computing h ho with
    | goesOn hlooks hpoll hafter hnow hmachine hactivity =>
      exact .inl ⟨hlooks, fun hcall => ⟨job, h.activity, hpoll hcall⟩, _, hafter,
        ih (h.goesOn hnow hmachine hactivity) (hos _ _ hafter)⟩
    | ends hwork hafter hends hidle hmachine =>
      exact .inr ⟨_, _, _, hafter, hends, quiet_of_idle hidle hmachine (hos _ _ hafter)⟩

/-- No more is sent in the course of a computation than is outstanding. -/
theorem Computes.sends_le {os : List Occurrence} (h : w.Computes m panicked job)
    (hattended : w.attended os = true) : w.sends os ≤ job.outstanding := by
  induction os generalizing w job panicked with
  | nil => exact Nat.zero_le _
  | cons o os ih =>
    obtain ⟨ho, hos⟩ := always_cons.mp hattended
    have hsending : w.isSending o = (decide (o = .work) && job.isSending) := by
      cases o <;> simp [isSending, h.activity]
    rw [sends, hsending]
    cases after_of_computing h ho with
    | goesOn hlooks hpoll hafter hnow hmachine hactivity =>
      have hrest := ih (h.goesOn hnow hmachine hactivity) (hos _ _ hafter)
      rw [hafter]
      -- an action of the worker takes off what it sends; nothing else touches the worker
      by_cases hwork : o = .work
      · have hact := job.outstanding_act w.now
        simp only [hwork, decide_true, Bool.true_and, ↓reduceIte] at hrest ⊢
        omega
      · simpa [hwork] using hrest
    | ends hwork hafter hends hidle hmachine =>
      have hrest := (quiet_of_idle hidle hmachine (hos _ _ hafter)).sends_eq
      rw [hafter]
      simp [hwork, hrest]

/-- Waiting is a way to attend to a computation. -/
private theorem attends_of_isWaiting {o : Occurrence} (h : o.isWaiting = true) :
    w.attends o = true := by
  unfold Occurrence.isWaiting at h
  split at h
  · rfl
  · rfl
  · rfl
  · rfl
  · cases h

/-- A computation that begins is given the machine of the engine. -/
theorem computes_of_compute {timeout : Option Nat} {reply : Reply} (hprogrammed : w.Programmed)
    (hcompute : w.call (.compute timeout) = .ok (w', reply)) (hdone : reply.answer = .done) :
    ∃ m job, w.engine.machine = some m ∧ w'.Computes m False job := by
  obtain ⟨program, n, htidy, m, hm, hmachine, -⟩ := hprogrammed.tracks
  obtain ⟨hperform, rfl⟩ := call_eq_ok hcompute
  cases Engine.performs_of_perform hperform with
  | refused => cases hdone
  | computing hready hspawn =>
    rename_i p budget job
    obtain ⟨hsome, -, hlive⟩ := Engine.ready_eq_ok hready
    cases hmachine.symm.trans hsome
    -- the machine is tidy, and so is whatever it comes to; both survive being copied
    have hrestore : (w.engine.copy m).restore = .ok m := (htidy.iterate hm).restore_snapshot
    refine ⟨m, job, hmachine, rfl, hmachine, Job.serves_of_spawn hrestore hlive hspawn, ?_⟩
    intro m' s hrests
    obtain ⟨k, hk⟩ := hrests.iterate
    exact ((htidy.iterate hm).iterate hk).restore_snapshot

/-- **Computations.** From its beginning a computation takes its course, whatever the worker does
and however the host attends to it, waiting included.  The worker sends at most one message, even
if the host lets go of the computation and the worker goes on alone. -/
theorem course_of_compute {timeout : Option Nat} {reply : Reply} {os : List Occurrence}
    (hprogrammed : w.Programmed) (hcompute : w.call (.compute timeout) = .ok (w', reply))
    (hdone : reply.answer = .done) (hattended : w'.attended os = true) :
    ∃ m job, w.engine.machine = some m ∧ w'.engine.activity = .computing job ∧
      w'.Course m False os ∧ w'.sends os ≤ 1 ∧ (∀ events, job.sends events ≤ 1) ∧
      ∀ w₁ told₁, w'.run os = .ok (w₁, told₁) → ∀ pace rounds told,
        ∃ os', w₁.WaitsBy pace rounds told os' ∧ w'.Course m False (os ++ os') := by
  obtain ⟨m, job, hmachine, hcomputes⟩ := computes_of_compute hprogrammed hcompute hdone
  have hone := job.outstanding_le_one
  refine ⟨m, job, hmachine, hcomputes.activity, hcomputes.course hattended, ?_, ?_, ?_⟩
  · exact Nat.le_trans (hcomputes.sends_le hattended) hone
  · intro events
    exact Nat.le_trans (job.sends_le_outstanding events) hone
  · intro w₁ told₁ hrun pace rounds told
    obtain ⟨os', hwaits⟩ := exists_waitsBy pace rounds w₁ told
    refine ⟨os', hwaits, hcomputes.course (always_append hattended ?_)⟩
    intro w₂ o ho
    exact attends_of_isWaiting (hwaits.1 o ho)

/-- A computation is cancelled although the worker has sent its result.  The worker acts until the
result is in the mailbox, a call is refused, a halt is requested, and two polls follow. -/
def cancelledLate : List Occurrence :=
  [.work, .work, .work, .work, .call .step, .call .requestHalt, .call .poll, .call .poll]

/-- An engine that has just begun a computation. -/
def begun : World :=
  match fourSteps.call (.compute none) with
  | .ok (w, _) => w
  | .error _ => fourSteps

/-- The computation takes its course, and one message is sent. -/
theorem course_of_compute_cancelledLate :
    ∃ m, fourSteps.engine.machine = some m ∧ begun.Course m False cancelledLate ∧
      begun.sends cancelledLate = 1 := by
  have hinstall : (new .standard).call (.install "1,a 2,b>\n2,a 1,b>\n2,_ H,c" "aaa" .origin) =
      .ok (fourSteps, fourSteps.engine.done [.update]) := by decide +kernel
  have hprogrammed : fourSteps.Programmed :=
    ⟨_, fourSteps, _, _, _, _, [], [], hinstall, rfl, rfl, rfl⟩
  have hcompute : fourSteps.call (.compute none) = .ok (begun, begun.engine.done []) := by
    decide +kernel
  have hattended : begun.attended cancelledLate = true := by decide +kernel
  obtain ⟨m, -, hmachine, -, hcourse, -⟩ := course_of_compute hprogrammed hcompute rfl hattended
  exact ⟨m, hmachine, hcourse, by decide +kernel⟩

end World

end SingleTape
