import SingleTape.Proofs.World.Computation
import SingleTape.Proofs.World.Preconditions

/-!
# Requests to halt

A request to halt may come at any time and is kept as a flag.  A request puts the flag up; a poll
and the beginning of a continuous run take it down; and nothing but a poll looks at it.

So a request that is made while anything is under way is honoured by the next poll, before anything
that is due or ready.  It is as if the host had called for a halt in place of the poll and nobody
had made a request: nothing of it is left.

A request may also be left over, if it is made while nothing is under way, or if what it was meant
for ends in another way.  The beginning of a continuous run takes it down.  The beginning of a
computation does not, and a request that is left over stops the computation at its first poll.

## Key results

- `Engine.perform_withdrawn`, `World.run_withdrawn`: only a poll looks at a request
- `World.pollStops_iff`: a poll stops what is under way exactly if a request is pending
- `World.request_honoured`: what comes of a request while anything is under way
- `World.haltRequested_run_iff`: when a request is left over
- `World.stopped_by_request_iff`: which requests stop what was begun
-/

namespace SingleTape

/-! ## Only a poll looks at a request -/

namespace Engine

/-- The engine without a request to halt. -/
def withdrawn (e : Engine) : Engine :=
  { e with haltRequested := false }

/-- The engine with nothing under way and without a request to halt. -/
def stopped (e : Engine) : Engine :=
  { e with activity := .idle, haltRequested := false }

/-- What is told when that which is under way is stopped. -/
def stopNotices (e : Engine) : List Notice :=
  if e.isComputing then [.computeInterrupted] else []

end Engine

/-- The reply of an engine without a request to halt. -/
def Reply.withdrawn (r : Reply) : Reply :=
  { r with engine := r.engine.withdrawn }

namespace Engine

variable {e : Engine} {now : Nat}

/-- What is under way can be stopped. -/
theorem stop?_of_isRunning (h : e.isRunning = true) :
    e.stop? = some ({ e with activity := .idle }, e.stopNotices) := by
  unfold stop? stopNotices isComputing
  cases hactivity : e.activity with
  | idle => simp [isRunning, hactivity] at h
  | running due => rfl
  | computing job => rfl

/-- Looking for an outcome does not touch a request. -/
theorem settle_withdrawn (e : Engine) (result : Job × Option Outcome) :
    e.withdrawn.settle result = (e.settle result).withdrawn := by
  obtain ⟨job, found⟩ := result
  cases found with
  | none => rfl
  | some outcome =>
    cases outcome with
    | timedOut => rfl
    | aborted => rfl
    | finished snapshot cause =>
      cases hrestore : snapshot.restore with
      | error fault =>
        simp only [settle, finish, hrestore]
        rfl
      | ok m =>
        simp only [settle, finish, hrestore]
        rfl

/-- No call but a poll looks at a request. -/
theorem perform_withdrawn (e : Engine) (now : Nat) {c : Call} (hpoll : c ≠ .poll)
    (hrequest : c ≠ .requestHalt) :
    e.withdrawn.perform now c = (e.perform now c).map Reply.withdrawn := by
  -- what calls read of an engine is the same without a request
  have hready : e.withdrawn.ready = e.ready := rfl
  have hrunning : e.withdrawn.isRunning = e.isRunning := rfl
  have hmachine : e.withdrawn.machine = e.machine := rfl
  have hactivity : e.withdrawn.activity = e.activity := rfl
  cases c with
  | poll => exact absurd rfl hpoll
  | requestHalt => exact absurd rfl hrequest
  | install source tape offset =>
    simp only [perform, install, hrunning]
    split
    · rfl
    · split <;> rfl
  | start =>
    simp only [perform, start, hready]
    split
    · rfl
    · rename_i m _
      -- the run begins without a request in either case
      have hsame : { e.withdrawn with haltRequested := false } =
          { e with haltRequested := false } := rfl
      rw [hsame]
      cases hrun : { e with haltRequested := false }.runStep m now with
      | error fault => rfl
      | ok result =>
        obtain ⟨m', s, -, heq, -⟩ := runStep_eq_ok hrun
        simp only [heq]
        rfl
  | halt =>
    simp only [perform, halt, stop?, hactivity]
    cases e.activity <;> rfl
  | reset =>
    simp only [perform, reset, hrunning, hmachine]
    split
    · rfl
    · cases e.machine <;> rfl
  | step =>
    simp only [perform, step, hready]
    split
    · rfl
    · rename_i m _
      cases m.step <;> rfl
  | compute timeout thread =>
    simp only [perform, compute, hready]
    split
    · rfl
    · rename_i m _
      have hcopy : e.withdrawn.copy m = e.copy m := rfl
      have hconfig : e.withdrawn.config = e.config := rfl
      simp only [hcopy, hconfig]
      split <;> rfl
  | wake byTimer =>
    simp only [perform, wake, hactivity]
    cases e.activity with
    | idle => rfl
    | running due => rfl
    | computing job => exact congrArg Except.ok (settle_withdrawn e _)
  | copy =>
    simp only [perform, hmachine]
    cases e.machine <;> rfl
  | restore snapshot =>
    simp only [perform, restore, hrunning]
    split
    · rfl
    · split <;> rfl
  | setDelay milliseconds => rfl
  | subscribe kind => rfl
  | unsubscribe entry => rfl

end Engine

namespace World

/-- The world without a request to halt. -/
def withdrawn (w : World) : World :=
  ⟨w.engine.withdrawn, w.now⟩

/-- The world with nothing under way and without a request to halt. -/
def stopped (w : World) : World :=
  ⟨w.engine.stopped, w.now⟩

variable {w w' : World} {o : Occurrence} {os : List Occurrence} {told : List Delivery}

/-- Nothing but a poll looks at a request. -/
theorem after_withdrawn (h : w.after o = .ok (w', told)) (hpoll : o ≠ .call .poll)
    (hrequest : o ≠ .call .requestHalt) : w.withdrawn.after o = .ok (w'.withdrawn, told) := by
  cases o with
  | call c =>
    obtain ⟨reply, hcall, rfl⟩ := call_of_after h
    obtain ⟨hperform, rfl⟩ := call_eq_ok hcall
    have hwithdrawn : w.withdrawn.engine.perform w.withdrawn.now c = .ok reply.withdrawn := by
      rw [withdrawn, Engine.perform_withdrawn _ _ (fun hc => hpoll (by rw [hc]))
        (fun hc => hrequest (by rw [hc])), hperform]
      rfl
    have hcall' : w.withdrawn.call c = .ok (⟨reply.withdrawn.engine, w.now⟩, reply.withdrawn) := by
      simp only [World.call, hwithdrawn]
      rfl
    have hafter := after_call hcall'
    exact hafter
  | work =>
    cases h
    have hwork : w.withdrawn.work = w.work.withdrawn := by
      simp only [work, withdrawn, Engine.work]
      cases hactivity : w.engine.activity <;> simp only [Engine.withdrawn, hactivity]
    rw [← hwork]
    rfl
  | elapse nanoseconds =>
    cases h
    rfl

/-- A run without a poll goes the same way if nobody requests a halt. -/
theorem run_withdrawn (h : w.run os = .ok (w', told)) (hpoll : .call .poll ∉ os) :
    w.withdrawn.run (os.filter (· ≠ .call .requestHalt)) = .ok (w'.withdrawn, told) := by
  induction os generalizing w told with
  | nil =>
    cases h
    rfl
  | cons o os ih =>
    rw [List.mem_cons, not_or] at hpoll
    obtain ⟨hne, hpoll'⟩ := hpoll
    obtain ⟨w₁, told₁, told₂, hafter, hrest, rfl⟩ := run_cons_eq_ok h
    have hrest' := ih hrest hpoll'
    by_cases hrequest : o = .call .requestHalt
    · -- the request makes no difference but the flag
      subst hrequest
      cases hafter
      rw [List.filter_cons_of_neg (by simp)]
      exact hrest'
    · have hfirst := after_withdrawn hafter (Ne.symm hne) hrequest
      rw [List.filter_cons_of_pos (by simpa using hrequest), run_cons hfirst, hrest']
      rfl

/-! ## What a poll makes of a request -/

/-- A poll stops what is under way and takes the request down, and that is all it does. -/
def PollStops (w : World) : Prop :=
  w.call .poll = .ok (w.stopped, w.stopped.engine.report w.engine.stopNotices)

/-- A request comes first, whatever is due or ready. -/
theorem pollStops_of_haltRequested (hrunning : w.engine.isRunning = true)
    (hrequest : w.engine.haltRequested = true) : w.PollStops := by
  have hstop := Engine.stop?_of_isRunning (e := w.engine.withdrawn) hrunning
  rw [Engine.withdrawn] at hstop
  simp only [PollStops, World.call, Engine.perform, Engine.poll, hrequest, ↓reduceIte, hstop]
  rfl

/-- Looking for an outcome lets a computation go on, or ends it in another way than a halt does. -/
private theorem settle_cases (e : Engine) (result : Job × Option Outcome) :
    (∃ job, e.settle result = { e with activity := .computing job }.report []) ∨
      ∃ machine notices, e.settle result = { e with activity := .idle, machine }.report notices ∧
        .computeInterrupted ∉ notices := by
  obtain ⟨job, found⟩ := result
  cases found with
  | none => exact .inl ⟨job, rfl⟩
  | some outcome =>
    refine .inr ?_
    cases outcome with
    | timedOut => exact ⟨e.machine, _, rfl, by simp⟩
    | aborted => exact ⟨e.machine, _, rfl, by simp⟩
    | finished snapshot cause =>
      simp only [Engine.settle, Engine.finish]
      split
      · exact ⟨e.machine, _, rfl, by simp⟩
      · exact ⟨_, _, rfl, by cases cause <;> simp⟩

private theorem haltRequested_settle (e : Engine) (result : Job × Option Outcome) :
    (e.settle result).engine.haltRequested = e.haltRequested := by
  rcases settle_cases e result with ⟨job, hsettle⟩ | ⟨machine, notices, hsettle, -⟩
  · rw [hsettle]
    rfl
  · rw [hsettle]
    rfl

/-- What is told of a step is more than nothing. -/
private theorem noticesOf_ne_nil (s : Step) : Engine.noticesOf s ≠ [] := by
  cases s <;> simp [Engine.noticesOf]

/-- A poll stops what is under way exactly if a request is pending. -/
theorem pollStops_iff (hrunning : w.engine.isRunning = true) :
    w.PollStops ↔ w.engine.haltRequested = true := by
  refine ⟨fun h => ?_, pollStops_of_haltRequested hrunning⟩
  obtain ⟨hperform, -⟩ := call_eq_ok h
  generalize hreply : w.stopped.engine.report w.engine.stopNotices = reply at hperform
  have hidle : reply.engine.activity = .idle := by rw [← hreply]; rfl
  have hnotices : reply.notices = w.engine.stopNotices := by rw [← hreply]; rfl
  cases Engine.performs_of_perform hperform with
  | refused hrefusable => cases hrefusable
  | obeyed hrequest | ignored hrequest => exact hrequest
  | ran _ hactivity =>
    -- a step is told
    simp only [Engine.stopNotices, Engine.isComputing, hactivity] at hnotices
    exact absurd hnotices (noticesOf_ne_nil _)
  | unready =>
    exact absurd hidle (Engine.activity_ne_idle hrunning)
  | looked _ hactivity =>
    rename_i job _
    simp only [Engine.stopNotices, Engine.isComputing, hactivity] at hnotices
    rcases settle_cases w.engine (job.tryOutcome w.now) with
      ⟨job', hsettle⟩ | ⟨machine, notices, hsettle, hnot⟩
    · rw [hsettle] at hidle
      cases hidle
    · rw [hsettle] at hnotices
      cases hnotices
      exact absurd List.mem_cons_self hnot

/-! ## What puts a request up and takes it down -/

/-- What takes a request down: a poll, and the beginning of a continuous run. -/
def takesDown (w : World) : Occurrence → Bool
  | .call .poll => true
  | .call .start => w.accepts .start
  | _ => false

/-- A request is pending if it is being made, or if one was and is not taken down. -/
theorem haltRequested_after (h : w.after o = .ok (w', told)) :
    w'.engine.haltRequested =
      (decide (o = .call .requestHalt) || w.engine.haltRequested && !w.takesDown o) := by
  cases o with
  | work =>
    cases h
    simp only [World.work, Engine.work, takesDown]
    split <;> simp
  | elapse nanoseconds =>
    cases h
    simp [elapse, takesDown]
  | call c =>
    obtain ⟨reply, hcall, -⟩ := call_of_after h
    have haccepts := accepts_of_call hcall
    obtain ⟨hperform, rfl⟩ := call_eq_ok hcall
    cases Engine.performs_of_perform hperform with
    | refused hrefusable =>
      -- polls are not refused, and a start that is refused takes nothing down
      cases c <;> simp_all [takesDown, Call.isRefusable, Engine.refuse]
    | started => simp [takesDown, haccepts, Engine.done]
    | stopped hstop =>
      obtain ⟨rfl, -⟩ := Engine.stop?_eq_some hstop
      simp [takesDown, Engine.done]
    | obeyed _ hstop =>
      obtain ⟨rfl, -⟩ := Engine.stop?_eq_some hstop
      simp [takesDown, Engine.report]
    | ignored => simp [takesDown, Engine.report]
    | ran hrequest | unready hrequest => simp [takesDown, Engine.report, hrequest]
    | looked hrequest => simp [takesDown, haltRequested_settle, hrequest]
    | woke => simp [takesDown, haltRequested_settle]
    | requested => simp [Engine.done]
    | _ => simp [takesDown, Engine.done, Engine.report, Engine.setDelay]

/-- A request is left over from a run: one is made, and nothing takes it down after that. -/
def leavesRequest (w : World) : List Occurrence → Bool
  | [] => false
  | o :: os =>
    match w.after o with
    | .error _ => false
    | .ok (w', _) =>
      (o = .call .requestHalt && w'.always (fun w o => !w.takesDown o) os) || w'.leavesRequest os

/-- A request is pending after a run if one was pending before and nothing took it down, or if one
is left over from the run. -/
theorem haltRequested_run_iff (h : w.run os = .ok (w', told)) :
    w'.engine.haltRequested = true ↔
      (w.engine.haltRequested = true ∧ w.always (fun w o => !w.takesDown o) os = true) ∨
        w.leavesRequest os = true := by
  induction os generalizing w told with
  | nil =>
    cases h
    simp [always, leavesRequest]
  | cons o os ih =>
    obtain ⟨w₁, told₁, told₂, hafter, hrest, rfl⟩ := run_cons_eq_ok h
    -- after the first occurrence a request is pending because of it or in spite of it
    rw [ih hrest, haltRequested_after hafter]
    simp only [leavesRequest, always, hafter, Bool.or_eq_true, Bool.and_eq_true, decide_eq_true_eq]
    tauto

/-- While something is under way and goes on, requests add up: a poll that found one would have
stopped it, and nothing else is begun. -/
theorem haltRequested_after_of_running (h : w.after o = .ok (w', told))
    (hbefore : w.engine.isRunning = true) (hafter : w'.engine.isRunning = true) :
    w'.engine.haltRequested =
      (w.engine.haltRequested || decide (o = .call .requestHalt)) := by
  have hdown : w.engine.haltRequested = true → w.takesDown o = false := by
    intro hrequest
    unfold takesDown
    split
    · -- a poll would have stopped it
      have hstopped := after_call (pollStops_of_haltRequested hbefore hrequest)
      cases hstopped.symm.trans h
      cases hafter
    · -- a continuous run is begun only where nothing is under way
      obtain ⟨reply, hcall, -⟩ := call_of_after h
      rw [accepts_of_call hcall]
      cases Engine.performs_of_perform (call_eq_ok hcall).1 with
      | refused => rfl
      | started hready =>
        exact absurd (Engine.ready_eq_ok hready).2.1 (Engine.activity_ne_idle hbefore)
    · rfl
  rw [haltRequested_after h]
  cases hrequest : w.engine.haltRequested with
  | false => simp
  | true => simp [hdown hrequest]

/-- While something is under way and goes on, a request is pending once one was made. -/
theorem haltRequested_run_of_running (h : w.run os = .ok (w', told))
    (hon : w.always (fun w _ => w.engine.isRunning) os = true)
    (hrunning : w'.engine.isRunning = true) :
    w'.engine.haltRequested =
      (w.engine.haltRequested || decide (.call .requestHalt ∈ os)) := by
  induction os generalizing w told with
  | nil =>
    cases h
    simp
  | cons o os ih =>
    obtain ⟨hbefore, hlater⟩ := always_cons.mp hon
    obtain ⟨w₁, told₁, told₂, hafter, hrest, rfl⟩ := run_cons_eq_ok h
    have hon' := hlater w₁ told₁ hafter
    -- what is under way at the end was so after the first occurrence
    have hgoes : w₁.engine.isRunning = true := by
      cases os with
      | nil =>
        cases hrest
        exact hrunning
      | cons o' os' => exact (always_cons.mp hon').1
    rw [ih hrest hon', haltRequested_after_of_running hafter hbefore hgoes]
    simp [Bool.or_assoc, eq_comm]

/-! ## A request while something is under way -/

/-- What passes by: the worker acts, time passes, a halt is requested, the machine is copied, the
pause between steps is changed, listeners come and go, and calls are refused. -/
def passesBy (w : World) : Occurrence → Bool
  | .work | .elapse _ | .call .requestHalt | .call .copy | .call (.setDelay _)
  | .call (.subscribe _) | .call (.unsubscribe _) => true
  | .call c => w.refuses c

/-- What is under way stays under way, and the machine stays as it is. -/
structure Undisturbed (w w' : World) : Prop where
  machine : w'.engine.machine = w.engine.machine
  running : w'.engine.isRunning = w.engine.isRunning
  computing : w'.engine.isComputing = w.engine.isComputing

theorem Undisturbed.trans {w'' : World} (h : w.Undisturbed w') (h' : w'.Undisturbed w'') :
    w.Undisturbed w'' :=
  ⟨h'.machine.trans h.machine, h'.running.trans h.running, h'.computing.trans h.computing⟩

/-- What passes by disturbs nothing and tells nothing. -/
theorem after_of_passesBy (h : w.passesBy o = true) :
    ∃ w', w.after o = .ok (w', []) ∧ w.Undisturbed w' := by
  cases o with
  | work =>
    refine ⟨w.work, rfl, ?_⟩
    simp only [World.work, Engine.work]
    split
    · rename_i job hactivity
      exact ⟨rfl, by simp [Engine.isRunning, hactivity], by simp [Engine.isComputing, hactivity]⟩
    · exact ⟨rfl, rfl, rfl⟩
  | elapse nanoseconds => exact ⟨_, rfl, rfl, rfl, rfl⟩
  | call c =>
    cases c with
    | copy =>
      cases hmachine : w.engine.machine with
      | none =>
        have hcall : w.call .copy = .ok (w, w.engine.refuse .notProgrammed) := by
          simp only [World.call, Engine.perform, hmachine]
          rfl
        exact ⟨w, after_call hcall, rfl, rfl, rfl⟩
      | some m =>
        have hcall : w.call .copy = .ok (w, ⟨w.engine, .copied (w.engine.copy m), []⟩) := by
          simp only [World.call, Engine.perform, hmachine]
        exact ⟨w, after_call hcall, rfl, rfl, rfl⟩
    | requestHalt | setDelay _ | subscribe _ | unsubscribe _ => exact ⟨_, rfl, rfl, rfl, rfl⟩
    | _ => exact ⟨w, after_of_refuses h, rfl, rfl, rfl⟩

/-- A poll does not pass by. -/
theorem ne_poll_of_passesBy (h : w.passesBy o = true) : o ≠ .call .poll := by
  rintro rfl
  obtain ⟨hrefusable, -⟩ := call_of_refuses h
  cases hrefusable

/-- Whatever passes by while something is under way, it stays under way all along. -/
theorem run_of_passesBy (h : w.always passesBy os = true) (hrunning : w.engine.isRunning = true) :
    ∃ w', w.run os = .ok (w', []) ∧ w.Undisturbed w' ∧ .call .poll ∉ os ∧
      w.always (fun w _ => w.engine.isRunning) os = true := by
  induction os generalizing w with
  | nil => exact ⟨w, rfl, ⟨rfl, rfl, rfl⟩, List.not_mem_nil, rfl⟩
  | cons o os ih =>
    obtain ⟨ho, hos⟩ := always_cons.mp h
    obtain ⟨w₁, hafter, hkeeps⟩ := after_of_passesBy ho
    obtain ⟨w', hrun, hkeeps', hpoll, hon⟩ :=
      ih (hos w₁ [] hafter) (hkeeps.running.trans hrunning)
    refine ⟨w', ?_, hkeeps.trans hkeeps', ?_, always_cons.mpr ⟨hrunning, ?_⟩⟩
    · rw [run_cons hafter, hrun]
      rfl
    · rw [List.mem_cons, not_or]
      exact ⟨(ne_poll_of_passesBy ho).symm, hpoll⟩
    · rintro w₂ told₂ hafter'
      cases hafter.symm.trans hafter'
      exact hon

/-- A halt ends what is under way as a poll does that finds a request. -/
theorem call_halt_of_running (hrunning : w.engine.isRunning = true) :
    w.withdrawn.call .halt = .ok (w.stopped, w.stopped.engine.done w.engine.stopNotices) := by
  have hstop := Engine.stop?_of_isRunning (e := w.engine.withdrawn) hrunning
  simp only [World.call, withdrawn, Engine.perform, Engine.halt, hstop]
  rfl

/-- A request that is withdrawn can be made again. -/
theorem after_requestHalt_withdrawn (h : w.engine.haltRequested = true) :
    w.withdrawn.after (.call .requestHalt) = .ok (w, []) := by
  obtain ⟨⟨machine, config, listeners, activity, flag⟩, now⟩ := w
  cases h
  rfl

/-- **Requests to halt.** Something is under way, a halt is requested, perhaps more than once, and
nothing else is done but what passes by.  Then the next poll, or the first poll of a host that
waits, stops what is under way, whatever is due or ready.  The machine is the one that was there,
no step is taken and no result is taken over; a computation is reported as interrupted, and of a
continuous run nothing is told.  Any number of requests act as one; and nothing is left of them,
since it is all as if the host had called for a halt and nobody had requested one. -/
theorem request_honoured (hrunning : w.engine.isRunning = true)
    (hpasses : w.always passesBy os = true) (hrequest : .call .requestHalt ∈ os) :
    ∃ w₁ w₂ reply, w.run os = .ok (w₁, []) ∧ w₁.call .poll = .ok (w₂, reply) ∧
      reply.answer = .active false ∧
      reply.notices = (if w.engine.isComputing then [.computeInterrupted] else []) ∧
      w₂.engine.machine = w.engine.machine ∧ w₂.engine.activity = .idle ∧
      w₂.engine.haltRequested = false ∧
      (∀ pace rounds told,
        w₁.wait pace (rounds + 1) told = (.idle w₂, told ++ reply.deliveries)) ∧
      w.withdrawn.run (os.filter (· ≠ .call .requestHalt) ++ [.call .requestHalt, .call .poll]) =
        .ok (w₂, reply.deliveries) ∧
      w.withdrawn.run (os.filter (· ≠ .call .requestHalt) ++ [.call .halt]) =
        .ok (w₂, reply.deliveries) := by
  obtain ⟨w₁, hrun, hkeeps, hpoll, hon⟩ := run_of_passesBy hpasses hrunning
  have hrunning₁ : w₁.engine.isRunning = true := hkeeps.running.trans hrunning
  have hflag : w₁.engine.haltRequested = true := by
    rw [haltRequested_run_of_running hrun hon hrunning₁, decide_eq_true hrequest, Bool.or_true]
  have hcall : w₁.call .poll =
      .ok (w₁.stopped, w₁.stopped.engine.report w₁.engine.stopNotices) :=
    pollStops_of_haltRequested hrunning₁ hflag
  have hwithdrawn := run_withdrawn hrun hpoll
  refine ⟨w₁, w₁.stopped, _, hrun, hcall, rfl, ?_, hkeeps.machine, rfl, rfl, ?_, ?_, ?_⟩
  · rw [← hkeeps.computing]
    rfl
  · intro pace rounds told
    simp only [wait, hcall]
    rfl
  · -- without the requests, one puts up the flag again
    rw [run_append hwithdrawn, run_cons (after_requestHalt_withdrawn hflag),
      run_cons (after_call hcall), run]
    simp [Except.map]
  · rw [run_append hwithdrawn, run_cons (after_call (call_halt_of_running hrunning₁)), run]
    simp [Except.map, Reply.deliveries, Engine.done, Engine.report]

/-- Requests come too late for the worker, which has its result ready.  In between, a call is
refused, the pause is changed and the machine is copied. -/
def requestedLate : List Occurrence :=
  [.work, .work, .work, .work, .call .requestHalt, .call .step, .call .requestHalt,
    .call (.setDelay 5), .call .copy]

/-- The result would be taken over, but for the requests. -/
theorem request_honoured_requestedLate :
    begun.engine.isRunning = true ∧ begun.always passesBy requestedLate = true ∧
      .call .requestHalt ∈ requestedLate ∧
      ∃ w₁ w₂ reply, begun.run requestedLate = .ok (w₁, []) ∧
        w₁.withdrawn.effect (.call .poll) = .merge ∧ w₁.call .poll = .ok (w₂, reply) ∧
        reply.notices = [.computeInterrupted] ∧ w₂.engine.machine = begun.engine.machine ∧
        w₂.engine.activity = .idle := by
  have hrunning : begun.engine.isRunning = true := by decide +kernel
  have hpasses : begun.always passesBy requestedLate = true := by decide +kernel
  have hrequest : .call .requestHalt ∈ requestedLate := by decide
  refine ⟨hrunning, hpasses, hrequest, ?_⟩
  obtain ⟨w₁, w₂, reply, hrun, hcall, -, hnotices, hmachine, hidle, -⟩ :=
    request_honoured hrunning hpasses hrequest
  have hmerge : (begun.run requestedLate).map (fun r => r.1.withdrawn.effect (.call .poll)) =
      .ok .merge := by decide +kernel
  have hcomputing : begun.engine.isComputing = true := by decide +kernel
  rw [hrun] at hmerge
  rw [hcomputing, if_pos rfl] at hnotices
  exact ⟨w₁, w₂, reply, hrun, Except.ok.inj hmerge, hcall, hnotices, hmachine, hidle⟩

/-! ## A request that is left over -/

/-- The calls by which something is begun. -/
def begins : Call → Bool
  | .start | .compute _ _ => true
  | _ => false

/-- **Requests that are left over.** Something is begun after any history, and goes on for a while.
A poll stops it exactly if a halt was requested since it began, or if it is a computation and a
request is left over from the history: one that was made and that no poll and no beginning of a
continuous run took down. -/
theorem stopped_by_request_iff {config : Config} {before : List Occurrence} {c : Call}
    {w₀ w₁ : World} {reply : Reply} {told₀ told₁ : List Delivery}
    (hbefore : (new config).run before = .ok (w, told₀)) (hbegins : begins c = true)
    (hcall : w.call c = .ok (w₀, reply)) (hdone : reply.answer = .done)
    (hrun : w₀.run os = .ok (w₁, told₁))
    (hon : w₀.always (fun w _ => w.engine.isRunning) os = true)
    (hrunning : w₁.engine.isRunning = true) :
    w₁.PollStops ↔
      .call .requestHalt ∈ os ∨ (c ≠ .start ∧ (new config).leavesRequest before = true) := by
  -- nobody has requested anything of a new engine
  have hleft : w.engine.haltRequested = true ↔ (new config).leavesRequest before = true := by
    rw [haltRequested_run_iff hbefore]
    simp [new, Engine.new]
  have hflag : w₀.engine.haltRequested = true ↔
      c ≠ .start ∧ (new config).leavesRequest before = true := by
    rw [haltRequested_after (after_call hcall), ← hleft]
    cases c with
    | start => simp [takesDown, accepts_of_call hcall, hdone]
    | compute timeout thread => simp [takesDown]
    | _ => cases hbegins
  rw [pollStops_iff hrunning, haltRequested_run_of_running hrun hon hrunning, Bool.or_eq_true,
    hflag, decide_eq_true_eq, or_comm]

/-- An engine with a program that never halts, after so much has occurred. -/
def wandering (os : List Occurrence) : World :=
  match (new .standard).run (.call (.install "1,_ 1,_,>" "" .origin) :: os) with
  | .ok (w, _) => w
  | .error _ => new .standard

/-- A request that was made too early stops a computation but not a continuous run. -/
theorem stopped_by_request_iff_wandering :
    (wandering [.call .requestHalt, .call (.compute none), .work]).PollStops ∧
      ¬ (wandering [.call .requestHalt, .call .start, .elapse 5]).PollStops := by
  have hbefore : (new .standard).run
      [.call (.install "1,_ 1,_,>" "" .origin), .call .requestHalt] =
        .ok (wandering [.call .requestHalt], []) := by decide +kernel
  have hleaves : (new .standard).leavesRequest
      [.call (.install "1,_ 1,_,>" "" .origin), .call .requestHalt] = true := by decide +kernel
  constructor
  · have hcall : (wandering [.call .requestHalt]).call (.compute none) =
        .ok (wandering [.call .requestHalt, .call (.compute none)],
          (wandering [.call .requestHalt, .call (.compute none)]).engine.done []) := by
      decide +kernel
    have hrun : (wandering [.call .requestHalt, .call (.compute none)]).run [.work] =
        .ok (wandering [.call .requestHalt, .call (.compute none), .work], []) := by decide +kernel
    rw [stopped_by_request_iff hbefore rfl hcall rfl hrun (by decide +kernel) (by decide +kernel)]
    exact .inr ⟨by simp, hleaves⟩
  · have hcall : (wandering [.call .requestHalt]).call .start =
        .ok (wandering [.call .requestHalt, .call .start],
          (wandering [.call .requestHalt, .call .start]).engine.done [.update]) := by
      decide +kernel
    have hrun : (wandering [.call .requestHalt, .call .start]).run [.elapse 5] =
        .ok (wandering [.call .requestHalt, .call .start, .elapse 5], []) := by decide +kernel
    rw [stopped_by_request_iff hbefore rfl hcall rfl hrun (by decide +kernel) (by decide +kernel)]
    simp

/-- A request that is made while nothing is under way stops the computation that is begun next, and
so does one that is made during a continuous run which the host stops. -/
theorem request_left_over_stops :
    (wandering [.call .requestHalt]).engine.activity = .idle ∧
    (wandering [.call .requestHalt, .call (.compute none)]).engine.isComputing = true ∧
    (wandering [.call .requestHalt, .call (.compute none)]).PollStops ∧
    (wandering [.call .start, .call .requestHalt]).engine.isRunning = true ∧
    (wandering [.call .start, .call .requestHalt, .call .halt]).engine.activity = .idle ∧
    (wandering [.call .start, .call .requestHalt, .call .halt,
      .call (.compute none)]).engine.isComputing = true ∧
    (wandering [.call .start, .call .requestHalt, .call .halt,
      .call (.compute none)]).PollStops := by
  unfold PollStops
  refine ⟨?_, ?_, ?_, ?_, ?_, ?_, ?_⟩ <;> decide +kernel

end World

end SingleTape
