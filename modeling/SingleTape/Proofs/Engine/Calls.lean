import SingleTape.World

/-!
# What a call can do

`Engine.Performs` lists the ways in which a call can come out, each with everything that makes it
come out so and the whole reply.  It is read off `Engine.perform` once; the proofs about engines go
by its cases.

## Key results

- `Engine.performs_of_perform`: a call that does not fail comes out in one of these ways
- `Engine.refuse_of_perform`: a call that is refused does nothing
- `Engine.fault_of_perform`: a call fails only by a step of the machine
-/

namespace SingleTape

/-- The calls that an engine may refuse. -/
def Call.isRefusable : Call → Bool
  | .install _ _ _ | .start | .halt | .reset | .step | .compute _ _ | .copy | .restore _ => true
  | _ => false

namespace Engine

/-- Nothing is under way. -/
theorem activity_of_not_isRunning {e : Engine} (h : e.isRunning = false) : e.activity = .idle := by
  unfold isRunning at h
  split at h
  · assumption
  · cases h

/-- Without a computation there is no worker to act. -/
theorem work_eq_self {e : Engine} (h : e.isComputing = false) (now : Nat) : e.work now = e := by
  cases hactivity : e.activity with
  | computing job => simp [isComputing, hactivity] at h
  | idle | running due => simp only [work, hactivity]

/-- Without a computation a host that wakes up finds nothing. -/
theorem wake_eq_report {e : Engine} (h : e.isComputing = false) (byTimer : Bool) (now : Nat) :
    e.wake byTimer now = e.report [] := by
  cases hactivity : e.activity with
  | computing job => simp [isComputing, hactivity] at h
  | idle | running due => simp only [wake, hactivity]

/-- What it takes to be ready for a step. -/
theorem ready_eq_ok {e : Engine} {m : Machine} (h : e.ready = .ok m) :
    e.machine = some m ∧ e.activity = .idle ∧ m.halted = false := by
  unfold ready at h
  split at h
  · cases h
  · rename_i m' hm'
    split at h
    · cases h
    · rename_i hidle
      split at h
      · cases h
      · rename_i hlive
        cases h
        exact ⟨hm', activity_of_not_isRunning (Bool.not_eq_true _ ▸ hidle),
          Bool.not_eq_true _ ▸ hlive⟩

/-- What is under way ends, and only the listeners of a computation are told. -/
theorem stop?_eq_some {e e' : Engine} {notices : List Notice} (h : e.stop? = some (e', notices)) :
    e' = { e with activity := .idle } ∧
      ((∃ due, e.activity = .running due) ∧ notices = [] ∨
        (∃ job, e.activity = .computing job) ∧ notices = [.computeInterrupted]) := by
  unfold stop? at h
  split at h
  · cases h
  · rename_i due hactivity
    cases h
    exact ⟨rfl, .inl ⟨⟨due, hactivity⟩, rfl⟩⟩
  · rename_i job hactivity
    cases h
    exact ⟨rfl, .inr ⟨⟨job, hactivity⟩, rfl⟩⟩

/-- What is under way after a step of a continuous run. -/
def planned (e : Engine) (m : Machine) (now : Nat) : Activity :=
  if m.halted then .idle else .running (now + e.config.delayNanoseconds)

/-- The ways in which a call can come out. -/
inductive Performs (e : Engine) (now : Nat) : Call → Reply → Prop where
  | refused {c : Call} {cause : Error} (hrefusable : c.isRefusable = true) :
      Performs e now c (e.refuse cause)
  | installed {source tape : String} {offset : Position} {program : Program}
      (hidle : e.activity = .idle) (hcompile : Program.compile source tape offset = .ok program) :
      Performs e now (.install source tape offset)
        ({ e with machine := some (.start program) }.done [.update])
  | started {m m' : Machine} {s : Step} (hready : e.ready = .ok m) (hstep : m.step = .ok (m', s)) :
      Performs e now .start
        ({ e with machine := some m', activity := e.planned m' now, haltRequested := false }.done
          (noticesOf s))
  | stopped {e' : Engine} {notices : List Notice} (hstop : e.stop? = some (e', notices)) :
      Performs e now .halt (e'.done notices)
  | reset {m : Machine} (hidle : e.activity = .idle) (hmachine : e.machine = some m) :
      Performs e now .reset ({ e with machine := some m.reset }.done [.update])
  | stepped {m m' : Machine} {s : Step} (hready : e.ready = .ok m) (hstep : m.step = .ok (m', s)) :
      Performs e now .step ({ e with machine := some m' }.done (noticesOf s))
  | computing {timeout : Option Nat} {thread : Bool} {m : Machine} {budget : Nat} {job : Job}
      (hready : e.ready = .ok m) (hspawn : Job.spawn (e.copy m) budget now thread = .ok job) :
      Performs e now (.compute timeout thread) ({ e with activity := .computing job }.done [])
  | obeyed {e' : Engine} {notices : List Notice} (hrequest : e.haltRequested = true)
      (hstop : { e with haltRequested := false }.stop? = some (e', notices)) :
      Performs e now .poll (e'.report notices)
  | ignored (hrequest : e.haltRequested = true) (hidle : e.activity = .idle) :
      Performs e now .poll ({ e with haltRequested := false }.report [])
  | ran {due : Nat} {m m' : Machine} {s : Step} (hrequest : e.haltRequested = false)
      (hactivity : e.activity = .running due) (hdue : due ≤ now) (hmachine : e.machine = some m)
      (hstep : m.step = .ok (m', s)) :
      Performs e now .poll
        ({ e with machine := some m', activity := e.planned m' now }.report (noticesOf s))
  | unready (hrequest : e.haltRequested = false)
      (hundue : e.activity = .idle ∨
        ∃ due, e.activity = .running due ∧ (e.machine = none ∨ now < due)) :
      Performs e now .poll (e.report [])
  | looked {job : Job} (hrequest : e.haltRequested = false)
      (hactivity : e.activity = .computing job) :
      Performs e now .poll (e.settle (job.tryOutcome now))
  | woke {byTimer : Bool} {job : Job} (hactivity : e.activity = .computing job) :
      Performs e now (.wake byTimer) (e.settle (job.wake byTimer now))
  | slept {byTimer : Bool} (hactivity : ∀ job, e.activity ≠ .computing job) :
      Performs e now (.wake byTimer) (e.report [])
  | copied {m : Machine} (hmachine : e.machine = some m) :
      Performs e now .copy ⟨e, .copied (e.copy m), []⟩
  | restored {snapshot : Snapshot} {m : Machine} (hidle : e.activity = .idle)
      (hrestore : snapshot.restore = .ok m) :
      Performs e now (.restore snapshot) ({ e with machine := some m }.done [.update])
  | delayed {milliseconds : Nat} :
      Performs e now (.setDelay milliseconds) ((e.setDelay milliseconds).done [])
  | requested : Performs e now .requestHalt ({ e with haltRequested := true }.done [])
  | subscribed {kind : NoticeKind} :
      Performs e now (.subscribe kind)
        ⟨{ e with listeners := (e.listeners.subscribe kind).1 },
          .subscribed (e.listeners.subscribe kind).2, []⟩
  | unsubscribed {entry : Subscription} :
      Performs e now (.unsubscribe entry)
        ⟨{ e with listeners := (e.listeners.unsubscribe entry).1 },
          .unsubscribed (e.listeners.unsubscribe entry).2, []⟩

/-- A step of a continuous run is a step of the machine. -/
theorem runStep_eq_ok {e e' : Engine} {m : Machine} {now : Nat} {notices : List Notice}
    (h : e.runStep m now = .ok (e', notices)) :
    ∃ m' s, m.step = .ok (m', s) ∧
      e' = { e with machine := some m', activity := e.planned m' now } ∧
      notices = noticesOf s := by
  unfold runStep at h
  split at h
  · cases h
  · rename_i m' s hstep
    cases h
    exact ⟨m', s, hstep, rfl, rfl⟩

/-- A step of a continuous run fails only if the step of the machine does. -/
theorem runStep_eq_error {e : Engine} {m : Machine} {now : Nat} {fault : Fault}
    (h : e.runStep m now = .error fault) : m.step = .error fault := by
  unfold runStep at h
  split at h
  · rename_i hstep
    cases h
    exact hstep
  · cases h

/-- Polling does one of five things. -/
private theorem performs_of_poll {e : Engine} {now : Nat} {r : Reply} (h : e.poll now = .ok r) :
    e.Performs now .poll r := by
  unfold poll at h
  split at h
  · -- a request to halt comes first, whatever is under way
    rename_i hrequest
    dsimp only at h
    split at h
    · rename_i hstop
      cases h
      refine .ignored hrequest ?_
      unfold stop? at hstop
      split at hstop
      · assumption
      · cases hstop
      · cases hstop
    · rename_i e' notices hstop
      cases h
      exact .obeyed hrequest hstop
  · rename_i hrequest
    rw [Bool.not_eq_true] at hrequest
    split at h
    · rename_i hactivity
      cases h
      exact .unready hrequest (.inl hactivity)
    · -- a continuous run takes a step if one is due
      rename_i due hactivity
      split at h
      · rename_i hdue
        split at h
        · rename_i hmachine
          cases h
          exact .unready hrequest (.inr ⟨due, hactivity, .inl hmachine⟩)
        · rename_i m hmachine
          split at h
          · cases h
          · rename_i e' notices hrun
            cases h
            obtain ⟨m', s, hstep, rfl, rfl⟩ := runStep_eq_ok hrun
            exact .ran hrequest hactivity hdue hmachine hstep
      · rename_i hdue
        cases h
        exact .unready hrequest (.inr ⟨due, hactivity, .inr (Nat.not_le.mp hdue)⟩)
    · -- a computation is looked after
      rename_i job hactivity
      cases h
      exact .looked hrequest hactivity

/-- A call that does not fail comes out in one of the listed ways. -/
theorem performs_of_perform {e : Engine} {now : Nat} {c : Call} {r : Reply}
    (h : e.perform now c = .ok r) : e.Performs now c r := by
  cases c with
  | install source tape offset =>
    simp only [perform, install, Except.ok.injEq] at h
    subst h
    split
    · exact .refused rfl
    · rename_i hidle
      split
      · exact .refused rfl
      · rename_i program hcompile
        exact .installed (activity_of_not_isRunning (Bool.not_eq_true _ ▸ hidle)) hcompile
  | start =>
    simp only [perform, start] at h
    split at h
    · cases h
      exact .refused rfl
    · rename_i m hready
      split at h
      · cases h
      · rename_i e' notices hrun
        cases h
        obtain ⟨m', s, hstep, rfl, rfl⟩ := runStep_eq_ok hrun
        exact .started hready hstep
  | halt =>
    simp only [perform, halt, Except.ok.injEq] at h
    subst h
    split
    · exact .refused rfl
    · rename_i hstop
      exact .stopped hstop
  | reset =>
    simp only [perform, reset, Except.ok.injEq] at h
    subst h
    split
    · exact .refused rfl
    · rename_i hidle
      split
      · exact .refused rfl
      · rename_i m hmachine
        exact .reset (activity_of_not_isRunning (Bool.not_eq_true _ ▸ hidle)) hmachine
  | step =>
    simp only [perform, step] at h
    split at h
    · cases h
      exact .refused rfl
    · rename_i m hready
      split at h
      · cases h
      · rename_i m' s hstep
        cases h
        exact .stepped hready hstep
  | compute timeout thread =>
    simp only [perform, compute, Except.ok.injEq] at h
    subst h
    split
    · exact .refused rfl
    · rename_i m hready
      split
      · exact .refused rfl
      · rename_i job hspawn
        exact .computing hready hspawn
  | poll => exact performs_of_poll h
  | wake byTimer =>
    simp only [perform, wake, Except.ok.injEq] at h
    subst h
    split
    · rename_i job hactivity
      exact .woke hactivity
    · rename_i hactivity
      exact .slept hactivity
  | copy =>
    simp only [perform] at h
    split at h
    · cases h
      exact .refused rfl
    · rename_i m hmachine
      cases h
      exact .copied hmachine
  | restore snapshot =>
    simp only [perform, restore, Except.ok.injEq] at h
    subst h
    split
    · exact .refused rfl
    · rename_i hidle
      split
      · exact .refused rfl
      · rename_i m hrestore
        exact .restored (activity_of_not_isRunning (Bool.not_eq_true _ ▸ hidle)) hrestore
  | setDelay milliseconds =>
    cases h
    exact .delayed
  | requestHalt =>
    cases h
    exact .requested
  | subscribe kind =>
    cases h
    exact .subscribed
  | unsubscribe entry =>
    cases h
    exact .unsubscribed

/-- Looking for an outcome is answered by whether anything is under way. -/
theorem answer_settle (e : Engine) (result : Job × Option Outcome) :
    ∃ running, (e.settle result).answer = .active running := by
  unfold settle
  split
  · exact ⟨_, rfl⟩
  · exact ⟨_, rfl⟩

/-- A call that is refused leaves the engine as it is and tells nothing. -/
theorem refuse_of_perform {e : Engine} {now : Nat} {c : Call} {r : Reply} {cause : Error}
    (h : e.perform now c = .ok r) (hanswer : r.answer = .refused cause) :
    c.isRefusable = true ∧ r = e.refuse cause := by
  cases performs_of_perform h with
  | refused hrefusable =>
    cases hanswer
    exact ⟨hrefusable, rfl⟩
  | looked | woke =>
    obtain ⟨running, hactive⟩ := answer_settle _ _
    cases hactive.symm.trans hanswer
  | _ => cases hanswer

/-- A call fails only if a step of the machine does: it is `start`, `step`, or a poll that finds
a step due. -/
theorem fault_of_perform {e : Engine} {now : Nat} {c : Call} {fault : Fault}
    (h : e.perform now c = .error fault) :
    ∃ m, e.machine = some m ∧ m.step = .error fault := by
  cases c with
  | start =>
    simp only [perform, start] at h
    split at h
    · cases h
    · rename_i m hready
      split at h
      · rename_i hrun
        cases h
        exact ⟨m, (ready_eq_ok hready).1, runStep_eq_error hrun⟩
      · cases h
  | step =>
    simp only [perform, step] at h
    split at h
    · cases h
    · rename_i m hready
      split at h
      · rename_i hstep
        cases h
        exact ⟨m, (ready_eq_ok hready).1, hstep⟩
      · cases h
  | poll =>
    simp only [perform, poll] at h
    split at h
    · -- honouring a request to halt cannot fail
      split at h <;> cases h
    · split at h
      · cases h
      · split at h
        · split at h
          · cases h
          · rename_i m hmachine
            split at h
            · rename_i hrun
              cases h
              exact ⟨m, hmachine, runStep_eq_error hrun⟩
            · cases h
        · cases h
      · cases h
  | copy =>
    simp only [perform] at h
    split at h <;> cases h
  | _ => cases h

end Engine

end SingleTape
