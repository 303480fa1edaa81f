import SingleTape.Proofs.Job.Cancellation

/-!
# A worker followed step by step

In a job a chunk of steps is one action of the worker.  The host does not wait for the end of a
chunk: it may look for an outcome or cancel the job between any two steps.  Here the worker is
followed through its chunks, with every step an action of its own.

Nothing comes of the difference.  The host sees neither the machine nor how far the worker has come
in its chunk, and the worker sees nothing of the host until the chunk is over.  So all the steps of a
chunk may just as well be made at once, at the time of the last one: what the host finds in a course
of events it also finds in one with whole chunks, and the other way round.

## Key results

- `Job.Stepwise.act_cases`: what the worker does next
- `Job.Stepwise.Shows.after`: an event within a chunk, and any other
- `Job.Stepwise.Shows.exists_whole`, `Job.Stepwise.Shows.exists_single`: from single steps to whole
  chunks and back
- `Job.Stepwise.finds_iff`: what the host can find
-/

namespace SingleTape.Job

/-- A job whose worker is followed through its chunks. -/
structure Stepwise where
  /-- The job, with the machine as the steps have left it. -/
  job : Job
  /-- How many steps of the chunk were made. -/
  spent : Nat
  /-- The last step of a chunk ends it. -/
  spent_lt : spent < chunk

namespace Stepwise

/-- A job whose worker has made no step of a chunk. -/
def ofJob (j : Job) : Stepwise := ⟨j, 0, by decide⟩

/-- The worker's next action, which within a chunk is one step. -/
def act (w : Stepwise) (now : Nat) : Stepwise :=
  match w.job.phase with
  | .runChunk =>
    match w.job.machine.step with
    | .ok (m, .moved) =>
      if h : w.spent + 1 < chunk then ⟨{ w.job with machine := m }, w.spent + 1, h⟩
      else ofJob (w.job.afterChunk (.ok (m, .moved)))
    | result => ofJob (w.job.afterChunk result)
  | _ => ofJob (w.job.act now)

/-- The job after an event. -/
def after (w : Stepwise) (now : Nat) : Event → Stepwise
  | .act => w.act now
  | event => { w with job := w.job.after now event }

/-- The job after a course of events, each at its time. -/
def afterAll (w : Stepwise) : List (Nat × Event) → Stepwise
  | [] => w
  | (now, event) :: events => (w.after now event).afterAll events

/-- What the host finds in the course of events, each at its time. -/
def outcomes (w : Stepwise) : List (Nat × Event) → List Outcome
  | [] => []
  | (now, event) :: events => (w.job.found now event).toList ++ (w.after now event).outcomes events

variable {w : Stepwise} {j : Job}

/-! ## The worker's actions -/

/-- What the worker does next: it does not run a chunk, or it makes a step that is not the last one
of its chunk, or it comes to the end of the chunk. -/
theorem act_cases (w : Stepwise) (now : Nat) :
    (w.job.phase ≠ .runChunk ∧ w.act now = ofJob (w.job.act now)) ∨
    (w.job.phase = .runChunk ∧ ∃ m, w.job.machine.step = .ok (m, .moved) ∧
      (w.act now).job = { w.job with machine := m } ∧ (w.act now).spent = w.spent + 1) ∨
    (w.job.phase = .runChunk ∧
      w.act now = ofJob (w.job.afterChunk (w.job.machine.run (chunk - w.spent)))) := by
  have hlt := w.spent_lt
  by_cases hphase : w.job.phase = .runChunk
  · right
    simp only [act, hphase, true_and]
    split
    · rename_i m hstep
      split
      · exact .inl ⟨m, hstep, rfl, rfl⟩
      · -- the chunk is spent with this step
        right
        have hlast : chunk - w.spent = 0 + 1 := by omega
        have hrun : w.job.machine.run (chunk - w.spent) = .ok (m, .moved) := by
          rw [hlast, Machine.run, hstep]
          rfl
        rw [hrun]
    · -- the chunk is over before it is spent
      rename_i hresult
      right
      have hleft : chunk - w.spent = (chunk - w.spent - 1) + 1 := by omega
      rw [hleft, Machine.run_of_step_ne hresult]
  · left
    refine ⟨hphase, ?_⟩
    unfold act
    split
    · rename_i hrunning
      exact absurd hrunning hphase
    · rfl

/-! ## The host does not see the machine -/

private theorem receive?_withMachine (j : Job) (m : Machine) :
    ({ j with machine := m } : Job).receive? =
      j.receive?.map fun (j, outcome) => ({ j with machine := m }, outcome) := by
  obtain ⟨_, phase, mailbox, _, _⟩ := j
  cases mailbox with
  | some outcome => rfl
  | none => cases phase <;> rfl

private theorem expire_withMachine (j : Job) (m : Machine) (now : Nat) :
    ({ j with machine := m } : Job).expire now =
      ({ (j.expire now).1 with machine := m }, (j.expire now).2) := by
  unfold expire
  show (if j.isExpired now then _ else _) = _
  split <;> rfl

/-- What the host finds and does is the same whatever the worker's machine is. -/
theorem host_withMachine (j : Job) (m : Machine) (now : Nat) {event : Event} (h : event ≠ .act) :
    ({ j with machine := m } : Job).found now event = j.found now event ∧
      ({ j with machine := m } : Job).after now event =
        { j.after now event with machine := m } := by
  cases event with
  | act => exact absurd rfl h
  | cancel => exact ⟨rfl, rfl⟩
  | tryOutcome =>
    simp only [found, Job.after, Job.tryOutcome, receive?_withMachine, expire_withMachine]
    cases j.receive? <;> exact ⟨rfl, rfl⟩
  | wake byTimer =>
    simp only [found, Job.after, wake, receive?_withMachine, expire_withMachine]
    cases byTimer with
    | true => exact ⟨rfl, rfl⟩
    | false => cases j.receive? <;> exact ⟨rfl, rfl⟩

/-- The host leaves the worker where it is, and its machine as it is. -/
theorem worker_after_of_ne_act (j : Job) (now : Nat) {event : Event} (h : event ≠ .act) :
    (j.after now event).phase = j.phase ∧ (j.after now event).machine = j.machine := by
  obtain ⟨mailbox, cancelled, hafter, -⟩ := j.after_of_ne_act now h
  rw [hafter]
  exact ⟨rfl, rfl⟩

theorem after_of_ne_act (w : Stepwise) (now : Nat) {event : Event} (h : event ≠ .act) :
    w.after now event = { w with job := w.job.after now event } := by
  cases event with
  | act => exact absurd rfl h
  | tryOutcome => rfl
  | wake byTimer => rfl
  | cancel => rfl

/-! ## Whole chunks -/

/-- The job `j` is the same but for its machine, which is as it was before the steps of the chunk
that were made.  The machine of a worker that is gone does not matter. -/
structure Shows (w : Stepwise) (j : Job) : Prop where
  begun : ∃ m, j = { w.job with machine := m } ∧
    (w.job.phase ≠ .gone → m.run w.spent = .ok (w.job.machine, .moved))
  spent_eq : w.job.phase ≠ .runChunk → w.spent = 0

theorem shows_ofJob (j : Job) : (ofJob j).Shows j :=
  ⟨⟨j.machine, rfl, fun _ => rfl⟩, fun _ => rfl⟩

/-- A step within a chunk changes nothing in whole chunks, and any other action is one. -/
theorem Shows.act (h : w.Shows j) (now : Nat) :
    ((w.act now).Shows j ∧ (w.act now).spent = w.spent + 1) ∨ (w.act now).Shows (j.act now) := by
  obtain ⟨m, rfl, hm⟩ := h.begun
  rcases w.act_cases now with ⟨hphase, hact⟩ | ⟨hphase, m', hstep, hjob, hspent⟩ | ⟨hphase, hact⟩
  · right
    rw [hact]
    by_cases hgone : w.job.phase = .gone
    · -- the worker does nothing any more
      have hsame : ∀ p, ({ w.job with machine := p } : Job).act now = { w.job with machine := p } := by
        intro p
        simp only [Job.act, actWith, hgone]
      rw [hsame m, show w.job.act now = w.job from hsame w.job.machine]
      exact ⟨⟨m, rfl, fun hne => absurd hgone hne⟩, fun _ => rfl⟩
    · -- outside a chunk the machines are the same
      have hrun := hm hgone
      rw [h.spent_eq hphase] at hrun
      cases hrun
      exact shows_ofJob _
  · left
    have hphase' : (w.act now).job.phase = .runChunk := by
      rw [hjob]
      exact hphase
    refine ⟨⟨⟨m, by rw [hjob], fun _ => ?_⟩, fun hne => absurd hphase' hne⟩, hspent⟩
    have hrun := hm (by simp [hphase])
    rw [hspent, hjob, Machine.run_add hrun]
    simp only [Machine.run, hstep]
  · right
    have hrun := hm (by simp [hphase])
    have hchunk : m.run chunk = w.job.machine.run (chunk - w.spent) := by
      rw [← Machine.run_add hrun, Nat.add_sub_cancel' (Nat.le_of_lt w.spent_lt)]
    have hact' : ({ w.job with machine := m } : Job).act now =
        ({ w.job with machine := m } : Job).afterChunk (m.run chunk) := by
      simp only [Job.act, actWith, hphase]
    rw [hact, hact', hchunk]
    cases hresult : w.job.machine.run (chunk - w.spent) with
    | error fault => exact ⟨⟨m, rfl, fun hne => absurd rfl hne⟩, fun _ => rfl⟩
    | ok result =>
      obtain ⟨m', s⟩ := result
      cases s <;> exact shows_ofJob _

/-- An event is one in whole chunks as well, unless it is a step within a chunk; the host finds the
same. -/
theorem Shows.after (h : w.Shows j) (now : Nat) (event : Event) :
    ((w.after now event).Shows j ∧ event = .act) ∨
      ((w.after now event).Shows (j.after now event) ∧
        w.job.found now event = j.found now event) := by
  by_cases hact : event = .act
  · subst hact
    exact (h.act now).imp (fun hact => ⟨hact.1, rfl⟩) (⟨·, rfl⟩)
  · right
    obtain ⟨m, rfl, hm⟩ := h.begun
    obtain ⟨hfound, hafter⟩ := host_withMachine w.job m now hact
    obtain ⟨hphase, hmachine⟩ := worker_after_of_ne_act w.job now hact
    refine ⟨?_, hfound.symm⟩
    rw [hafter, after_of_ne_act w now hact]
    refine ⟨⟨m, rfl, fun hne => ?_⟩, fun hne => h.spent_eq ?_⟩
    · show m.run w.spent = .ok ((w.job.after now event).machine, .moved)
      rw [hmachine]
      exact hm (hphase ▸ hne)
    · exact hphase ▸ hne

/-- For every course of events there is one in whole chunks in which the host finds the same. -/
theorem Shows.exists_whole (h : w.Shows j) (events : List (Nat × Event)) :
    ∃ course : List (Nat × Event), course.Sublist events ∧ w.outcomes events = j.outcomes course := by
  induction events generalizing w j with
  | nil => exact ⟨[], .slnil, rfl⟩
  | cons first events ih =>
    obtain ⟨now, event⟩ := first
    rcases h.after now event with ⟨hshows, rfl⟩ | ⟨hshows, hfound⟩
    · obtain ⟨course, hsublist, houtcomes⟩ := ih hshows
      exact ⟨course, hsublist.cons _, houtcomes⟩
    · obtain ⟨course, hsublist, houtcomes⟩ := ih hshows
      refine ⟨(now, event) :: course, hsublist.cons_cons _, ?_⟩
      rw [outcomes, Job.outcomes, hfound, houtcomes]

/-! ## Single steps -/

/-- The worker comes to the end of its chunk by single steps. -/
theorem Shows.exists_acts (h : w.Shows j) (now : Nat) :
    ∃ w' : Stepwise, w'.Shows (j.act now) ∧ ∃ n, ∀ events,
      w.outcomes (List.replicate n (now, .act) ++ events) = w'.outcomes events := by
  -- by induction on what is left of the chunk
  induction hleft : chunk - w.spent using Nat.strongRecOn generalizing w with
  | _ left ih =>
    rcases h.act now with ⟨hshows, hspent⟩ | hshows
    · have hlt := w.spent_lt
      obtain ⟨w', hw', n, hn⟩ := ih (chunk - (w.act now).spent) (by omega) hshows rfl
      exact ⟨w', hw', n + 1, hn⟩
    · exact ⟨w.act now, hshows, 1, fun _ => rfl⟩

/-- For every course of events in whole chunks there is one in single steps in which the host finds
the same. -/
theorem Shows.exists_single (h : w.Shows j) {now : Nat} {events : List (Nat × Event)}
    (htimes : (now :: events.map Prod.fst).Pairwise (· ≤ ·)) :
    ∃ course : List (Nat × Event), (now :: course.map Prod.fst).Pairwise (· ≤ ·) ∧
      w.outcomes course = j.outcomes events := by
  induction events generalizing w j now with
  | nil => exact ⟨[], by simp, rfl⟩
  | cons first events ih =>
    obtain ⟨time, event⟩ := first
    obtain ⟨hfirst, hrest⟩ := List.pairwise_cons.mp htimes
    have hle := hfirst time List.mem_cons_self
    -- the event becomes several ones, all at its time
    obtain ⟨w', hshows, n, hn⟩ : ∃ w' : Stepwise, w'.Shows (j.after time event) ∧ ∃ n, ∀ events,
        w.outcomes (List.replicate n (time, event) ++ events) =
          (j.found time event).toList ++ w'.outcomes events := by
      by_cases hact : event = .act
      · subst hact
        exact h.exists_acts time
      · rcases h.after time event with ⟨-, rfl⟩ | ⟨hshows, hfound⟩
        · exact absurd rfl hact
        · refine ⟨w.after time event, hshows, 1, fun events => ?_⟩
          rw [← hfound]
          rfl
    obtain ⟨course, hcourse, houtcomes⟩ := ih hshows hrest
    refine ⟨List.replicate n (time, event) ++ course, ?_, ?_⟩
    · rw [List.map_append, List.map_replicate, ← List.cons_append, List.pairwise_append]
      obtain ⟨htime, hcourse⟩ := List.pairwise_cons.mp hcourse
      refine ⟨List.pairwise_cons.mpr ⟨?_, List.pairwise_replicate.mpr (.inr (Nat.le_refl _))⟩,
        hcourse, ?_⟩
      · intro other hother
        rw [(List.mem_replicate.mp hother).2]
        exact hle
      · intro earlier hearlier later hlater
        have hafter := htime later hlater
        rcases List.mem_cons.mp hearlier with rfl | hearlier
        · exact Nat.le_trans hle hafter
        · rw [(List.mem_replicate.mp hearlier).2]
          exact hafter
    · rw [hn, Job.outcomes, houtcomes]

/-- Whether a chunk is one action or many makes no difference to what the host can find. -/
theorem finds_iff (j : Job) (now : Nat) (found : List Outcome) :
    (∃ events : List (Nat × Event), (now :: events.map Prod.fst).Pairwise (· ≤ ·) ∧
        (ofJob j).outcomes events = found) ↔
      ∃ events : List (Nat × Event), (now :: events.map Prod.fst).Pairwise (· ≤ ·) ∧
        j.outcomes events = found := by
  constructor
  · rintro ⟨events, htimes, rfl⟩
    obtain ⟨course, hsublist, houtcomes⟩ := (shows_ofJob j).exists_whole events
    exact ⟨course, htimes.sublist ((hsublist.map Prod.fst).cons_cons now), houtcomes.symm⟩
  · rintro ⟨events, htimes, rfl⟩
    exact (shows_ofJob j).exists_single htimes

end Stepwise

end SingleTape.Job
