import SingleTape.Job
import SingleTape.Proofs.Machine.Steps

/-!
# The worker and its host

The worker of a computation goes round in three phases, looking at the cancel flag, looking at the
clock and running a chunk of steps, until it has something to report.  It then sends the report,
leaves, and is gone.  A chunk that contains a step which cannot be counted ends the worker at once:
it panics, and nothing is sent.

`Job.Serves m j` says where a worker can stand that was put to work on the machine `m` and has not
been cancelled, and what it holds there.  Every action of the worker keeps it.  What the host then
finds is one of three things (`Job.Gives`), whichever of the two ways it looks.

## Key results

- `Job.Serves.act`: an action of the worker keeps the invariant
- `Job.tryOutcome_cases`, `Job.wake_cases`: what the host finds
- `Job.pending_of_tryOutcome`: it finds something if there is anything to be found
- `Job.sends_le_outstanding`: whatever worker and host do, the worker sends at most one message
-/

namespace SingleTape

/-- The machine `m` comes to rest as `m'`, by a last step with the given result. -/
structure Machine.RestsAs (m m' : Machine) (s : Step) : Prop where
  /-- Some steps lead to a machine that has not halted, and the next one makes it halt. -/
  last : ∃ n p, m.iterate n = .ok p ∧ p.halted = false ∧ p.step = .ok (m', s)
  ne_moved : s ≠ .moved

/-- A machine at rest has halted. -/
theorem Machine.RestsAs.halted {m m' : Machine} {s : Step} (h : m.RestsAs m' s) :
    m'.halted = true := by
  obtain ⟨_, _, _, _, hlast⟩ := h.last
  rw [← Bool.not_eq_false, Machine.halted_step hlast]
  exact h.ne_moved

/-- A machine at rest is reached by steps. -/
theorem Machine.RestsAs.iterate {m m' : Machine} {s : Step} (h : m.RestsAs m' s) :
    ∃ n, m.iterate n = .ok m' := by
  obtain ⟨n, p, hiter, -, hlast⟩ := h.last
  exact ⟨n + 1, Machine.iterate_succ hiter hlast⟩

/-- A machine does not come to rest for a reason that has to do with computations. -/
theorem Machine.RestsAs.cause_ne {m m' : Machine} {cause : Error}
    (h : m.RestsAs m' (.stopped cause)) : cause ≠ .computeAborted := by
  obtain ⟨_, _, _, _, hlast⟩ := h.last
  rintro rfl
  generalize hs : Step.stopped .computeAborted = s at hlast
  cases Machine.stepsTo_of_step hlast with
  | still => cases hs
  | noRule => cases hs
  | tapeEnd => cases hs
  | rule => split at hs <;> cases hs

namespace Job

/-! ## The worker's actions -/

/-- What a worker on the machine `m` may report when the clock shows `now`. -/
inductive Reports (m : Machine) (deadline now : Nat) : Outcome → Prop where
  /-- The machine entered the halt state. -/
  | halted {m' : Machine} (h : m.RestsAs m' .halted) :
      Reports m deadline now (.finished m'.snapshot none)
  /-- The machine halted without applying a rule. -/
  | stopped {m' : Machine} {cause : Error} (h : m.RestsAs m' (.stopped cause)) :
      Reports m deadline now (.finished m'.snapshot (some cause))
  /-- The time is up. -/
  | timedOut (h : deadline ≤ now) : Reports m deadline now .timedOut

/-- The worker's next action is a chunk in which a step cannot be counted. -/
def Panics (j : Job) : Prop :=
  j.phase = .runChunk ∧ ∃ fault, j.machine.run chunk = .error fault

/-- Where a worker can stand; `panicked` says that it has panicked. -/
inductive Stage (m : Machine) (now : Nat) (panicked : Prop) (j : Job) : Prop where
  /-- It is at work on a machine that has not halted. -/
  | working (hphase : j.phase = .checkCancel ∨ j.phase = .checkDeadline ∨ j.phase = .runChunk)
      (hmailbox : j.mailbox = none) (hmachine : ∃ n, m.iterate n = .ok j.machine)
      (hlive : j.machine.halted = false)
  /-- It has something to report. -/
  | sending {outcome : Outcome} (hphase : j.phase = .send outcome) (hmailbox : j.mailbox = none)
      (hreports : Reports m j.deadline now outcome)
  /-- It has reported. -/
  | sent {outcome : Outcome} (hphase : j.phase = .leave ∨ j.phase = .gone)
      (hmailbox : j.mailbox = some outcome) (hreports : Reports m j.deadline now outcome)
  /-- It is gone and has reported nothing. -/
  | lost (hphase : j.phase = .gone) (hmailbox : j.mailbox = none) (hpanicked : panicked)

/-- The job was given the machine `m`, nobody has cancelled it or taken its report, and its worker
stands where it can stand. -/
structure Serves (m : Machine) (now : Nat) (panicked : Prop) (j : Job) : Prop where
  cancelled : j.cancelled = false
  stage : Stage m now panicked j

/-- What may be reported now may be reported later. -/
theorem Reports.mono {m : Machine} {deadline now now' : Nat} {outcome : Outcome}
    (h : Reports m deadline now outcome) (hle : now ≤ now') : Reports m deadline now' outcome := by
  cases h with
  | halted h => exact .halted h
  | stopped h => exact .stopped h
  | timedOut h => exact .timedOut (Nat.le_trans h hle)

/-- The invariant is kept as time passes and more is known of a panic. -/
theorem Serves.mono {m : Machine} {now now' : Nat} {panicked panicked' : Prop} {j : Job}
    (h : j.Serves m now panicked) (hle : now ≤ now') (himp : panicked → panicked') :
    j.Serves m now' panicked' := by
  refine ⟨h.cancelled, ?_⟩
  cases h.stage with
  | working hphase hmailbox hmachine hlive => exact .working hphase hmailbox hmachine hlive
  | sending hphase hmailbox hreports => exact .sending hphase hmailbox (hreports.mono hle)
  | sent hphase hmailbox hreports => exact .sent hphase hmailbox (hreports.mono hle)
  | lost hphase hmailbox hpanicked => exact .lost hphase hmailbox (himp hpanicked)

/-- After a chunk the worker goes on, or has something to report, or has panicked. -/
private theorem stage_afterChunk {m : Machine} {now : Nat} {panicked : Prop} {j : Job}
    {size : Nat} (hmailbox : j.mailbox = none) (hmachine : ∃ n, m.iterate n = .ok j.machine)
    (hlive : j.machine.halted = false)
    (hpanics : ∀ fault, j.machine.run size = .error fault → panicked) :
    Stage m now panicked (j.afterChunk (j.machine.run size)) := by
  obtain ⟨n, hn⟩ := hmachine
  cases hrun : j.machine.run size with
  | error fault => exact .lost rfl hmailbox (hpanics fault hrun)
  | ok result =>
    obtain ⟨m', s⟩ := result
    -- the chunk is spent, or its last step made the machine halt
    rcases Machine.run_cases hrun with ⟨rfl, hiter, hm'⟩ | ⟨k, p, -, hiter, hp, hlast, hs⟩
    · exact .working (.inl rfl) hmailbox ⟨n + size, by rw [Machine.iterate_add hn]; exact hiter⟩
        (hm' hlive)
    · have hrests : m.RestsAs m' s :=
        ⟨⟨n + k, p, by rw [Machine.iterate_add hn]; exact hiter, hp hlive, hlast⟩, hs⟩
      cases s with
      | moved => exact absurd rfl hs
      | halted => exact .sending rfl hmailbox (.halted hrests)
      | stopped cause => exact .sending rfl hmailbox (.stopped hrests)

/-- An action of the worker keeps the invariant; it may panic in doing so. -/
theorem Serves.act {m : Machine} {now : Nat} {panicked : Prop} {j : Job}
    (h : j.Serves m now panicked) (hpanics : j.Panics → panicked) :
    (j.act now).Serves m now panicked := by
  unfold Job.act actWith
  cases h.stage with
  | working hphase hmailbox hmachine hlive =>
    rcases hphase with hphase | hphase | hphase
    · -- the cancel flag is down, so the worker does not leave here
      rw [hphase]
      dsimp only
      rw [h.cancelled]
      exact ⟨rfl, .working (.inr (.inl rfl)) hmailbox hmachine hlive⟩
    · -- the clock decides between a report and another chunk
      rw [hphase]
      dsimp only
      by_cases hexpired : j.isExpired now = true
      · rw [if_pos hexpired]
        exact ⟨h.cancelled, .sending rfl hmailbox (.timedOut (of_decide_eq_true hexpired))⟩
      · rw [if_neg hexpired]
        exact ⟨h.cancelled, .working (.inr (.inr rfl)) hmailbox hmachine hlive⟩
    · rw [hphase]
      dsimp only
      refine ⟨?_, stage_afterChunk hmailbox hmachine hlive fun fault hfault => ?_⟩
      · unfold afterChunk
        split <;> exact h.cancelled
      · exact hpanics ⟨hphase, fault, hfault⟩
  | sending hphase hmailbox hreports =>
    rw [hphase]
    exact ⟨h.cancelled, .sent (.inl rfl) rfl hreports⟩
  | sent hphase hmailbox hreports =>
    rcases hphase with hphase | hphase
    · rw [hphase]
      exact ⟨h.cancelled, .sent (.inr rfl) hmailbox hreports⟩
    · rw [hphase]
      exact h
  | lost hphase hmailbox hpanicked =>
    rw [hphase]
    exact h

/-- A job that was just begun stands at the beginning of its work. -/
theorem serves_of_spawn {s : Snapshot} {m : Machine} {timeout now : Nat} {thread : Bool}
    {panicked : Prop} {j : Job} (hrestore : s.restore = .ok m) (hlive : m.halted = false)
    (h : spawn s timeout now thread = .ok j) : j.Serves m now panicked := by
  simp only [spawn, hrestore] at h
  split at h
  · cases h
    exact ⟨rfl, .working (.inl rfl) rfl ⟨0, rfl⟩ hlive⟩
  · cases h

/-! ## What the host finds -/

/-- What the host can find when it looks for an outcome. -/
inductive Gives (j : Job) (now : Nat) : Outcome → Prop where
  /-- The worker's report is in the mailbox. -/
  | posted {outcome : Outcome} (h : j.mailbox = some outcome) : j.Gives now outcome
  /-- The worker is gone and has left no report. -/
  | aborted (hmailbox : j.mailbox = none) (hphase : j.phase = .gone) : j.Gives now .aborted
  /-- The time is up. -/
  | timedOut (h : j.deadline ≤ now) : j.Gives now .timedOut

/-- What is received is the report, or the worker is gone. -/
private theorem receive?_cases (j : Job) (now : Nat) :
    j.receive? = none ∨ ∃ j' outcome, j.receive? = some (j', outcome) ∧ j.Gives now outcome := by
  unfold receive?
  split
  · rename_i hmailbox
    exact .inr ⟨_, _, rfl, .posted hmailbox⟩
  · rename_i hmailbox hphase
    exact .inr ⟨_, _, rfl, .aborted hmailbox hphase⟩
  · exact .inl rfl

/-- A job that has not expired is left as it is. -/
private theorem expire_cases (j : Job) (now : Nat) :
    j.expire now = (j, none) ∨ ∃ j', j.expire now = (j', some .timedOut) ∧ j.Gives now .timedOut := by
  unfold expire
  split
  · rename_i hexpired
    exact .inr ⟨_, rfl, .timedOut (of_decide_eq_true hexpired)⟩
  · exact .inl rfl

/-- Looking for an outcome without waiting finds one, or leaves the job as it is. -/
theorem tryOutcome_cases (j : Job) (now : Nat) :
    j.tryOutcome now = (j, none) ∨
      ∃ j' outcome, j.tryOutcome now = (j', some outcome) ∧ j.Gives now outcome := by
  unfold tryOutcome
  rcases j.receive?_cases now with hreceive | ⟨j', outcome, hreceive, hgives⟩
  · rw [hreceive]
    rcases j.expire_cases now with hexpire | ⟨j', hexpire, hgives⟩
    · exact .inl hexpire
    · exact .inr ⟨j', _, hexpire, hgives⟩
  · rw [hreceive]
    exact .inr ⟨j', outcome, rfl, hgives⟩

/-- There is nothing to be found yet: the worker has left no report and is not gone, and the time is
not up. -/
structure Pending (j : Job) (now : Nat) : Prop where
  mailbox : j.mailbox = none
  phase : j.phase ≠ .gone
  lt_deadline : now < j.deadline

/-- Looking for an outcome without waiting finds one if there is anything to be found. -/
theorem pending_of_tryOutcome {j : Job} {now : Nat} (h : (j.tryOutcome now).2 = none) :
    j.Pending now := by
  unfold tryOutcome at h
  split at h
  · cases h
  · rename_i hreceive
    unfold receive? at hreceive
    split at hreceive
    · cases hreceive
    · cases hreceive
    · rename_i hmailbox hphase
      unfold expire at h
      split at h
      · cases h
      · rename_i hexpired
        rw [isExpired, decide_eq_true_eq, Nat.not_le] at hexpired
        exact ⟨hmailbox, hphase, hexpired⟩

/-- Waking up finds an outcome, or leaves the job as it is. -/
theorem wake_cases (j : Job) (byTimer : Bool) (now : Nat) :
    j.wake byTimer now = (j, none) ∨
      ∃ j' outcome, j.wake byTimer now = (j', some outcome) ∧ j.Gives now outcome := by
  cases byTimer with
  | true =>
    rcases j.expire_cases now with hexpire | ⟨j', hexpire, hgives⟩
    · exact .inl hexpire
    · exact .inr ⟨j', _, hexpire, hgives⟩
  | false =>
    simp only [wake]
    rcases j.receive?_cases now with hreceive | ⟨j', outcome, hreceive, hgives⟩
    · rw [hreceive]
      exact .inl rfl
    · rw [hreceive]
      exact .inr ⟨j', outcome, rfl, hgives⟩

/-- What the host finds with a worker that nobody has cancelled: a report of the worker, or that
the worker has panicked. -/
theorem Serves.reports {m : Machine} {now : Nat} {panicked : Prop} {j : Job} {outcome : Outcome}
    (h : j.Serves m now panicked) (hgives : j.Gives now outcome) :
    Reports m j.deadline now outcome ∨ outcome = .aborted ∧ panicked := by
  cases hgives with
  | posted hposted =>
    cases h.stage with
    | working _ hmailbox => cases hmailbox.symm.trans hposted
    | sending _ hmailbox => cases hmailbox.symm.trans hposted
    | sent _ hmailbox hreports =>
      cases hmailbox.symm.trans hposted
      exact .inl hreports
    | lost _ hmailbox => cases hmailbox.symm.trans hposted
  | aborted hnone hgone =>
    -- a worker that is gone has reported or has panicked
    cases h.stage with
    | working hphase =>
      rcases hphase with hphase | hphase | hphase <;> cases hphase.symm.trans hgone
    | sending hphase => cases hphase.symm.trans hgone
    | sent _ hmailbox => cases hnone.symm.trans hmailbox
    | lost _ _ hpanicked => exact .inr ⟨rfl, hpanicked⟩
  | timedOut hexpired => exact .inl (.timedOut hexpired)

/-! ## One message -/

/-- What can happen to a job: the worker acts, or the host looks for an outcome, wakes up or tells
the worker to stop.  A host that lets go of the job does the last and then nothing more. -/
inductive Event where
  /-- The worker acts. -/
  | act
  /-- The host looks for an outcome. -/
  | tryOutcome
  /-- The host wakes up. -/
  | wake (byTimer : Bool)
  /-- The host tells the worker to stop. -/
  | cancel

/-- The job after an event. -/
def after (j : Job) (now : Nat) : Event → Job
  | .act => j.act now
  | .tryOutcome => (j.tryOutcome now).1
  | .wake byTimer => (j.wake byTimer now).1
  | .cancel => j.cancel

/-- The worker is about to put an outcome into the mailbox. -/
def isSending (j : Job) : Bool :=
  match j.phase with
  | .send _ => true
  | _ => false

/-- How many messages are sent in the course of events, each at its time. -/
def sends (j : Job) : List (Nat × Event) → Nat
  | [] => 0
  | (now, .act) :: events => (if j.isSending then 1 else 0) + (j.after now .act).sends events
  | (now, event) :: events => (j.after now event).sends events

/-- How many messages the worker can still send. -/
def outstanding (j : Job) : Nat :=
  match j.phase with
  | .leave | .gone => 0
  | _ => 1

/-- An action of the worker sends no more than is outstanding. -/
theorem outstanding_act (j : Job) (now : Nat) :
    (if j.isSending then 1 else 0) + (j.act now).outstanding ≤ j.outstanding := by
  unfold act actWith outstanding isSending
  cases hphase : j.phase with
  | checkCancel => cases j.cancelled <;> simp
  | checkDeadline => cases j.isExpired now <;> simp
  | runChunk =>
    simp only [Bool.false_eq_true, ↓reduceIte, Nat.zero_add]
    split <;> omega
  | send outcome => simp
  | leave => simp
  | gone => simp [hphase]

/-- The host changes nothing of a job but the flag, and it takes what is in the mailbox. -/
theorem after_of_ne_act (j : Job) (now : Nat) {event : Event} (h : event ≠ .act) :
    ∃ mailbox cancelled, j.after now event = { j with mailbox, cancelled } ∧
      (mailbox = j.mailbox ∨ mailbox = none) ∧ (j.cancelled = true → cancelled = true) := by
  have hexpire : ∃ cancelled, (j.expire now).1 = { j with cancelled } ∧
      (j.cancelled = true → cancelled = true) := by
    unfold expire
    split
    · exact ⟨true, rfl, fun _ => rfl⟩
    · exact ⟨j.cancelled, rfl, id⟩
  have hreceive : ∀ j' outcome, j.receive? = some (j', outcome) → ∃ mailbox,
      j' = { j with mailbox } ∧ (mailbox = j.mailbox ∨ mailbox = none) := by
    intro j' outcome hj'
    unfold receive? at hj'
    split at hj'
    · cases hj'
      exact ⟨none, rfl, .inr rfl⟩
    · cases hj'
      exact ⟨j.mailbox, rfl, .inl rfl⟩
    · cases hj'
  cases event with
  | act => exact absurd rfl h
  | cancel => exact ⟨j.mailbox, true, rfl, .inl rfl, fun _ => rfl⟩
  | tryOutcome =>
    simp only [after, tryOutcome]
    split
    · rename_i hj'
      obtain ⟨mailbox, rfl, hmailbox⟩ := hreceive _ _ hj'
      exact ⟨mailbox, j.cancelled, rfl, hmailbox, id⟩
    · obtain ⟨cancelled, heq, hcancelled⟩ := hexpire
      exact ⟨j.mailbox, cancelled, heq, .inl rfl, hcancelled⟩
  | wake byTimer =>
    simp only [after, wake]
    split
    · rename_i hj'
      obtain ⟨mailbox, rfl, hmailbox⟩ := hreceive _ _ hj'
      exact ⟨mailbox, j.cancelled, rfl, hmailbox, id⟩
    · exact ⟨j.mailbox, j.cancelled, rfl, .inl rfl, id⟩
    · obtain ⟨cancelled, heq, hcancelled⟩ := hexpire
      exact ⟨j.mailbox, cancelled, heq, .inl rfl, hcancelled⟩

/-- **One message.** Whatever worker and host do, no more is sent than is outstanding. -/
theorem sends_le_outstanding (j : Job) (events : List (Nat × Event)) :
    j.sends events ≤ j.outstanding := by
  induction events generalizing j with
  | nil => exact Nat.zero_le _
  | cons first events ih =>
    obtain ⟨now, event⟩ := first
    have hrest := ih (j.after now event)
    by_cases hact : event = .act
    · -- the action sends what it takes off
      subst hact
      have hstep := j.outstanding_act now
      simp only [sends, after] at hrest ⊢
      omega
    · -- the host takes nothing off, and sends nothing
      obtain ⟨mailbox, cancelled, hafter, -⟩ := j.after_of_ne_act now hact
      have hsame : (j.after now event).outstanding = j.outstanding := by
        simp only [outstanding, hafter]
      cases event with
      | act => exact absurd rfl hact
      | tryOutcome => exact hsame ▸ hrest
      | wake byTimer => exact hsame ▸ hrest
      | cancel => exact hsame ▸ hrest

/-- At most one message is outstanding. -/
theorem outstanding_le_one (j : Job) : j.outstanding ≤ 1 := by
  unfold outstanding
  split <;> omega

end Job

end SingleTape
