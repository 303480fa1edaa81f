import Mathlib.Control.Monad.Basic
import SingleTape.Program.Compile
import SingleTape.Proofs.Job.Progress

/-!
# Results of cancelled jobs

Cancelling a job raises a flag, and the worker looks at it once in every round.  A result that the
worker comes to after its last look at the flag is put into the mailbox all the same, and the host
takes what is in the mailbox without looking at the flag.  So a cancelled job may still deliver a
result: exactly if there is one in the mailbox, or if the worker is past its look at the flag and
comes to one in the chunk that follows.

Only a host that holds on to a job it has cancelled can find such a result.  An engine does not: it
lets go of the job.

## Key results

- `Job.owes_of_mem_outcomes`: what a cancelled job delivers was on its way
- `Job.delivers_of_owes`: what is on its way can be found
- `Job.delivers_after_cancel_iff`: the results that a job delivers after it was cancelled
-/

namespace SingleTape.Job

/-- What the host finds in an event. -/
def found (j : Job) (now : Nat) : Event → Option Outcome
  | .tryOutcome => (j.tryOutcome now).2
  | .wake byTimer => (j.wake byTimer now).2
  | .act | .cancel => none

/-- What the host finds in the course of events, each at its time. -/
def outcomes (j : Job) : List (Nat × Event) → List Outcome
  | [] => []
  | (now, event) :: events => (j.found now event).toList ++ (j.after now event).outcomes events

/-- From now on, there is a course of events in which the host finds the outcome. -/
def Delivers (j : Job) (now : Nat) (outcome : Outcome) : Prop :=
  ∃ events, (now :: events.map Prod.fst).Pairwise (· ≤ ·) ∧ outcome ∈ j.outcomes events

/-- The outcome is in the mailbox, or the worker comes to it without looking at the cancel flag
again. -/
inductive Owes (j : Job) (now : Nat) : Outcome → Prop where
  /-- It is in the mailbox. -/
  | posted {outcome : Outcome} (h : j.mailbox = some outcome) : j.Owes now outcome
  /-- It is about to be put there. -/
  | sending {outcome : Outcome} (h : j.phase = .send outcome) : j.Owes now outcome
  /-- The machine halts in the chunk that is run next, for which there is time. -/
  | running {m : Machine} {s : Step}
      (h : j.phase = .runChunk ∨ j.phase = .checkDeadline ∧ now < j.deadline)
      (hrun : j.machine.run chunk = .ok (m, s)) (hs : s ≠ .moved) : j.Owes now (.ofHalt m s)

variable {j : Job} {now time : Nat} {event : Event} {s : Snapshot} {cause : Option Error}

/-! ## What is delivered was on its way -/

/-- The flag stays up. -/
theorem cancelled_after (h : j.cancelled = true) (now : Nat) (event : Event) :
    (j.after now event).cancelled = true := by
  by_cases hact : event = .act
  · subst hact
    rw [after, (j.act_eq now).1]
    exact h
  · obtain ⟨mailbox, cancelled, heq, -, hcancelled⟩ := j.after_of_ne_act now hact
    rw [heq]
    exact hcancelled h

/-- A result that the host finds was in the mailbox. -/
theorem mailbox_of_found (h : j.found now event = some (.finished s cause)) :
    j.mailbox = some (.finished s cause) := by
  -- whichever way the host looks, nothing else that it can find is a result
  have hgives : ∀ result : Job × Option Outcome, result.2 = some (.finished s cause) →
      (result = (j, none) ∨ ∃ j' outcome, result = (j', some outcome) ∧ j.Gives now outcome) →
      j.mailbox = some (.finished s cause) := by
    rintro result hresult (rfl | ⟨j', outcome, rfl, hgives⟩)
    · cases hresult
    · cases hresult
      cases hgives with
      | posted hposted => exact hposted
  cases event with
  | act => cases h
  | cancel => cases h
  | tryOutcome => exact hgives _ h (j.tryOutcome_cases now)
  | wake byTimer => exact hgives _ h (j.wake_cases byTimer now)

/-- A worker that is about to look at the flag, or to leave, owes only what is in the mailbox. -/
private theorem Owes.mailbox_eq {outcome : Outcome} (h : j.Owes now outcome)
    (hphase : j.phase = .checkCancel ∨ j.phase = .leave ∨ j.phase = .gone) :
    j.mailbox = some outcome := by
  cases h with
  | posted h => exact h
  | sending h => rcases hphase with hphase | hphase | hphase <;> cases hphase.symm.trans h
  | running h =>
    rcases hphase with hphase | hphase | hphase <;> rcases h with h | ⟨h, -⟩ <;>
      cases hphase.symm.trans h

/-- A worker that is about to send owes that and what is in the mailbox. -/
private theorem Owes.eq_of_send {report outcome : Outcome} (h : j.Owes now outcome)
    (hphase : j.phase = .send report) : j.mailbox = some outcome ∨ report = outcome := by
  cases h with
  | posted h => exact .inl h
  | sending h =>
    cases hphase.symm.trans h
    exact .inr rfl
  | running h => rcases h with h | ⟨h, -⟩ <;> cases hphase.symm.trans h

/-- After a chunk the worker owes what is in the mailbox and what the chunk came to. -/
private theorem Owes.of_afterChunk {outcome : Outcome} (hphase : j.phase = .runChunk)
    (h : (j.afterChunk (j.machine.run chunk)).Owes time outcome) : j.Owes now outcome := by
  unfold afterChunk at h
  split at h
  · exact .posted (h.mailbox_eq (.inr (.inr rfl)))
  · exact .posted (h.mailbox_eq (.inl rfl))
  · rename_i m hrun
    rcases h.eq_of_send rfl with hposted | rfl
    · exact .posted hposted
    · exact .running (s := .halted) (.inl hphase) hrun (by simp)
  · rename_i m e hrun
    rcases h.eq_of_send rfl with hposted | rfl
    · exact .posted hposted
    · exact .running (s := .stopped e) (.inl hphase) hrun (by simp)

/-- A result that is on its way after an action of a cancelled worker was on its way before. -/
private theorem Owes.of_act (hcancelled : j.cancelled = true) (hle : now ≤ time)
    (h : (j.act time).Owes time (.finished s cause)) : j.Owes now (.finished s cause) := by
  unfold act actWith at h
  cases hphase : j.phase with
  | checkCancel =>
    -- the flag is up, so the worker leaves
    rw [hphase, hcancelled] at h
    exact .posted (h.mailbox_eq (.inr (.inr rfl)))
  | checkDeadline =>
    rw [hphase] at h
    dsimp only at h
    split at h
    · -- the time is up, and that is no result
      rcases h.eq_of_send rfl with hposted | hreport
      · exact .posted hposted
      · cases hreport
    · rename_i hexpired
      rw [isExpired, decide_eq_true_eq, Nat.not_le] at hexpired
      generalize hresult : Outcome.finished s cause = result at h ⊢
      cases h with
      | posted h => exact .posted h
      | sending h => cases h
      | running _ hrun hs => exact .running (.inr ⟨hphase, by omega⟩) hrun hs
  | runChunk =>
    rw [hphase] at h
    exact h.of_afterChunk hphase
  | send outcome =>
    rw [hphase] at h
    cases h.mailbox_eq (.inr (.inl rfl))
    exact .sending hphase
  | leave =>
    rw [hphase] at h
    exact .posted (h.mailbox_eq (.inr (.inr rfl)))
  | gone =>
    rw [hphase] at h
    exact .posted (h.mailbox_eq (.inr (.inr hphase)))

/-- A result that is on its way after an event was on its way before, if the flag is up. -/
theorem Owes.of_after (hcancelled : j.cancelled = true) (hle : now ≤ time)
    (h : (j.after time event).Owes time (.finished s cause)) : j.Owes now (.finished s cause) := by
  by_cases hact : event = .act
  · subst hact
    exact h.of_act hcancelled hle
  · -- the host has nothing to do with what the worker comes to
    obtain ⟨mailbox, cancelled, hafter, hmailbox, -⟩ := j.after_of_ne_act time hact
    rw [hafter] at h
    generalize hresult : Outcome.finished s cause = result at h ⊢
    cases h with
    | posted h =>
      rcases hmailbox with rfl | rfl
      · exact .posted h
      · cases h
    | sending h => exact .sending h
    | running h hrun hs =>
      refine .running (h.imp_right fun hdeadline => ⟨hdeadline.1, ?_⟩) hrun hs
      exact Nat.lt_of_le_of_lt hle hdeadline.2

/-- What a cancelled job delivers was on its way. -/
theorem owes_of_mem_outcomes {events : List (Nat × Event)} (hcancelled : j.cancelled = true)
    (htimes : (now :: events.map Prod.fst).Pairwise (· ≤ ·))
    (h : .finished s cause ∈ j.outcomes events) : j.Owes now (.finished s cause) := by
  -- by induction on the events; from the end back, every event leaves on its way what was so after
  induction events generalizing j now with
  | nil => cases h
  | cons first events ih =>
    obtain ⟨time, event⟩ := first
    obtain ⟨hle, hrest⟩ := List.pairwise_cons.mp htimes
    rw [outcomes, List.mem_append, Option.mem_toList] at h
    rcases h with hfound | hlater
    · exact .posted (mailbox_of_found hfound)
    · have howes := ih (cancelled_after hcancelled time event) hrest hlater
      exact howes.of_after hcancelled (hle time List.mem_cons_self)

/-! ## What is on its way can be found -/

variable {outcome : Outcome}

/-- What is delivered after an action of the worker is delivered. -/
private theorem Delivers.of_act (h : (j.act now).Delivers now outcome) :
    j.Delivers now outcome := by
  obtain ⟨events, htimes, hmem⟩ := h
  refine ⟨(now, .act) :: events, ?_, hmem⟩
  rw [List.map_cons, List.pairwise_cons]
  refine ⟨fun time htime => ?_, htimes⟩
  rcases List.mem_cons.mp htime with rfl | htime
  · exact Nat.le_refl _
  · exact (List.pairwise_cons.mp htimes).1 time htime

private theorem delivers_of_posted (h : j.mailbox = some outcome) : j.Delivers now outcome := by
  refine ⟨[(now, .tryOutcome)], by simp, ?_⟩
  simp [outcomes, found, tryOutcome, receive?, h]

private theorem delivers_of_send (h : j.phase = .send outcome) : j.Delivers now outcome := by
  apply Delivers.of_act
  apply delivers_of_posted
  simp only [act, actWith, h]

private theorem delivers_of_runChunk {m : Machine} {s : Step} (h : j.phase = .runChunk)
    (hrun : j.machine.run chunk = .ok (m, s)) (hs : s ≠ .moved) :
    j.Delivers now (.ofHalt m s) := by
  apply Delivers.of_act
  apply delivers_of_send
  simp only [act, actWith, h, hrun]
  cases s with
  | moved => exact absurd rfl hs
  | halted => rfl
  | stopped e => rfl

/-- What is on its way can be found. -/
theorem delivers_of_owes (h : j.Owes now outcome) : j.Delivers now outcome := by
  cases h with
  | posted h => exact delivers_of_posted h
  | sending h => exact delivers_of_send h
  | running h hrun hs =>
    rcases h with h | ⟨h, htime⟩
    · exact delivers_of_runChunk h hrun hs
    · -- there is time for the chunk, so the worker goes on to it
      have hexpired : j.isExpired now = false := by
        rw [isExpired, decide_eq_false_iff_not]
        omega
      apply Delivers.of_act
      apply delivers_of_runChunk
      · simp [act, actWith, h, hexpired]
      · simpa [act, actWith, h] using hrun
      · exact hs

/-- **Cancelled jobs.** After a job was cancelled, the host can find a result exactly if that was in
the mailbox, or the worker was past its look at the flag, in time, and came to the result by the end
of its chunk. -/
theorem delivers_after_cancel_iff (j : Job) (now : Nat) (s : Snapshot) (cause : Option Error) :
    j.cancel.Delivers now (.finished s cause) ↔ j.Owes now (.finished s cause) := by
  -- to what is on its way the flag makes no difference
  have hflag : j.cancel.Owes now (.finished s cause) ↔ j.Owes now (.finished s cause) := by
    generalize Outcome.finished s cause = result
    constructor
    all_goals
      rintro (h | h | ⟨h, hrun, hs⟩)
      · exact .posted h
      · exact .sending h
      · exact .running h hrun hs
  rw [← hflag]
  constructor
  · rintro ⟨events, htimes, hmem⟩
    exact owes_of_mem_outcomes rfl htimes hmem
  · exact delivers_of_owes

/-- A program that halts after one step. -/
def oneStep : Program :=
  match Program.compile "1,a H,b" "a" .origin with
  | .ok program => program
  | .error _ => ⟨.empty, "", .origin⟩

/-- A job with ten minutes for that program. -/
def prompt : Job :=
  ⟨.start oneStep, .checkCancel, none, false, 600000000000⟩

/-- The worker reports and the job is cancelled then, or it is cancelled while the chunk is run, and
in either case the host finds the result afterwards. -/
theorem result_after_cancel :
    Program.compile "1,a H,b" "a" .origin = .ok oneStep ∧
    spawn (Machine.start oneStep).snapshot 600000000000 0 = .ok prompt ∧
    ∃ s, s.halted = true ∧
      prompt.outcomes [(0, .act), (0, .act), (1, .act), (1, .act), (2, .cancel),
        (3, .tryOutcome)] = [.finished s none] ∧
      prompt.outcomes [(0, .act), (0, .act), (1, .cancel), (2, .act), (3, .act),
        (4, .wake false)] = [.finished s none] := by
  refine ⟨by decide +kernel, by decide +kernel, (((prompt.act 0).act 0).act 1).machine.snapshot,
    by decide +kernel, by decide +kernel, by decide +kernel⟩

end SingleTape.Job
