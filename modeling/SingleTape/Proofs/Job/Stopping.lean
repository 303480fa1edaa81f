import SingleTape.Proofs.Job.Stepwise

/-!
# How soon a worker stops

A worker has to stop from the moment when its job is cancelled or its time is up.  It may not know
of that for the rest of a chunk: it looks at the flag and at the clock only in between.  But it looks
at both, one right after the other, so what it can still do is bounded by one chunk, wherever it was
when that moment came.  `Job.Stepwise.budget` says how much it is: nothing right before a look at the
flag, a chunk after that look if there is time, and within a chunk what is left of it.

A job that is given no time has to stop from the beginning, and right before a look at the flag.

## Key results

- `Job.Stepwise.steps_le_budget`: what a worker that has to stop still does
- `Job.Stepwise.futile_afterAll`: a job that is given no time does nothing and comes to no result
- `Job.stops_within_chunk`: both, for any course of events
-/

namespace SingleTape.Job

/-- The job was cancelled, or its time is up. -/
def MustStop (j : Job) (now : Nat) : Prop :=
  j.cancelled = true ∨ j.deadline ≤ now

/-- Neither worker nor host changes the deadline. -/
theorem deadline_after (j : Job) (now : Nat) (event : Event) :
    (j.after now event).deadline = j.deadline := by
  by_cases hact : event = .act
  · subst hact
    exact (j.act_eq now).2
  · obtain ⟨mailbox, cancelled, hafter, -⟩ := j.after_of_ne_act now hact
    rw [hafter]

namespace Stepwise

variable {w : Stepwise} {now time : Nat} {event : Event}

/-- How many steps the worker makes in the course of events, each at its time; one that finds its
machine halted counts as well. -/
def steps (w : Stepwise) : List (Nat × Event) → Nat
  | [] => 0
  | (now, .act) :: events =>
    (if w.job.phase = .runChunk then 1 else 0) + (w.after now .act).steps events
  | (now, event) :: events => (w.after now event).steps events

/-- How many steps a worker that has to stop can still make. -/
def budget (w : Stepwise) (now : Nat) : Nat :=
  match w.job.phase with
  | .checkDeadline => if w.job.isExpired now then 0 else chunk
  | .runChunk => chunk - w.spent
  | _ => 0

/-- A worker never has more than a chunk before it. -/
theorem budget_le_chunk (w : Stepwise) (now : Nat) : w.budget now ≤ chunk := by
  unfold budget
  split
  · split <;> omega
  · omega
  · omega

/-- After a chunk the worker looks at the flag, or makes no further step at all. -/
theorem budget_ofJob_afterChunk (j : Job) (result : Except Fault (Machine × Step)) (now : Nat) :
    (ofJob (j.afterChunk result)).budget now = 0 := by
  unfold afterChunk
  split <;> rfl

/-! ## Having to stop -/

/-- An action of the worker does not touch the cancel flag and the deadline. -/
theorem act_eq (w : Stepwise) (now : Nat) :
    (w.act now).job.cancelled = w.job.cancelled ∧ (w.act now).job.deadline = w.job.deadline := by
  rcases w.act_cases now with ⟨-, hact⟩ | ⟨-, m, -, hjob, -⟩ | ⟨-, hact⟩
  · rw [hact]
    exact w.job.act_eq now
  · rw [hjob]
    exact ⟨rfl, rfl⟩
  · rw [hact]
    show (w.job.afterChunk _).cancelled = _ ∧ (w.job.afterChunk _).deadline = _
    unfold afterChunk
    split <;> exact ⟨rfl, rfl⟩

/-- A worker that has to stop has to stop later as well. -/
theorem mustStop_after (h : w.job.MustStop now) (hle : now ≤ time) (event : Event) :
    (w.after time event).job.MustStop time := by
  have hlater : w.job.MustStop time := h.imp_right fun hdeadline => Nat.le_trans hdeadline hle
  by_cases hact : event = .act
  · subst hact
    obtain ⟨hcancelled, hdeadline⟩ := w.act_eq time
    rw [MustStop] at hlater ⊢
    show (w.act time).job.cancelled = true ∨ (w.act time).job.deadline ≤ time
    rw [hcancelled, hdeadline]
    exact hlater
  · rw [after_of_ne_act w time hact]
    refine hlater.imp (fun hcancelled => cancelled_after hcancelled time event) fun hdeadline => ?_
    rw [deadline_after]
    exact hdeadline

/-- An action of a worker that has to stop takes what it makes off the budget. -/
theorem budget_act (h : w.job.MustStop now) (hle : now ≤ time) :
    (if w.job.phase = .runChunk then 1 else 0) + (w.act time).budget time ≤ w.budget now := by
  rcases w.act_cases time with ⟨hphase, hact⟩ | ⟨hphase, m, -, hjob, hspent⟩ | ⟨hphase, hact⟩
  · rw [if_neg hphase, Nat.zero_add, hact]
    cases hphase' : w.job.phase with
    | checkCancel =>
      -- the flag is up, or the look at the clock that comes next finds the time up
      have hzero : (ofJob (w.job.act time)).budget time = 0 := by
        simp only [ofJob, budget, Job.act, actWith, hphase']
        by_cases hcancelled : w.job.cancelled = true
        · simp only [hcancelled, ↓reduceIte]
        · have hdeadline : w.job.deadline ≤ time :=
            Nat.le_trans (h.resolve_left hcancelled) hle
          rw [if_neg hcancelled]
          exact if_pos (decide_eq_true hdeadline)
      rw [hzero]
      exact Nat.zero_le _
    | checkDeadline =>
      by_cases hexpired : w.job.isExpired time = true
      · have hzero : (ofJob (w.job.act time)).budget time = 0 := by
          simp only [ofJob, budget, Job.act, actWith, hphase', hexpired, ↓reduceIte]
        rw [hzero]
        exact Nat.zero_le _
      · -- the time that is not up yet was not up before
        have hearlier : ¬w.job.isExpired now = true := by
          rw [isExpired, decide_eq_true_eq] at hexpired ⊢
          omega
        rw [show w.budget now = chunk by simp only [budget, hphase', if_neg hearlier]]
        exact budget_le_chunk _ _
    | runChunk => exact absurd hphase' hphase
    | send outcome => simp only [ofJob, budget, Job.act, actWith, hphase', Nat.le_refl]
    | leave => simp only [ofJob, budget, Job.act, actWith, hphase', Nat.le_refl]
    | gone => simp only [ofJob, budget, Job.act, actWith, hphase', Nat.le_refl]
  · have hlt := w.spent_lt
    simp only [budget, hjob, hspent, hphase, ↓reduceIte]
    omega
  · have hlt := w.spent_lt
    rw [if_pos hphase, hact, budget_ofJob_afterChunk]
    simp only [budget, hphase]
    omega

/-- The host takes nothing off the budget and adds nothing to it. -/
theorem budget_host (hact : event ≠ .act) (hle : now ≤ time) :
    (w.after time event).budget time ≤ w.budget now := by
  obtain ⟨hphase, -⟩ := worker_after_of_ne_act w.job time hact
  rw [after_of_ne_act w time hact]
  simp only [budget, hphase, isExpired, deadline_after, decide_eq_true_eq]
  split
  · -- time only goes on, so a budget that is there now was there before
    split
    · exact Nat.zero_le _
    · exact Nat.le_of_eq (if_neg (by omega)).symm
  · exact Nat.le_refl _
  · exact Nat.le_refl _

/-- A worker that has to stop makes no more steps than its budget. -/
theorem steps_le_budget {events : List (Nat × Event)} (h : w.job.MustStop now)
    (htimes : (now :: events.map Prod.fst).Pairwise (· ≤ ·)) : w.steps events ≤ w.budget now := by
  induction events generalizing w now with
  | nil => exact Nat.zero_le _
  | cons first events ih =>
    -- the event leaves as much of the budget as it does not use
    obtain ⟨time, event⟩ := first
    obtain ⟨hfirst, hrest⟩ := List.pairwise_cons.mp htimes
    have hle := hfirst time List.mem_cons_self
    have hsteps := ih (mustStop_after h hle event) hrest
    by_cases hact : event = .act
    · subst hact
      have hbudget := budget_act h hle
      show (if w.job.phase = .runChunk then 1 else 0) + (w.after time .act).steps events ≤ _
      exact Nat.le_trans (Nat.add_le_add_left hsteps _) hbudget
    · have hbudget := budget_host (w := w) hact hle
      have hsame : w.steps ((time, event) :: events) = (w.after time event).steps events := by
        cases event with
        | act => exact absurd rfl hact
        | tryOutcome => rfl
        | wake byTimer => rfl
        | cancel => rfl
      rw [hsame]
      exact Nat.le_trans hsteps hbudget

end Stepwise

/-! ## No time -/

/-- The time of the job is up, and its worker has come to no result and is not about to. -/
structure Futile (j : Job) (now : Nat) : Prop where
  expired : j.deadline ≤ now
  mailbox : ∀ s cause, j.mailbox ≠ some (.finished s cause)
  phase : j.phase ≠ .runChunk
  send : ∀ s cause, j.phase ≠ .send (.finished s cause)

variable {j : Job} {now time : Nat} {event : Event}

/-- A job whose time is up stays without a result, and its machine stays as it is. -/
theorem Futile.after (h : j.Futile now) (hle : now ≤ time) (event : Event) :
    (j.after time event).Futile time ∧ (j.after time event).machine = j.machine := by
  have hexpired : j.deadline ≤ time := Nat.le_trans h.expired hle
  by_cases hact : event = .act
  · subst hact
    refine ⟨⟨?_, ?_, ?_, ?_⟩, ?_⟩
    · rw [deadline_after]
      exact hexpired
    all_goals
      simp only [Job.after, act, actWith]
      cases hphase : j.phase with
      | checkCancel => cases hcancelled : j.cancelled <;> simp [h.mailbox]
      | checkDeadline => simp [isExpired, hexpired, h.mailbox]
      | runChunk => exact absurd hphase h.phase
      | send outcome =>
        have := h.send
        simp_all
      | leave => simp [h.mailbox]
      | gone => simp [h.mailbox, hphase]
  · obtain ⟨mailbox, cancelled, hafter, hmailbox, -⟩ := j.after_of_ne_act time hact
    rw [hafter]
    refine ⟨⟨hexpired, fun s cause hposted => ?_, h.phase, h.send⟩, rfl⟩
    rcases hmailbox with rfl | rfl
    · exact h.mailbox s cause hposted
    · cases hposted

/-- What the host finds is no result. -/
theorem Futile.found_ne (h : j.Futile now) (time : Nat) (event : Event) (s : Snapshot)
    (cause : Option Error) : j.found time event ≠ some (.finished s cause) :=
  fun hfound => h.mailbox s cause (mailbox_of_found hfound)

/-- A host that looks for an outcome finds one, which is no result. -/
theorem Futile.tryOutcome (h : j.Futile now) :
    (j.tryOutcome now).2 = some .timedOut ∨ (j.tryOutcome now).2 = some .aborted := by
  cases hfound : (j.tryOutcome now).2 with
  | none => exact absurd h.expired (Nat.not_le_of_lt (pending_of_tryOutcome hfound).lt_deadline)
  | some outcome =>
    cases outcome with
    | finished s cause => exact absurd hfound (h.found_ne now .tryOutcome s cause)
    | timedOut => exact .inl rfl
    | aborted => exact .inr rfl

namespace Stepwise

variable {w : Stepwise}

/-- There is no chunk to be followed through if no result is to be expected. -/
theorem job_after_of_futile (h : w.job.Futile now) (time : Nat) (event : Event) :
    (w.after time event).job = w.job.after time event := by
  by_cases hact : event = .act
  · subst hact
    show (w.act time).job = w.job.act time
    unfold act
    split
    · rename_i hphase
      exact absurd hphase h.phase
    · rfl
  · rw [after_of_ne_act w time hact]

/-- A job without time makes no step and comes to no result, whatever happens to it. -/
theorem futile_afterAll {events : List (Nat × Event)} (h : w.job.Futile now)
    (htimes : (now :: events.map Prod.fst).Pairwise (· ≤ ·)) :
    (∀ time, (∀ earlier ∈ now :: events.map Prod.fst, earlier ≤ time) →
        (w.afterAll events).job.Futile time) ∧
      (w.afterAll events).job.machine = w.job.machine ∧
      ∀ s cause, .finished s cause ∉ w.outcomes events := by
  induction events generalizing w now with
  | nil =>
    refine ⟨fun time hle => ?_, rfl, fun s cause => List.not_mem_nil⟩
    have hexpired := Nat.le_trans h.expired (hle now List.mem_cons_self)
    exact ⟨hexpired, h.mailbox, h.phase, h.send⟩
  | cons first events ih =>
    obtain ⟨time, event⟩ := first
    obtain ⟨hfirst, hrest⟩ := List.pairwise_cons.mp htimes
    obtain ⟨hfutile, hmachine⟩ := h.after (hfirst time List.mem_cons_self) event
    rw [← job_after_of_futile h] at hfutile hmachine
    obtain ⟨hlast, hsame, hnone⟩ := ih hfutile hrest
    refine ⟨fun later hle => hlast later fun earlier hearlier => ?_, hsame.trans hmachine, ?_⟩
    · exact hle earlier (List.mem_cons_of_mem now hearlier)
    · intro s cause hmem
      rw [outcomes, List.mem_append, Option.mem_toList] at hmem
      rcases hmem with hfound | hmem
      · exact h.found_ne time event s cause hfound
      · exact hnone s cause hmem

end Stepwise

open Stepwise

/-- A job that is given no time is without hope from the beginning. -/
theorem futile_of_spawn {s : Snapshot} {thread : Bool} (h : spawn s 0 now thread = .ok j) :
    j.Futile now ∧ j.phase = .checkCancel := by
  unfold spawn at h
  split at h
  · cases h
  · split at h
    · cases h
      exact ⟨⟨Nat.le_refl _, by simp, by simp, by simp⟩, rfl⟩
    · cases h

/-- **Stopping.** From the moment when its job is cancelled or its time is up, a worker makes at most
4096 more steps, whatever machine it is at work on, wherever it is and whatever happens in between.
A job that is given no time makes none at all: its machine stays as it was, no result is ever found,
and whoever looks for an outcome is told that there will be none.  To what the host can find it makes
no difference whether a chunk is one action of the worker or every step is one. -/
theorem stops_within_chunk :
    (∀ (w : Stepwise) (now : Nat) (events : List (Nat × Event)),
      (now :: events.map Prod.fst).Pairwise (· ≤ ·) → w.job.MustStop now →
        w.steps events ≤ 4096) ∧
    (∀ (s : Snapshot) (now : Nat) (thread : Bool) (j : Job), spawn s 0 now thread = .ok j →
      ∀ events : List (Nat × Event), (now :: events.map Prod.fst).Pairwise (· ≤ ·) →
        (ofJob j).steps events = 0 ∧ ((ofJob j).afterAll events).job.machine = j.machine ∧
        (∀ result cause, .finished result cause ∉ (ofJob j).outcomes events) ∧
        ∀ time, (∀ earlier ∈ now :: events.map Prod.fst, earlier ≤ time) →
          (((ofJob j).afterAll events).job.tryOutcome time).2 = some .timedOut ∨
            (((ofJob j).afterAll events).job.tryOutcome time).2 = some .aborted) ∧
    (∀ (j : Job) (now : Nat) (found : List Outcome),
      (∃ events : List (Nat × Event), (now :: events.map Prod.fst).Pairwise (· ≤ ·) ∧
          (ofJob j).outcomes events = found) ↔
        ∃ events : List (Nat × Event), (now :: events.map Prod.fst).Pairwise (· ≤ ·) ∧
          j.outcomes events = found) := by
  refine ⟨fun w now events htimes hstop => ?_, fun s now thread j hspawn events htimes => ?_,
    finds_iff⟩
  · exact Nat.le_trans (steps_le_budget hstop htimes) (w.budget_le_chunk now)
  · obtain ⟨hfutile, hphase⟩ := futile_of_spawn hspawn
    obtain ⟨hlast, hmachine, hnone⟩ := futile_afterAll (w := ofJob j) hfutile htimes
    -- right before its look at the flag a worker that has to stop has no step before it
    have hsteps := steps_le_budget (w := ofJob j) (.inr hfutile.expired) htimes
    have hbudget : (ofJob j).budget now = 0 := by
      simp only [ofJob, budget, hphase]
    exact ⟨by omega, hmachine, hnone, fun time hle => (hlast time hle).tryOutcome⟩

/-- A program that never halts. -/
def endless : Program :=
  match Program.compile "1,_ 1,_,>" "" .origin with
  | .ok program => program
  | .error _ => ⟨.empty, "", .origin⟩

/-- A job for that program, with a worker that has just looked at the flag and at the clock. -/
def tireless : Job :=
  ⟨.start endless, .runChunk, none, false, 600000000000⟩

/-- Cancelled after the first step of a chunk, the worker makes some more steps of the chunk; and with
no time for a program that halts at once, nothing is done and the time is found to be up. -/
theorem stops_within_chunk_tireless :
    (((ofJob tireless).after 0 .act).after 1 .cancel).job.MustStop 1 ∧
    (((ofJob tireless).after 0 .act).after 1 .cancel).steps
      [(1, .act), (2, .act), (2, .tryOutcome), (3, .act)] = 3 ∧
    (((ofJob tireless).after 0 .act).after 1 .cancel).steps
      (List.replicate 5000 (2, .act)) ≤ 4096 ∧
    ∃ j, spawn (Machine.start oneStep).snapshot 0 7 = .ok j ∧
      (ofJob j).steps [(7, .act), (7, .act), (8, .act), (9, .tryOutcome)] = 0 ∧
      (ofJob j).outcomes [(7, .act), (7, .act), (8, .act), (9, .tryOutcome)] = [.timedOut] := by
  obtain ⟨hbound, hidle, -⟩ := stops_within_chunk
  have hstop : (((ofJob tireless).after 0 .act).after 1 .cancel).job.MustStop 1 := .inl rfl
  have htimes : (1 :: (List.replicate 5000 (2, Event.act)).map Prod.fst).Pairwise (· ≤ ·) := by
    rw [List.map_replicate, List.pairwise_cons, List.pairwise_replicate]
    refine ⟨fun time htime => ?_, .inr (Nat.le_refl _)⟩
    rw [(List.mem_replicate.mp htime).2]
    exact Nat.le_succ 1
  have hspawn : spawn (Machine.start oneStep).snapshot 0 7 =
      .ok ⟨.start oneStep, .checkCancel, none, false, 7⟩ := by
    decide +kernel
  obtain ⟨hsteps, -⟩ := hidle _ _ _ _ hspawn [(7, .act), (7, .act), (8, .act), (9, .tryOutcome)]
    (by decide)
  exact ⟨hstop, by decide +kernel, hbound _ _ _ htimes hstop, _, hspawn, hsteps, by decide +kernel⟩

end SingleTape.Job
