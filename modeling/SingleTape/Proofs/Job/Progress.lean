import SingleTape.Proofs.Machine.Halting

/-!
# The way to a report

A worker whose machine halts gets to its report, as long as it is not cancelled and the time is not
up.  Three actions take it once round, and once round is a step of the machine nearer to the end, at
the least; one more action puts the report into the mailbox.  `Job.Nears` counts the actions that
are left, and every action makes them fewer.

## Key results

- `Job.Nears.act`: an action brings the worker nearer to its report
- `Job.Nears.tryOutcome`, `Job.Nears.wake`: what the host finds meanwhile
-/

namespace SingleTape

/-- The report on a machine that has halted by a step with the given result. -/
def Outcome.ofHalt (m : Machine) : Step → Outcome
  | .stopped cause => .finished m.snapshot (some cause)
  | _ => .finished m.snapshot none

namespace Job

variable {m : Machine} {s : Step} {k now deadline : Nat} {j : Job}

/-- How many actions are left until the report on `m` is in the mailbox. -/
inductive ActsLeft (m : Machine) (s : Step) (j : Job) : Nat → Prop where
  | checkCancel {n : Nat} (hphase : j.phase = .checkCancel) (hmailbox : j.mailbox = none)
      (hmachine : j.machine.HaltsIn n m s) : ActsLeft m s j (3 * n + 1)
  | checkDeadline {n : Nat} (hphase : j.phase = .checkDeadline) (hmailbox : j.mailbox = none)
      (hmachine : j.machine.HaltsIn n m s) : ActsLeft m s j (3 * n)
  | runChunk {n : Nat} (hphase : j.phase = .runChunk) (hmailbox : j.mailbox = none)
      (hmachine : j.machine.HaltsIn n m s) : ActsLeft m s j (3 * n - 1)
  | send (hphase : j.phase = .send (.ofHalt m s)) (hmailbox : j.mailbox = none) : ActsLeft m s j 1
  | sent (hphase : j.phase = .leave ∨ j.phase = .gone) (hmailbox : j.mailbox = some (.ofHalt m s)) :
      ActsLeft m s j 0

/-- The worker reports on `m` in so many actions, unless the deadline comes first. -/
structure Nears (m : Machine) (s : Step) (deadline k : Nat) (j : Job) : Prop where
  cancelled : j.cancelled = false
  deadline_eq : j.deadline = deadline
  actsLeft : ActsLeft m s j k

/-- Before the deadline the time is not up. -/
theorem Nears.isExpired_eq (h : j.Nears m s deadline k) (htime : now < deadline) :
    j.isExpired now = false := by
  rw [isExpired, h.deadline_eq, decide_eq_false_iff_not]
  omega

/-- An action of the worker does not touch the cancel flag and the deadline. -/
theorem act_eq (j : Job) (now : Nat) :
    (j.act now).cancelled = j.cancelled ∧ (j.act now).deadline = j.deadline := by
  unfold Job.act actWith
  split
  · exact ⟨rfl, rfl⟩
  · exact ⟨rfl, rfl⟩
  · unfold afterChunk
    split <;> exact ⟨rfl, rfl⟩
  · exact ⟨rfl, rfl⟩
  · exact ⟨rfl, rfl⟩
  · exact ⟨rfl, rfl⟩

/-- After a chunk in which the machine ends, the worker is about to report how it ended. -/
theorem afterChunk_of_ne_moved (j : Job) (hs : s ≠ .moved) :
    j.afterChunk (.ok (m, s)) = { j with machine := m, phase := .send (.ofHalt m s) } := by
  cases s with
  | moved => exact absurd rfl hs
  | halted | stopped => rfl

/-- After a chunk the worker has something to report, or has come round. -/
private theorem actsLeft_afterChunk {n : Nat} (hmailbox : j.mailbox = none)
    (hmachine : j.machine.HaltsIn n m s) :
    ∃ k, k ≤ 3 * n - 1 - 1 ∧ ActsLeft m s (j.afterChunk (j.machine.run chunk)) k := by
  have hpos := hmachine.pos
  rcases hmachine.run chunk with hrun | ⟨p, k, hrun, hk, hp⟩
  · rw [hrun, afterChunk_of_ne_moved _ hmachine.ne_moved]
    exact ⟨1, by omega, .send rfl hmailbox⟩
  · rw [hrun]
    have hchunk : chunk = 4096 := rfl
    exact ⟨3 * k + 1, by omega, .checkCancel rfl hmailbox hp⟩

/-- An action brings the worker nearer to its report. -/
theorem Nears.act (h : j.Nears m s deadline k) (htime : now < deadline) :
    ∃ k', k' ≤ k - 1 ∧ (j.act now).Nears m s deadline k' := by
  obtain ⟨hcancelled, hdeadline⟩ := j.act_eq now
  -- what is left to show is where the action leads
  suffices hacts : ∃ k', k' ≤ k - 1 ∧ ActsLeft m s (j.act now) k' by
    obtain ⟨k', hk', hleft⟩ := hacts
    exact ⟨k', hk', hcancelled.trans h.cancelled, hdeadline.trans h.deadline_eq, hleft⟩
  unfold Job.act actWith
  cases h.actsLeft with
  | checkCancel hphase hmailbox hmachine =>
    rw [hphase]
    dsimp only
    rw [h.cancelled]
    exact ⟨_, Nat.le_refl _, .checkDeadline rfl hmailbox hmachine⟩
  | checkDeadline hphase hmailbox hmachine =>
    rw [hphase]
    dsimp only
    rw [h.isExpired_eq htime]
    exact ⟨_, Nat.le_refl _, .runChunk rfl hmailbox hmachine⟩
  | runChunk hphase hmailbox hmachine =>
    rw [hphase]
    exact actsLeft_afterChunk hmailbox hmachine
  | send hphase hmailbox =>
    rw [hphase]
    exact ⟨0, Nat.le_refl _, .sent (.inl rfl) rfl⟩
  | sent hphase hmailbox =>
    rcases hphase with hphase | hphase
    · rw [hphase]
      exact ⟨0, Nat.le_refl _, .sent (.inr rfl) hmailbox⟩
    · rw [hphase]
      exact ⟨0, Nat.le_refl _, .sent (.inr hphase) hmailbox⟩

/-- There is the report to be received, or nothing yet. -/
theorem Nears.receive? (h : j.Nears m s deadline k) :
    (∃ j', j.receive? = some (j', .ofHalt m s)) ∨ 0 < k ∧ j.receive? = none := by
  have hnone : j.mailbox = none → j.phase ≠ .gone → j.receive? = none := by
    intro hmailbox hphase
    unfold Job.receive?
    split
    · rename_i hposted
      cases hmailbox.symm.trans hposted
    · rename_i hgone
      exact absurd hgone hphase
    · rfl
  cases h.actsLeft with
  | checkCancel hphase hmailbox hmachine =>
    exact .inr ⟨by omega, hnone hmailbox (by simp [hphase])⟩
  | checkDeadline hphase hmailbox hmachine =>
    have := hmachine.pos
    exact .inr ⟨by omega, hnone hmailbox (by simp [hphase])⟩
  | runChunk hphase hmailbox hmachine =>
    have := hmachine.pos
    exact .inr ⟨by omega, hnone hmailbox (by simp [hphase])⟩
  | send hphase hmailbox => exact .inr ⟨Nat.one_pos, hnone hmailbox (by simp [hphase])⟩
  | sent hphase hmailbox =>
    refine .inl ⟨{ j with mailbox := none }, ?_⟩
    simp only [Job.receive?, hmailbox]

/-- In time, the clock tells the host nothing. -/
theorem Nears.expire (h : j.Nears m s deadline k) (htime : now < deadline) :
    j.expire now = (j, none) := by
  simp [Job.expire, h.isExpired_eq htime]

/-- In time, the host finds the report or that there is none yet. -/
theorem Nears.tryOutcome (h : j.Nears m s deadline k) (htime : now < deadline) :
    (∃ j', j.tryOutcome now = (j', some (.ofHalt m s))) ∨
      0 < k ∧ j.tryOutcome now = (j, none) := by
  unfold Job.tryOutcome
  rcases h.receive? with ⟨j', hreceive⟩ | ⟨hpos, hreceive⟩
  · rw [hreceive]
    exact .inl ⟨j', rfl⟩
  · rw [hreceive]
    exact .inr ⟨hpos, h.expire htime⟩

/-- The same goes for a host that wakes up.  If its timer wakes it, it leaves the report alone. -/
theorem Nears.wake (h : j.Nears m s deadline k) (byTimer : Bool) (htime : now < deadline) :
    (∃ j', j.wake byTimer now = (j', some (.ofHalt m s))) ∨ j.wake byTimer now = (j, none) := by
  cases byTimer with
  | true =>
    -- a timer that goes off in time finds that the deadline has not come
    exact .inr (h.expire htime)
  | false =>
    simp only [Job.wake]
    rcases h.receive? with ⟨j', hreceive⟩ | ⟨-, hreceive⟩
    · rw [hreceive]
      exact .inl ⟨j', rfl⟩
    · rw [hreceive]
      exact .inr rfl

/-- A job whose worker has done nothing yet. -/
def fresh (m : Machine) (deadline : Nat) : Job :=
  ⟨m, .checkCancel, none, false, deadline⟩

/-- A job begins with the machine that its snapshot copies. -/
theorem spawn_of_restore {c : Snapshot} {p : Machine} (hrestore : c.restore = .ok p)
    (timeout now : Nat) : spawn c timeout now = .ok (fresh p (now + timeout)) := by
  simp only [spawn, hrestore, ↓reduceIte]
  rfl

/-- A worker that was just put to work on a machine that halts is on the way to its report. -/
theorem nears_of_spawn {c : Snapshot} {p : Machine} {n : Nat} (hrestore : c.restore = .ok p)
    (hhalts : p.HaltsIn n m s) (timeout now : Nat) :
    ∃ j, spawn c timeout now = .ok j ∧ j.Nears m s (now + timeout) (3 * n + 1) :=
  ⟨fresh p (now + timeout), spawn_of_restore hrestore timeout now, rfl, rfl,
    .checkCancel rfl rfl hhalts⟩

end Job

end SingleTape
