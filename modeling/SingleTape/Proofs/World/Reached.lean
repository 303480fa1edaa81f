import SingleTape.Proofs.Machine.Symbols
import SingleTape.Proofs.World.Run

/-!
# The worlds there can be

A world comes about from a new engine by occurrences: calls of every kind, actions of the worker
and passing time, in any order.  Programs and snapshots of any content may come in on the way, so
little is known of the machine.  What is known is that it has not halted while anything is under
way.  No single call looks after that: a run and a computation begin only with a machine that has
not halted, every step of a run that makes it halt also ends the run, and nobody else may touch the
machine meanwhile.

## Key results

- `Engine.Sound.perform`: a call keeps an engine sound
- `World.Reached.sound`: every engine there can be is sound
- `World.Reached.wait`: waiting leads to no other worlds
-/

namespace SingleTape

namespace Engine

/-- What is true of an engine at all times. -/
structure Sound (e : Engine) : Prop where
  /-- The machine is one there can be. -/
  reachable : ∀ m, e.machine = some m → m.Reachable
  /-- While anything is under way there is a machine that has not halted. -/
  live : e.isRunning = true → ∃ m, e.machine = some m ∧ m.halted = false

variable {e : Engine}

theorem isRunning_of_activity {a : Activity} (h : e.activity = a) (ha : a ≠ .idle) :
    e.isRunning = true := by
  cases hrunning : e.isRunning with
  | true => rfl
  | false => exact absurd (h.symm.trans (activity_of_not_isRunning hrunning)) ha

/-- An engine with nothing under way is sound if its machine is one there can be. -/
theorem Sound.of_idle (hreachable : ∀ m, e.machine = some m → m.Reachable)
    (hidle : e.activity = .idle) : e.Sound := by
  refine ⟨hreachable, fun hrunning => ?_⟩
  simp [isRunning, hidle] at hrunning

theorem Sound.of_idle_of_some {m : Machine} (hm : m.Reachable) (hmachine : e.machine = some m)
    (hidle : e.activity = .idle) : e.Sound := by
  refine .of_idle (fun p hp => ?_) hidle
  cases hmachine.symm.trans hp
  exact hm

/-- What leaves the machine alone and begins nothing keeps an engine sound. -/
theorem Sound.of_eq {e' : Engine} (h : e.Sound) (hmachine : e'.machine = e.machine)
    (hrunning : e'.isRunning = true → e.isRunning = true) : e'.Sound := by
  refine ⟨fun m hm => h.reachable m (hmachine ▸ hm), fun hrunning' => ?_⟩
  rw [hmachine]
  exact h.live (hrunning hrunning')

/-- After a step of a continuous run, the run goes on only if the machine does. -/
theorem Sound.of_planned {m : Machine} {now : Nat} (hreachable : m.Reachable) {e' : Engine}
    (hmachine : e'.machine = some m) (hactivity : e'.activity = e.planned m now) : e'.Sound := by
  refine ⟨fun p hp => ?_, fun hrunning => ⟨m, hmachine, ?_⟩⟩
  · cases hmachine.symm.trans hp
    exact hreachable
  · cases hhalted : m.halted with
    | false => rfl
    | true =>
      -- then the run was ended
      rw [planned, hhalted, if_pos rfl] at hactivity
      simp [isRunning, hactivity] at hrunning

/-- Whatever comes of looking for an outcome, the engine stays sound. -/
theorem Sound.settle {job : Job} (h : e.Sound) (hactivity : e.activity = .computing job)
    (result : Job × Option Outcome) : (e.settle result).engine.Sound := by
  obtain ⟨job', found⟩ := result
  cases found with
  | none =>
    -- the computation goes on
    exact h.of_eq rfl fun _ => isRunning_of_activity hactivity (by simp)
  | some outcome =>
    cases outcome with
    | timedOut | aborted => exact .of_idle h.reachable rfl
    | finished snapshot cause =>
      simp only [Engine.settle, finish]
      split
      · -- the result is discarded
        exact .of_idle h.reachable rfl
      · rename_i m hrestore
        exact .of_idle_of_some (.restore hrestore) rfl rfl

/-- A call keeps an engine sound. -/
theorem Sound.perform {now : Nat} {c : Call} {reply : Reply} (h : e.Sound)
    (hperform : e.perform now c = .ok reply) : reply.engine.Sound := by
  cases performs_of_perform hperform with
  | refused => exact h
  | installed hidle | reset hidle => exact .of_idle_of_some (.start _) rfl hidle
  | restored hidle hrestore => exact .of_idle_of_some (.restore hrestore) rfl hidle
  | started hready hstep =>
    exact .of_planned ((h.reachable _ (ready_eq_ok hready).1).step hstep) rfl rfl
  | ran _ _ _ hmachine hstep =>
    exact .of_planned ((h.reachable _ hmachine).step hstep) rfl rfl
  | stepped hready hstep =>
    obtain ⟨hmachine, hidle, -⟩ := ready_eq_ok hready
    exact .of_idle_of_some ((h.reachable _ hmachine).step hstep) rfl hidle
  | computing hready =>
    -- a computation begins with a machine that has not halted
    obtain ⟨hmachine, -, hlive⟩ := ready_eq_ok hready
    exact ⟨h.reachable, fun _ => ⟨_, hmachine, hlive⟩⟩
  | stopped hstop | obeyed _ hstop =>
    obtain ⟨rfl, -⟩ := stop?_eq_some hstop
    exact .of_idle h.reachable rfl
  | looked _ hactivity | woke hactivity => exact h.settle hactivity _
  | ignored | unready | slept | copied | delayed | requested | subscribed | unsubscribed =>
    exact h.of_eq rfl id

theorem Sound.work (h : e.Sound) (now : Nat) : (e.work now).Sound := by
  unfold Engine.work
  split
  · -- the worker has a machine of its own
    rename_i job hactivity
    exact h.of_eq rfl fun _ => isRunning_of_activity hactivity (by simp)
  · exact h

end Engine

namespace World

/-- The worlds there can be. -/
inductive Reached : World → Prop where
  | new (config : Config) : Reached (World.new config)
  | after {w w' : World} {o : Occurrence} {told : List Delivery} (hw : Reached w)
      (h : w.after o = .ok (w', told)) : Reached w'

variable {w w' : World}

theorem Reached.run {os : List Occurrence} {told : List Delivery} (hw : w.Reached)
    (h : w.run os = .ok (w', told)) : w'.Reached :=
  run_induction (P := fun w _ => w.Reached) (fun hw hafter => hw.after hafter) hw h

/-- However long a host waits, it finds itself in one of the worlds there can be. -/
theorem Reached.wait {pace rounds : Nat} {told : Array Delivery} (hw : w.Reached)
    (h : (w.wait pace rounds told).1 = .idle w' ∨ (w.wait pace rounds told).1 = .unfinished w') :
    w'.Reached := by
  obtain ⟨os, -, hos⟩ := exists_waitsBy pace rounds w told
  rcases h with h | h <;> rw [h] at hos
  all_goals
    obtain ⟨more, hrun, -⟩ := hos
    exact hw.run hrun

/-- Every engine there can be is sound. -/
theorem Reached.sound (hw : w.Reached) : w.engine.Sound := by
  induction hw with
  | new config => exact .of_idle (by rintro m ⟨⟩) rfl
  | after _ h ih =>
    rename_i w w' o told _
    cases o with
    | call c =>
      obtain ⟨reply, hcall, -⟩ := call_of_after h
      obtain ⟨hperform, rfl⟩ := call_eq_ok hcall
      exact ih.perform hperform
    | work =>
      cases h
      exact ih.work _
    | elapse nanoseconds =>
      cases h
      exact ih

end World

end SingleTape
