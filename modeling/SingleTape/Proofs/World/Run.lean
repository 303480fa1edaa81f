import SingleTape.Proofs.Engine.Calls

/-!
# Runs of a world

A run is a list of occurrences, one after the other.  Every interleaving of the host's calls, the
worker's actions and the passing of time is such a list; a host that waits is one too, since
waiting is made of polls, sleep and waking up (`World.exists_waitsBy`).

## Key results

- `World.run_append`: runs after runs
- `World.run_induction`: what occurrences preserve, runs preserve
- `World.always`: what is true all along a run
- `World.exists_waitsBy`: waiting is a run of polls, actions of the worker, passing time and waking
-/

namespace SingleTape

/-- The occurrences of which waiting is made. -/
def Occurrence.isWaiting : Occurrence → Bool
  | .call .poll | .call (.wake _) | .work | .elapse _ => true
  | _ => false

namespace World

/-- The world after several occurrences, and what the listeners were told by them. -/
def run (w : World) : List Occurrence → Except Fault (World × List Delivery)
  | [] => .ok (w, [])
  | o :: os =>
    match w.after o with
    | .error fault => .error fault
    | .ok (w', told) =>
      match w'.run os with
      | .error fault => .error fault
      | .ok (w'', more) => .ok (w'', told ++ more)

/-- The first of several occurrences. -/
theorem run_cons {w w' : World} {o : Occurrence} {told : List Delivery}
    (ho : w.after o = .ok (w', told)) (os : List Occurrence) :
    w.run (o :: os) = (w'.run os).map fun result => (result.1, told ++ result.2) := by
  simp only [run, ho]
  cases w'.run os <;> rfl

/-- A run does not fail only if its first occurrence does not and neither does the rest. -/
theorem run_cons_eq_ok {w w' : World} {o : Occurrence} {os : List Occurrence}
    {told : List Delivery} (h : w.run (o :: os) = .ok (w', told)) :
    ∃ w₁ told₁ told₂, w.after o = .ok (w₁, told₁) ∧ w₁.run os = .ok (w', told₂) ∧
      told = told₁ ++ told₂ := by
  simp only [run] at h
  split at h
  · cases h
  · rename_i w₁ told₁ hafter
    split at h
    · cases h
    · rename_i w₂ told₂ hrest
      cases h
      exact ⟨w₁, told₁, told₂, hafter, hrest, rfl⟩

/-- Occurrences after occurrences. -/
theorem run_append {w w' : World} {os : List Occurrence} {told : List Delivery}
    (hos : w.run os = .ok (w', told)) (os' : List Occurrence) :
    w.run (os ++ os') = (w'.run os').map fun result => (result.1, told ++ result.2) := by
  induction os generalizing w told with
  | nil =>
    cases hos
    rw [List.nil_append]
    cases w'.run os' <;> rfl
  | cons o os ih =>
    obtain ⟨w₁, told₁, told₂, ho, hrest, rfl⟩ := run_cons_eq_ok hos
    rw [List.cons_append, run_cons ho, ih hrest]
    cases w'.run os' <;> simp [Except.map]

/-- What every occurrence of a run preserves, the run preserves.  It may be about what is still to
occur as well. -/
theorem run_induction {P : World → List Occurrence → Prop} {w w' : World} {os : List Occurrence}
    {told : List Delivery}
    (hstep : ∀ {w w' o os told}, P w (o :: os) → w.after o = .ok (w', told) → P w' os)
    (h : P w os) (hrun : w.run os = .ok (w', told)) : P w' [] := by
  induction os generalizing w told with
  | nil =>
    cases hrun
    exact h
  | cons o os ih =>
    obtain ⟨w₁, told₁, told₂, hafter, hrest, -⟩ := run_cons_eq_ok hrun
    exact ih (hstep h hafter) hrest

/-- Something is true of every occurrence of a run, in the world in which it occurs. -/
def always (p : World → Occurrence → Bool) (w : World) : List Occurrence → Bool
  | [] => true
  | o :: os => p w o &&
    match w.after o with
    | .error _ => true
    | .ok (w', _) => w'.always p os

/-- What is always true is true of the first occurrence and of the others after it. -/
theorem always_cons {p : World → Occurrence → Bool} {w : World} {o : Occurrence}
    {os : List Occurrence} :
    w.always p (o :: os) = true ↔
      p w o = true ∧ ∀ w' told, w.after o = .ok (w', told) → w'.always p os = true := by
  rw [always, Bool.and_eq_true]
  refine and_congr_right fun _ => ?_
  cases hafter : w.after o with
  | error fault => simp
  | ok result =>
    constructor
    · rintro h w' told ⟨⟩
      exact h
    · intro h
      exact h result.1 result.2 rfl

/-- What is always true stays so if more occurs of which it is true in any world. -/
theorem always_append {p : World → Occurrence → Bool} {w : World} {os os' : List Occurrence}
    (hos : w.always p os = true) (hos' : ∀ w, ∀ o ∈ os', p w o = true) :
    w.always p (os ++ os') = true := by
  induction os generalizing w with
  | nil =>
    -- all that is left is what was added, and that is fine in any world
    rw [List.nil_append]
    clear hos
    induction os' generalizing w with
    | nil => rfl
    | cons o os' ih =>
      refine always_cons.mpr ⟨hos' w o List.mem_cons_self, fun w' _ _ => ?_⟩
      exact ih fun w o' ho' => hos' w o' (List.mem_cons_of_mem o ho')
  | cons o os ih =>
    obtain ⟨ho, hrest⟩ := always_cons.mp hos
    rw [List.cons_append]
    exact always_cons.mpr ⟨ho, fun w' told hafter => ih (hrest w' told hafter)⟩

/-- A call that does not fail is an occurrence that tells the listeners what the reply says. -/
theorem after_call {w w' : World} {c : Call} {reply : Reply} (h : w.call c = .ok (w', reply)) :
    w.after (.call c) = .ok (w', reply.deliveries) := by
  simp only [after, h]

/-- An occurrence that is a call is a call that does not fail. -/
theorem call_of_after {w w' : World} {c : Call} {told : List Delivery}
    (h : w.after (.call c) = .ok (w', told)) :
    ∃ reply, w.call c = .ok (w', reply) ∧ told = reply.deliveries := by
  simp only [after] at h
  split at h
  · cases h
  · rename_i reply hcall
    cases h
    exact ⟨reply, hcall, rfl⟩

/-- What a call makes of a world is what it makes of the engine. -/
theorem call_eq_ok {w w' : World} {c : Call} {reply : Reply} (h : w.call c = .ok (w', reply)) :
    w.engine.perform w.now c = .ok reply ∧ w' = ⟨reply.engine, w.now⟩ := by
  unfold call at h
  split at h
  · cases h
  · rename_i hperform
    cases h
    exact ⟨hperform, rfl⟩

/-- A call fails in a world only if it fails in the engine. -/
theorem call_eq_error {w : World} {c : Call} {fault : Fault} (h : w.call c = .error fault) :
    w.engine.perform w.now c = .error fault := by
  unfold call at h
  split at h
  · rename_i hperform
    cases h
    exact hperform
  · cases h

/-! ## Waiting -/

/-- Sleeping is a run. -/
private theorem sleep_eq_run (pace : Nat) (w : World) :
    ∃ os, (∀ o ∈ os, o.isWaiting = true) ∧ w.run os = .ok (w.sleep pace, []) := by
  unfold sleep
  split
  · exact ⟨[], by simp, rfl⟩
  · rename_i due _
    exact ⟨[.elapse (due - w.now)], by simp [Occurrence.isWaiting], rfl⟩
  · exact ⟨[.work, .elapse pace], by simp [Occurrence.isWaiting], rfl⟩

/-- Waking up is an occurrence. -/
private theorem wake_eq_run (w : World) :
    ∃ byTimer, w.run [.call (.wake byTimer)] = .ok w.wake := by
  have hrun : ∀ byTimer, w.run [.call (.wake byTimer)] =
      .ok (⟨(w.engine.wake byTimer w.now).engine, w.now⟩,
        (w.engine.wake byTimer w.now).deliveries) := by
    intro byTimer
    simp only [run, after, call, Engine.perform, List.append_nil]
  exact ⟨_, hrun _⟩

/-- What occurs while a host waits: it is all of the kinds of which waiting is made, and it leads
to the world in which waiting ended and told the listeners the same. -/
def WaitsBy (pace rounds : Nat) (w : World) (told : Array Delivery) (os : List Occurrence) : Prop :=
  (∀ o ∈ os, o.isWaiting = true) ∧
    match (w.wait pace rounds told).1 with
    | .idle w' | .unfinished w' =>
      ∃ more, w.run os = .ok (w', more) ∧ (w.wait pace rounds told).2 = told ++ more
    | .fault fault => w.run os = .error fault

/-- **Waiting.** However long a host waits, what happens meanwhile is a run of polls, of actions
of the worker, of passing time and of waking up. -/
theorem exists_waitsBy (pace rounds : Nat) (w : World) (told : Array Delivery) :
    ∃ os, w.WaitsBy pace rounds told os := by
  -- by induction on the rounds; the first round comes before those of the induction
  induction rounds generalizing w told with
  | zero => exact ⟨[], by simp, [], rfl, by simp [wait]⟩
  | succ rounds ih =>
    simp only [WaitsBy, wait]
    cases hpoll : w.call .poll with
    | error fault =>
      exact ⟨[.call .poll], by simp [Occurrence.isWaiting], by simp only [run, after, hpoll]⟩
    | ok result =>
      obtain ⟨w₁, reply⟩ := result
      have hfirst : w.run [.call .poll] = .ok (w₁, reply.deliveries) := by
        simp only [run, after_call hpoll, List.append_nil]
      dsimp only
      by_cases hrunning : w₁.engine.isRunning = true
      · -- one round is a poll, sleep and waking up, and the rounds that are left follow
        obtain ⟨os₁, hos₁, hsleep⟩ := sleep_eq_run pace w₁
        obtain ⟨byTimer, hwake⟩ := wake_eq_run (w₁.sleep pace)
        obtain ⟨os₂, hos₂, hrest⟩ :=
          ih (w₁.sleep pace).wake.1 (told ++ reply.deliveries ++ (w₁.sleep pace).wake.2)
        have hround : w.run (.call .poll :: os₁ ++ [.call (.wake byTimer)]) =
            .ok ((w₁.sleep pace).wake.1, reply.deliveries ++ (w₁.sleep pace).wake.2) := by
          rw [List.cons_append, run_cons (after_call hpoll), run_append hsleep, hwake]
          rfl
        refine ⟨.call .poll :: os₁ ++ [.call (.wake byTimer)] ++ os₂, ?_, ?_⟩
        · intro o ho
          simp only [List.cons_append, List.mem_cons, List.mem_append, List.not_mem_nil,
            or_false] at ho
          rcases ho with rfl | (ho | rfl) | ho
          · rfl
          · exact hos₁ o ho
          · rfl
          · exact hos₂ o ho
        · rw [if_pos hrunning, run_append hround]
          generalize World.wait pace rounds _ _ = rest at hrest ⊢
          obtain ⟨ending, all⟩ := rest
          cases ending with
          | idle w' =>
            obtain ⟨more, hmore, rfl⟩ := hrest
            rw [hmore]
            exact ⟨_, rfl, Array.ext' (by simp)⟩
          | unfinished w' =>
            obtain ⟨more, hmore, rfl⟩ := hrest
            rw [hmore]
            exact ⟨_, rfl, Array.ext' (by simp)⟩
          | fault fault =>
            dsimp only at hrest ⊢
            rw [hrest]
            rfl
      · rw [if_neg hrunning]
        exact ⟨[.call .poll], by simp [Occurrence.isWaiting], reply.deliveries, hfirst, rfl⟩

end World

end SingleTape
