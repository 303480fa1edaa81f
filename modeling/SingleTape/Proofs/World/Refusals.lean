import SingleTape.Proofs.World.Computation

/-!
# Refused calls

A call may be refused at several depths: because of where the engine stands, by the compiler, by the
check of a snapshot, or because the system has no thread to give.  At whichever depth, it is as if
the call had not been made.  The machine, the timing, the listeners, a pending request to halt and
whatever is under way are as before, a worker and what it is going to report included, and nobody is
told.

## Key results

- `World.run_heeded`: a run is the same without the calls that are refused
- `World.refusals_leave_no_trace`: refused calls change nothing, now or later
-/

namespace SingleTape.World

variable {w : World}

/-- Tells whether an occurrence is a call that is refused. -/
def isRefusal (w : World) : Occurrence → Bool
  | .call c => w.refuses c
  | _ => false

/-- What occurs in a run, without the calls that are refused. -/
def heeded (w : World) : List Occurrence → List Occurrence
  | [] => []
  | o :: os =>
    match w.after o with
    | .error _ => o :: os
    | .ok (w', _) => if w.isRefusal o then w'.heeded os else o :: w'.heeded os

/-- A call that is refused is an occurrence that changes nothing. -/
theorem after_of_isRefusal {o : Occurrence} (h : w.isRefusal o = true) :
    w.after o = .ok (w, []) := by
  unfold isRefusal at h
  split at h
  · exact after_of_refuses h
  · cases h

/-- A run is the same without the calls that are refused. -/
theorem run_heeded (w : World) (os : List Occurrence) : w.run (w.heeded os) = w.run os := by
  -- by induction on the run; a refused call leads back to the world in which it was made
  induction os generalizing w with
  | nil => rfl
  | cons o os ih =>
    cases hafter : w.after o with
    | error fault => simp only [heeded, hafter]
    | ok result =>
      obtain ⟨w', told⟩ := result
      by_cases hrefusal : w.isRefusal o = true
      · cases (after_of_isRefusal hrefusal).symm.trans hafter
        simp only [heeded, hafter, hrefusal, ↓reduceIte]
        rw [ih w, run_cons hafter]
        cases w.run os <;> simp [Except.map]
      · simp only [heeded, hafter, hrefusal, Bool.false_eq_true, ↓reduceIte]
        rw [run_cons hafter, run_cons hafter, ih w']

/-- **Refused calls leave no trace.** A call that is refused is one of those that may be; it leaves
the world as it was, with everything there is to the engine, and no listener is told.  So any run
leads to the same world, with the same told to the listeners, or to the same fault, if the calls
that are refused in it are left out. -/
theorem refusals_leave_no_trace (w : World) :
    (∀ c w' reply cause, w.call c = .ok (w', reply) → reply.answer = .refused cause →
      c.isRefusable = true ∧ w' = w ∧ reply.engine = w.engine ∧ reply.notices = [] ∧
        reply.deliveries = []) ∧
    ∀ os, w.run (w.heeded os) = w.run os := by
  refine ⟨fun c w' reply cause hcall hanswer => ?_, w.run_heeded⟩
  obtain ⟨hperform, rfl⟩ := call_eq_ok hcall
  obtain ⟨hrefusable, rfl⟩ := Engine.refuse_of_perform hperform hanswer
  exact ⟨hrefusable, rfl, rfl, rfl, rfl⟩

/-- A host that asks for too much.  During a computation it calls for everything that needs an idle
engine; it then halts twice and asks for a computation for which there is no thread. -/
def meddling : List Occurrence :=
  [.call (.install "1,a H,b" "a" .origin), .call .start, .call .step, .call .reset,
    .call (.compute none), .call (.restore (Machine.start ⟨.empty, "", .origin⟩).snapshot), .work,
    .call .halt, .call .halt, .call (.compute none false), .call .copy]

/-- Of all that, an action of the worker, one halt and the copy are left.  In particular, the call
for which there is no thread is refused where a computation could begin. -/
theorem refusals_leave_no_trace_meddling :
    begun.heeded meddling = [.work, .call .halt, .call .copy] ∧
    begun.run [.work, .call .halt, .call .copy] = begun.run meddling ∧
    ∃ reply, fourSteps.call (.compute none false) = .ok (fourSteps, reply) ∧
      reply.answer = .refused .noThread ∧ reply.deliveries = [] := by
  have hheeded : begun.heeded meddling = [.work, .call .halt, .call .copy] := by decide +kernel
  have hcall : fourSteps.call (.compute none false) =
      .ok (fourSteps, fourSteps.engine.refuse .noThread) := by decide +kernel
  obtain ⟨-, -, -, -, hdeliveries⟩ :=
    (refusals_leave_no_trace fourSteps).1 _ _ _ _ hcall rfl
  refine ⟨hheeded, ?_, _, hcall, rfl, hdeliveries⟩
  rw [← hheeded]
  exact (refusals_leave_no_trace begun).2 meddling

end SingleTape.World
