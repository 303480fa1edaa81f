import SingleTape.Proofs.Engine.Listeners
import SingleTape.Proofs.Machine.Halting
import SingleTape.Proofs.World.Survival

/-!
# Notices tell the truth

An engine tells of a halt in four places: after a single step, after the first step of a continuous
run, after a step of it that was due, and when the result of a computation is taken over.  Each has
its own way to find out what happened, and none of them looks at the machine before and after.
`Truthful` does: it compares what is told with the two machines and with nothing else.

As long as every program was installed and none came in as a snapshot, what is told is the truth.
This takes two facts about the whole history.  Nothing is under way on a machine that has halted, so
no step reports that it had halted before; and a worker was given the machine of the engine, which
survives being copied, so no result of a computation is about another machine or is discarded.

## Key results

- `Truthful.append`: what is told of one run after another
- `World.Healthy.truthful_of_call`: a call tells the truth
- `World.notices_truthful`: so does every operation, waiting included, and every listener hears it
-/

namespace SingleTape

/-- The causes for which a machine halts without applying a rule. -/
def Error.isObstacle : Error → Bool
  | .noRule _ _ | .tapeEnd _ => true
  | _ => false

/-- The notice tells that the machine has halted. -/
def Notice.tellsHalt : Notice → Bool
  | .haltState => true
  | .failure cause => cause.isObstacle
  | _ => false

/-- The notice tells how the machine or a computation ended. -/
def Notice.isVerdict : Notice → Bool
  | .haltState | .failure _ => true
  | _ => false

/-- The machine halted by a rule that leads to the halt state. -/
def EntersHalt (before after : Option Machine) : Prop :=
  ∃ m m' rule, before = some m ∧ after = some m' ∧ rule.next = .halt ∧ m.HaltsBy m' (some rule)

/-- The machine halted without applying a rule; the cause is what it has halted at. -/
def HaltsAt (before after : Option Machine) (cause : Error) : Prop :=
  ∃ m m', before = some m ∧ after = some m' ∧ m.HaltsBy m' none ∧ cause = m'.obstacle

/-- What is told while the machine of an engine changes from `before` to `after` is the truth. -/
structure Truthful (before after : Option Machine) (notices : List Notice) : Prop where
  /-- A change is told. -/
  update : after ≠ before → .update ∈ notices
  /-- It is told that the halt state was entered exactly if it was. -/
  haltState : .haltState ∈ notices ↔ EntersHalt before after
  /-- It is told at what the machine halted without applying a rule exactly if it did. -/
  obstacle : ∀ cause, (.failure cause ∈ notices ∧ cause.isObstacle = true) ↔
    HaltsAt before after cause
  /-- A halt is told once and in one way. -/
  once : notices.countP (·.tellsHalt) ≤ 1
  /-- No other failure is told than that a worker is gone: not that the machine had halted before,
  and nothing of snapshots. -/
  aborted : ∀ cause, .failure cause ∈ notices → cause.isObstacle = true ∨ cause = .computeAborted

variable {before middle after : Option Machine} {m m' : Machine} {notices more : List Notice}

theorem Machine.isObstacle_obstacle (m : Machine) : m.obstacle.isObstacle = true := by
  unfold Machine.obstacle
  split <;> rfl

theorem Notice.isVerdict_of_tellsHalt {notice : Notice} (h : notice.tellsHalt = true) :
    notice.isVerdict = true := by
  cases notice with
  | haltState | failure => rfl
  | _ => cases h

/-! ## One change -/

/-- Where no machine halts, only the loss of a worker may be told. -/
theorem Truthful.of_not_haltsBy
    (hquiet : ∀ m m' rule?, before = some m → after = some m' → ¬m.HaltsBy m' rule?)
    (hupdate : after ≠ before → .update ∈ notices)
    (hverdict : ∀ notice ∈ notices, notice.isVerdict = true → notice = .failure .computeAborted) :
    Truthful before after notices where
  update := hupdate
  haltState := by
    constructor
    · intro hmem
      cases hverdict _ hmem rfl
    · intro ⟨m, m', rule, hm, hm', _, hhalts⟩
      exact absurd hhalts (hquiet m m' _ hm hm')
  obstacle cause := by
    constructor
    · intro ⟨hmem, hcause⟩
      cases hverdict _ hmem rfl
      cases hcause
    · intro ⟨m, m', hm, hm', hhalts, _⟩
      exact absurd hhalts (hquiet m m' _ hm hm')
  once := by
    have hnone : notices.countP (·.tellsHalt) = 0 := by
      rw [List.countP_eq_zero]
      intro notice hmem htells
      rw [hverdict notice hmem (Notice.isVerdict_of_tellsHalt htells)] at htells
      cases htells
    omega
  aborted := by
    intro cause hmem
    cases hverdict _ hmem rfl
    exact .inr rfl

/-- Where the machine stays as it is, no halt may be told. -/
theorem Truthful.of_eq (heq : after = before)
    (hverdict : ∀ notice ∈ notices, notice.isVerdict = true → notice = .failure .computeAborted) :
    Truthful before after notices := by
  apply of_not_haltsBy _ (fun hne => absurd heq hne) hverdict
  intro m m' rule? hm hm' hhalts
  cases hm'.symm.trans (heq.trans hm)
  cases hhalts.live.symm.trans hhalts.halted

/-- A machine that has not halted may take the place of another if the change is told. -/
theorem Truthful.of_live (hlive : m'.halted = false) :
    Truthful before (some m') [.update] := by
  apply of_not_haltsBy
  · intro m p rule? _ hp hhalts
    cases hp
    cases hlive.symm.trans hhalts.halted
  · simp
  · simp [Notice.isVerdict]

/-- If there is one verdict, any verdict that is told is that one. -/
private theorem mem_iff_of_verdict {told notice : Notice}
    (h : notices.filter (·.isVerdict) = [told]) (hnotice : notice.isVerdict = true) :
    notice ∈ notices ↔ notice = told := by
  rw [← List.mem_singleton, ← h, List.mem_filter]
  simp [hnotice]

/-- If there is one verdict, a halt is told at most once. -/
private theorem countP_le_of_verdict {told : Notice} (h : notices.filter (·.isVerdict) = [told]) :
    notices.countP (·.tellsHalt) ≤ 1 :=
  calc notices.countP (·.tellsHalt)
    _ ≤ notices.countP (·.isVerdict) :=
      List.countP_mono_left fun _ _ => Notice.isVerdict_of_tellsHalt
    _ = 1 := by rw [List.countP_eq_length_filter, h]; rfl

/-- Where a machine enters the halt state, that has to be the verdict. -/
theorem Truthful.of_halted (hrests : m.RestsAs m' .halted) (hupdate : .update ∈ notices)
    (hverdict : notices.filter (·.isVerdict) = [.haltState]) :
    Truthful (some m) (some m') notices := by
  obtain ⟨-, rule, hnext, hhalts⟩ | ⟨hs, -⟩ := hrests.haltsBy
  · have hfailure : ∀ cause, .failure cause ∉ notices := by
      intro cause hmem
      cases (mem_iff_of_verdict hverdict rfl).mp hmem
    refine ⟨fun _ => hupdate, ?_, ?_, countP_le_of_verdict hverdict, ?_⟩
    · constructor
      · intro _
        exact ⟨m, m', rule, rfl, rfl, hnext, hhalts⟩
      · intro _
        exact (mem_iff_of_verdict hverdict rfl).mpr rfl
    · -- a rule was applied, and a machine halts in one way only
      intro cause
      constructor
      · intro ⟨hmem, _⟩
        exact absurd hmem (hfailure cause)
      · intro ⟨p, p', hp, hp', hother, _⟩
        cases hp
        cases hp'
        cases (hhalts.unique hother).2
    · intro cause hmem
      exact absurd hmem (hfailure cause)
  · cases hs

/-- Where a machine halts without applying a rule, the verdict has to be what it halted at. -/
theorem Truthful.of_stopped {cause : Error} (hrests : m.RestsAs m' (.stopped cause))
    (hupdate : .update ∈ notices) (hverdict : notices.filter (·.isVerdict) = [.failure cause]) :
    Truthful (some m) (some m') notices := by
  obtain ⟨hs, -⟩ | ⟨hs, hhalts⟩ := hrests.haltsBy
  · cases hs
  · cases hs
    have hfailure : ∀ {cause}, .failure cause ∈ notices ↔ cause = m'.obstacle := by
      intro cause
      rw [mem_iff_of_verdict hverdict rfl, Notice.failure.injEq]
    refine ⟨fun _ => hupdate, ?_, ?_, countP_le_of_verdict hverdict, ?_⟩
    · -- no rule was applied, and a machine halts in one way only
      constructor
      · intro hmem
        cases (mem_iff_of_verdict hverdict rfl).mp hmem
      · intro ⟨p, p', rule, hp, hp', _, hother⟩
        cases hp
        cases hp'
        cases (hhalts.unique hother).2
    · intro cause
      constructor
      · intro ⟨hmem, _⟩
        exact ⟨m, m', rfl, rfl, hhalts, hfailure.mp hmem⟩
      · intro ⟨p, p', hp, hp', _, hcause⟩
        cases hp
        cases hp'
        subst hcause
        exact ⟨hfailure.mpr rfl, m'.isObstacle_obstacle⟩
    · intro cause hmem
      rw [hfailure.mp hmem]
      exact .inl m'.isObstacle_obstacle

/-- What is told of a step is the truth. -/
theorem truthful_noticesOf {s : Step} (hlive : m.halted = false) (hstep : m.step = .ok (m', s)) :
    Truthful (some m) (some m') (Engine.noticesOf s) := by
  cases s with
  | moved => exact .of_live ((Machine.halted_step hstep).mpr rfl)
  | halted => exact .of_halted ⟨⟨0, m, rfl, hlive, hstep⟩, by simp⟩ (by simp [Engine.noticesOf]) rfl
  | stopped cause =>
    exact .of_stopped ⟨⟨0, m, rfl, hlive, hstep⟩, by simp⟩ (by simp [Engine.noticesOf]) rfl

/-! ## One change after another -/

/-- The second machine is what the first one becomes in some steps, or there is none. -/
def Onward : Option Machine → Option Machine → Prop
  | none, after => after = none
  | some m, after => ∃ n m', m.iterate n = .ok m' ∧ after = some m'

theorem Onward.refl (before : Option Machine) : Onward before before := by
  cases before with
  | none => rfl
  | some m => exact ⟨0, m, rfl, rfl⟩

theorem Onward.trans (h : Onward before middle) (h' : Onward middle after) :
    Onward before after := by
  cases before with
  | none =>
    cases h
    exact h'
  | some m =>
    obtain ⟨j, p, hp, rfl⟩ := h
    obtain ⟨k, q, hq, rfl⟩ := h'
    exact ⟨j + k, q, by rw [Machine.iterate_add hp, hq], rfl⟩

/-- The halt state is entered in two changes exactly if it is entered in one of them. -/
private theorem entersHalt_iff (h : Onward before middle) (h' : Onward middle after) :
    EntersHalt before after ↔ EntersHalt before middle ∨ EntersHalt middle after := by
  cases before with
  | none =>
    cases h
    cases h'
    simp [EntersHalt]
  | some m =>
    obtain ⟨j, p, hp, rfl⟩ := h
    obtain ⟨k, q, hq, rfl⟩ := h'
    simp [EntersHalt, Machine.haltsBy_iff_of_iterate hp hq, and_or_left, exists_or]

/-- So it is with a halt without a rule, and the machine still stands at the same obstacle. -/
private theorem haltsAt_iff {cause : Error} (h : Onward before middle) (h' : Onward middle after) :
    HaltsAt before after cause ↔ HaltsAt before middle cause ∨ HaltsAt middle after cause := by
  cases before with
  | none =>
    cases h
    cases h'
    simp [HaltsAt]
  | some m =>
    obtain ⟨j, p, hp, rfl⟩ := h
    obtain ⟨k, q, hq, rfl⟩ := h'
    have hsame : m.HaltsBy p none → q.obstacle = p.obstacle := by
      intro hhalts
      rw [hhalts.eq_of_iterate hq]
    simp only [HaltsAt, Option.some.injEq, exists_and_left, exists_eq_left',
      Machine.haltsBy_iff_of_iterate hp hq, or_and_right]
    apply or_congr_left
    apply and_congr_right
    intro hhalts
    rw [hsame hhalts]

/-- Whatever notice of a halt there is, it is true. -/
private theorem Truthful.haltsBy {notice : Notice} (h : Truthful before after notices)
    (hmem : notice ∈ notices) (htells : notice.tellsHalt = true) :
    ∃ m m' rule?, before = some m ∧ after = some m' ∧ m.HaltsBy m' rule? := by
  cases notice with
  | haltState =>
    obtain ⟨m, m', rule, hm, hm', -, hhalts⟩ := h.haltState.mp hmem
    exact ⟨m, m', some rule, hm, hm', hhalts⟩
  | failure cause =>
    obtain ⟨m, m', hm, hm', hhalts, -⟩ := (h.obstacle cause).mp ⟨hmem, htells⟩
    exact ⟨m, m', none, hm, hm', hhalts⟩
  | _ => cases htells

/-- What is told of two changes, one after the other, is the truth about both together. -/
theorem Truthful.append (h : Truthful before middle notices) (hon : Onward before middle)
    (h' : Truthful middle after more) (hon' : Onward middle after) :
    Truthful before after (notices ++ more) where
  update := by
    intro hne
    rw [List.mem_append]
    by_cases hmiddle : middle = before
    · subst hmiddle
      exact .inr (h'.update hne)
    · exact .inl (h.update hmiddle)
  haltState := by
    rw [List.mem_append, h.haltState, h'.haltState, entersHalt_iff hon hon']
  obstacle cause := by
    rw [List.mem_append, or_and_right, h.obstacle, h'.obstacle, haltsAt_iff hon hon']
  once := by
    rw [List.countP_append]
    -- a machine that halts in the first change cannot do so again in the second
    have hnot : ¬(0 < notices.countP (·.tellsHalt) ∧ 0 < more.countP (·.tellsHalt)) := by
      intro ⟨hfirst, hsecond⟩
      obtain ⟨notice, hmem, htells⟩ := List.countP_pos_iff.mp hfirst
      obtain ⟨notice', hmem', htells'⟩ := List.countP_pos_iff.mp hsecond
      obtain ⟨m, p, _, -, hp, hhalts⟩ := h.haltsBy hmem htells
      obtain ⟨p', q, _, hp', -, hhalts'⟩ := h'.haltsBy hmem' htells'
      cases hp.symm.trans hp'
      cases hhalts.halted.symm.trans hhalts'.live
    have := h.once
    have := h'.once
    omega
  aborted := by
    intro cause hmem
    rcases List.mem_append.mp hmem with hmem | hmem
    · exact h.aborted cause hmem
    · exact h'.aborted cause hmem

/-! ## Calls -/

namespace World

variable {w w' : World}

/-- Looking for an outcome tells the truth, and leads onward. -/
theorem Healthy.truthful_settle {job : Job} {result : Job × Option Outcome} (h : w.Healthy)
    (hactivity : w.engine.activity = .computing job)
    (hresult : result = (job, none) ∨
      ∃ j' outcome, result = (j', some outcome) ∧ job.Gives w.now outcome) :
    Truthful w.engine.machine (w.engine.settle result).engine.machine
        (w.engine.settle result).notices ∧
      Onward w.engine.machine (w.engine.settle result).engine.machine := by
  rcases hresult with rfl | ⟨j', outcome, rfl, hgives⟩
  · exact ⟨.of_eq rfl (by simp [Engine.settle, Engine.report]), .refl _⟩
  · cases outcome with
    | timedOut =>
      refine ⟨.of_eq rfl ?_, .refl _⟩
      simp [Engine.settle, Engine.finish, Engine.report, Notice.isVerdict]
    | aborted =>
      refine ⟨.of_eq rfl ?_, .refl _⟩
      simp [Engine.settle, Engine.finish, Engine.report]
    | finished s cause =>
      -- the machine of the engine has come to rest, and what is told is its last step
      obtain ⟨m, m', hm, hclean, rfl, hrests⟩ := h.restores hactivity hgives
      obtain ⟨n, hn⟩ := hrests.iterate
      simp only [Engine.settle, Engine.finish, hclean.tidy.restore_snapshot, Engine.report, hm]
      refine ⟨?_, n, m', hn, rfl⟩
      cases cause with
      | none => exact .of_halted hrests (by simp) rfl
      | some e => exact .of_stopped hrests (by simp) rfl

/-- A snapshot is taken over. -/
def takesSnapshot (w : World) : Occurrence → Bool
  | .call (.restore s) => w.accepts (.restore s)
  | _ => false

/-- A call tells the truth, unless it takes over a snapshot. -/
theorem Healthy.truthful_of_call {c : Call} {reply : Reply} (h : w.Healthy)
    (hsound : w.engine.Sound) (hcall : w.call c = .ok (w', reply))
    (htakes : w.takesSnapshot (.call c) = false) :
    Truthful w.engine.machine w'.engine.machine reply.notices := by
  have haccepts := accepts_of_call hcall
  obtain ⟨hperform, rfl⟩ := call_eq_ok hcall
  cases Engine.performs_of_perform hperform with
  | installed | reset => exact .of_live rfl
  | restored =>
    rw [takesSnapshot, haccepts] at htakes
    cases htakes
  | started hready hstep | stepped hready hstep =>
    obtain ⟨hmachine, -, hlive⟩ := Engine.ready_eq_ok hready
    rw [hmachine]
    exact truthful_noticesOf hlive hstep
  | ran _ hactivity _ hmachine hstep =>
    -- what is under way has not halted
    obtain ⟨m, hm, hlive⟩ := hsound.live (Engine.isRunning_of_activity hactivity (by simp))
    cases hmachine.symm.trans hm
    rw [hmachine]
    exact truthful_noticesOf hlive hstep
  | looked _ hactivity => exact (h.truthful_settle hactivity (Job.tryOutcome_cases _ _)).1
  | woke hactivity => exact (h.truthful_settle hactivity (Job.wake_cases _ _ _)).1
  | stopped hstop | obeyed _ hstop =>
    obtain ⟨rfl, ⟨-, rfl⟩ | ⟨-, rfl⟩⟩ := Engine.stop?_eq_some hstop
    · exact .of_eq rfl (by simp [Engine.done, Engine.report])
    · exact .of_eq rfl (by simp [Engine.done, Engine.report, Notice.isVerdict])
  | refused | computing | ignored | unready | slept | copied | delayed | requested | subscribed
  | unsubscribed => exact .of_eq rfl (by simp [Engine.refuse, Engine.done, Engine.report])

/-! ## Operations -/

/-- Every listener there can be has a number of its own. -/
theorem Reached.numbered (hw : w.Reached) : w.engine.listeners.Numbered := by
  induction hw with
  | new config => exact Listeners.numbered_empty
  | after _ h ih =>
    rename_i w w' o told _
    cases o with
    | call c =>
      obtain ⟨reply, hcall, -⟩ := call_of_after h
      obtain ⟨hperform, rfl⟩ := call_eq_ok hcall
      rcases (Engine.performs_of_perform hperform).listeners with
        hsame | ⟨-, ⟨kind, hlisteners⟩ | ⟨entry, hlisteners⟩⟩
      · rw [hsame]
        exact ih
      · rw [hlisteners]
        exact ih.subscribe kind
      · rw [hlisteners]
        exact ih.unsubscribe entry
    | work =>
      cases h
      unfold World.work Engine.work
      split <;> exact ih
    | elapse nanoseconds =>
      cases h
      exact ih

/-- What is told between two worlds is the truth, and every listener hears all of its kind. -/
def TellsTruth (w w' : World) (told : List Delivery) : Prop :=
  ∃ notices, Truthful w.engine.machine w'.engine.machine notices ∧
    told = w.engine.listeners.deliver notices ∧
    ∀ entry ∈ w.engine.listeners.live,
      heard entry.id told = notices.filter fun notice => notice.kind = entry.kind

/-- Notices that are true are the truth for the listeners. -/
theorem Reached.tellsTruth {notices : List Notice} {told : List Delivery} (hw : w.Reached)
    (htruthful : Truthful w.engine.machine w'.engine.machine notices)
    (htold : told = w.engine.listeners.deliver notices) : w.TellsTruth w' told := by
  subst htold
  exact ⟨notices, htruthful, rfl, fun entry hentry => hw.numbered.heard_deliver hentry notices⟩

/-- An occurrence tells the truth, unless it takes over a snapshot. -/
theorem Healthy.truthful_of_after {o : Occurrence} {told : List Delivery} (h : w.Healthy)
    (hw : w.Reached) (hafter : w.after o = .ok (w', told)) (htakes : w.takesSnapshot o = false) :
    ∃ notices, Truthful w.engine.machine w'.engine.machine notices ∧
      told = w.engine.listeners.deliver notices := by
  cases o with
  | call c =>
    obtain ⟨reply, hcall, rfl⟩ := call_of_after hafter
    refine ⟨reply.notices, h.truthful_of_call hw.sound hcall htakes, ?_⟩
    obtain ⟨hperform, rfl⟩ := call_eq_ok hcall
    unfold Reply.deliveries
    rcases (Engine.performs_of_perform hperform).listeners with hsame | ⟨hnone, -⟩
    · rw [hsame]
    · rw [hnone]
      rfl
  | work =>
    cases hafter
    refine ⟨[], .of_eq ?_ (by simp), rfl⟩
    unfold World.work Engine.work
    split <;> rfl
  | elapse nanoseconds =>
    cases hafter
    exact ⟨[], .of_eq rfl (by simp), rfl⟩

/-- Waiting leads onward and leaves the listeners. -/
theorem Healthy.onward_of_isWaiting {o : Occurrence} {told : List Delivery} (h : w.Healthy)
    (hafter : w.after o = .ok (w', told)) (hwaiting : o.isWaiting = true) :
    Onward w.engine.machine w'.engine.machine ∧ w'.engine.listeners = w.engine.listeners := by
  cases o with
  | call c =>
    obtain ⟨reply, hcall, rfl⟩ := call_of_after hafter
    obtain ⟨hperform, rfl⟩ := call_eq_ok hcall
    cases Engine.performs_of_perform hperform with
    | obeyed _ hstop =>
      obtain ⟨rfl, -⟩ := Engine.stop?_eq_some hstop
      exact ⟨.refl _, rfl⟩
    | ran _ _ _ hmachine hstep =>
      rw [hmachine]
      exact ⟨⟨1, _, Machine.iterate_succ (Machine.iterate_zero _) hstep, rfl⟩, rfl⟩
    | looked _ hactivity =>
      exact ⟨(h.truthful_settle hactivity (Job.tryOutcome_cases _ _)).2,
        Engine.listeners_settle _ _⟩
    | woke hactivity =>
      exact ⟨(h.truthful_settle hactivity (Job.wake_cases _ _ _)).2, Engine.listeners_settle _ _⟩
    | ignored | unready | slept => exact ⟨.refl _, rfl⟩
    | refused hrefusable => cases c <;> simp_all [Occurrence.isWaiting, Call.isRefusable]
    | _ => cases hwaiting
  | work =>
    cases hafter
    unfold World.work Engine.work
    split <;> exact ⟨.refl _, rfl⟩
  | elapse nanoseconds =>
    cases hafter
    exact ⟨.refl _, rfl⟩

/-- Waiting takes over no snapshot. -/
private theorem takesSnapshot_of_isWaiting {o : Occurrence} (h : o.isWaiting = true) :
    w.takesSnapshot o = false := by
  unfold Occurrence.isWaiting at h
  split at h
  · rfl
  · rfl
  · rfl
  · rfl
  · cases h

/-- An occurrence that takes over no snapshot keeps a world healthy. -/
private theorem Healthy.after_of_takesSnapshot {o : Occurrence} {told : List Delivery}
    (h : w.Healthy) (hafter : w.after o = .ok (w', told)) (htakes : w.takesSnapshot o = false) :
    w'.Healthy := by
  apply h.after hafter
  intro s ho haccepts
  subst ho
  cases htakes.symm.trans haccepts

/-- However long a host waits, the truth is told. -/
theorem Healthy.truthful_of_waiting {os : List Occurrence} {told : List Delivery} (h : w.Healthy)
    (hw : w.Reached) (hrun : w.run os = .ok (w', told)) (hwaiting : ∀ o ∈ os, o.isWaiting = true) :
    ∃ notices, Truthful w.engine.machine w'.engine.machine notices ∧
      Onward w.engine.machine w'.engine.machine ∧ told = w.engine.listeners.deliver notices := by
  -- by induction on the run; what is told of the first occurrence comes before the rest
  induction os generalizing w told with
  | nil =>
    cases hrun
    exact ⟨[], .of_eq rfl (by simp), .refl _, rfl⟩
  | cons o os ih =>
    have ho := hwaiting o List.mem_cons_self
    obtain ⟨w₁, told₁, told₂, hafter, hrest, rfl⟩ := run_cons_eq_ok hrun
    have htakes := takesSnapshot_of_isWaiting (w := w) ho
    obtain ⟨notices, htruthful, rfl⟩ := h.truthful_of_after hw hafter htakes
    obtain ⟨honward, hlisteners⟩ := h.onward_of_isWaiting hafter ho
    obtain ⟨more, hmore, honward', rfl⟩ := ih (h.after_of_takesSnapshot hafter htakes)
      (hw.after hafter) hrest fun o' ho' => hwaiting o' (List.mem_cons_of_mem o ho')
    refine ⟨notices ++ more, htruthful.append honward hmore honward', honward.trans honward', ?_⟩
    rw [hlisteners, Listeners.deliver_append]

/-- No snapshot is taken over in a run, so every program was installed. -/
def installsOnly (w : World) (os : List Occurrence) : Bool :=
  w.always (fun w o => !w.takesSnapshot o) os

/-- A run without snapshots keeps a world healthy. -/
theorem Healthy.run_of_installsOnly {os : List Occurrence} {told : List Delivery} (h : w.Healthy)
    (hrun : w.run os = .ok (w', told)) (hinstalls : w.installsOnly os = true) : w'.Healthy := by
  refine (run_induction (P := fun w os => w.Healthy ∧ w.installsOnly os = true) ?_
    ⟨h, hinstalls⟩ hrun).1
  intro w w' o os told ⟨hw, hcoming⟩ hafter
  obtain ⟨ho, hos⟩ := always_cons.mp hcoming
  exact ⟨hw.after_of_takesSnapshot hafter (by simpa using ho), hos w' told hafter⟩

/-- **Notices.** As long as programs are only installed, what the listeners hear is the truth: of
every occurrence, of everything that can happen while a host waits, and so of waiting as a whole. -/
theorem notices_truthful {config : Config} {os : List Occurrence} {told : List Delivery}
    (hrun : (new config).run os = .ok (w, told))
    (hinstalls : (new config).installsOnly os = true) :
    (∀ o w' told', w.after o = .ok (w', told') → w.takesSnapshot o = false →
      w.TellsTruth w' told') ∧
    (∀ os' w' told', (∀ o ∈ os', o.isWaiting = true) → w.run os' = .ok (w', told') →
      w.TellsTruth w' told') ∧
    ∀ pace rounds told₀ w', (w.wait pace rounds told₀).1 = .idle w' ∨
        (w.wait pace rounds told₀).1 = .unfinished w' →
      ∃ more : List Delivery, (w.wait pace rounds told₀).2 = told₀ ++ more ∧
        w.TellsTruth w' more := by
  have hreached : w.Reached := (Reached.new config).run hrun
  have hhealthy : w.Healthy := by
    refine Healthy.run_of_installsOnly (w := new config) ?_ hrun hinstalls
    exact .of_ne_computing (by rintro m ⟨⟩) (ne_computing_of_idle rfl)
  have hwaiting : ∀ os' w' told', (∀ o ∈ os', o.isWaiting = true) →
      w.run os' = .ok (w', told') → w.TellsTruth w' told' := by
    intro os' w' told' hos' hrun'
    obtain ⟨notices, htruthful, -, htold⟩ := hhealthy.truthful_of_waiting hreached hrun' hos'
    exact hreached.tellsTruth htruthful htold
  refine ⟨?_, hwaiting, ?_⟩
  · intro o w' told' hafter htakes
    obtain ⟨notices, htruthful, htold⟩ := hhealthy.truthful_of_after hreached hafter htakes
    exact hreached.tellsTruth htruthful htold
  · intro pace rounds told₀ w' hends
    obtain ⟨os', hos', hwaits⟩ := exists_waitsBy pace rounds w told₀
    rcases hends with hends | hends <;> rw [hends] at hwaits
    all_goals
      obtain ⟨more, hrun', htold⟩ := hwaits
      exact ⟨more, htold, hwaiting os' w' more hos' hrun'⟩

/-- Listeners are registered, a program is installed, and a continuous run begins with the first of
four steps. -/
def listening : List Occurrence :=
  [.call (.subscribe .haltState), .call (.subscribe .update), .call (.subscribe .failure),
    .call (.subscribe .haltState), .call (.install "1,a 2,b>\n2,a 1,b>\n2,_ H,c" "aaa" .origin),
    .call .start]

/-- The world in which the listeners are listening. -/
def attentive : World :=
  match (new .standard).run listening with
  | .ok (w, _) => w
  | .error _ => new .standard

/-- The host waits for the three steps that are left: both listeners for the halt state hear of it
once, the one for changes hears of three, and the one for failures hears nothing. -/
theorem notices_truthful_attentive :
    ∃ w' told, attentive.run [.elapse 100000000, .call .poll, .call .poll, .elapse 100000000,
        .call .poll, .elapse 100000000, .call .poll, .call .poll] = .ok (w', told) ∧
      attentive.TellsTruth w' told ∧ heard 1 told = [.haltState] ∧ heard 4 told = [.haltState] ∧
      heard 2 told = [.update, .update, .update] ∧ heard 3 told = [] := by
  have hrun : ((new .standard).run listening).map Prod.fst = .ok attentive := by decide +kernel
  have hinstalls : (new .standard).installsOnly listening = true := by decide +kernel
  generalize hwait : attentive.run [.elapse 100000000, .call .poll, .call .poll,
    .elapse 100000000, .call .poll, .elapse 100000000, .call .poll, .call .poll] = answer
  have hheard : answer.map (fun result => [1, 4, 2, 3].map fun id => heard id result.2) =
      .ok [[.haltState], [.haltState], [.update, .update, .update], []] := by
    subst hwait
    decide +kernel
  cases hbegin : (new .standard).run listening with
  | error fault =>
    rw [hbegin] at hrun
    cases hrun
  | ok result =>
    obtain ⟨w, told₀⟩ := result
    rw [hbegin] at hrun
    cases hrun
    cases answer with
    | error fault => cases hheard
    | ok result =>
      obtain ⟨w', told⟩ := result
      have htruth := (notices_truthful hbegin hinstalls).2.1 _ w' told (by decide) hwait
      simp only [Except.map, Except.ok.injEq, List.map_cons, List.map_nil, List.cons.injEq,
        and_true] at hheard
      obtain ⟨h₁, h₄, h₂, h₃⟩ := hheard
      exact ⟨w', told, rfl, htruth, h₁, h₄, h₂, h₃⟩

end World

end SingleTape
