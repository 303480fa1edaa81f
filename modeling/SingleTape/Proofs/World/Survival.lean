import SingleTape.Proofs.World.Preconditions
import SingleTape.Proofs.World.Schedule

/-!
# Machines that survive being copied

A computation works on a copy of the machine, and its result comes back as a copy.  Both times the
copy is checked like a snapshot from outside: its count of symbols has to be the one that its tape
holds.  A machine with a compiled program always passes.  A machine from a foreign snapshot passes
when it comes in, but it may come to count more symbols than there are later on; then no computation
can begin with it, and a result in which the count is off is discarded (`World.copies_fail`).

What the check of a snapshot would have to look at besides the count is little, and
`Snapshot.isClean` looks at it: the rules, the cells, and the room for the initial tape.

## Key results

- `Snapshot.clean_of_restore`: what the stricter check makes sure of
- `World.Healthy.after`: an occurrence keeps every machine in sight clean
- `World.copies_survive`: when computations can begin, and that their results are not discarded
-/

namespace SingleTape

/-! ## Clean machines -/

/-- A machine that counts exactly, now and after any steps and resets. -/
structure Machine.Clean (m : Machine) : Prop where
  tidy : m.Tidy
  tidy_start : (Machine.start m.program).Tidy

namespace Machine

variable {m m' : Machine}

theorem Clean.step {s : Step} (hm : m.Clean) (h : m.step = .ok (m', s)) : m'.Clean := by
  refine ⟨hm.tidy.step h, ?_⟩
  rw [program_step h]
  exact hm.tidy_start

theorem Clean.iterate {n : Nat} (hm : m.Clean) (h : m.iterate n = .ok m') : m'.Clean :=
  iterate_induction (P := Clean) (fun hstep hp => hp.step hstep) hm h

theorem Clean.reset (hm : m.Clean) : m.reset.Clean :=
  ⟨hm.tidy_start, hm.tidy_start⟩

/-- A machine does not come to a halt for a reason that has to do with snapshots. -/
theorem isOfSnapshot_of_step {cause : Error} (h : m.step = .ok (m', .stopped cause)) :
    cause.isOfSnapshot = false := by
  generalize hs : Step.stopped cause = s at h
  cases stepsTo_of_step h with
  | still =>
    cases hs
    rfl
  | noRule =>
    cases hs
    rfl
  | tapeEnd =>
    cases hs
    rfl
  | rule => split at hs <;> cases hs

end Machine

namespace Snapshot

/-- A stricter check than that of the count: no rule writes a space, no cell holds the blank mark,
and there is room for the initial tape. -/
def isClean (s : Snapshot) : Bool :=
  (s.program.table.rules.values.all fun rules =>
    rules.values.all fun rule => rule.write != Symbol.blank) &&
  (s.tape.cells.values.all fun c => c != Symbol.blankMark) &&
  Program.fits s.program.offset s.program.initialTape.length

/-- A machine that is restored from a clean snapshot is clean. -/
theorem clean_of_restore {s : Snapshot} {m : Machine} (h : s.restore = .ok m)
    (hclean : s.isClean = true) : m.Clean := by
  have hcount := Machine.countSymbols_of_restore h
  obtain rfl : s.machine = m := by
    unfold restore at h
    split at h
    · cases h
    · split at h
      · cases h
      · cases h
        rfl
  unfold isClean at hclean
  simp only [Bool.and_eq_true, List.all_eq_true, bne_iff_ne] at hclean
  obtain ⟨⟨hrules, hcells⟩, hfits⟩ := hclean
  have hwrites : ∀ q a rule, s.program.table.get? q a = some rule →
      rule.write ≠ Symbol.blank := by
    intro q a rule hrule
    obtain ⟨rules, hq, ha⟩ := Option.bind_eq_some_iff.mp hrule
    exact hrules rules (Std.ExtTreeMap.mem_values_of_getElem? hq) rule
      (Std.ExtTreeMap.mem_values_of_getElem? ha)
  -- a cell that was never written reads as a space, and a space is not the mark
  have hread : ∀ i, s.tape.read i ≠ Symbol.blankMark := by
    intro i
    unfold Tape.read
    cases hi : s.tape.cells[i]? with
    | none => decide
    | some c => exact hcells c (Std.ExtTreeMap.mem_values_of_getElem? hi)
  exact ⟨⟨hwrites, hread, hcount⟩, Program.tidy_start_of_fits hwrites hfits⟩

end Snapshot

/-! ## Healthy worlds -/

/-- The notice tells that the result of a computation was discarded. -/
def Notice.isDiscard : Notice → Bool
  | .failure cause => cause.isOfSnapshot
  | _ => false

/-- What is told of a step is not that a result was discarded. -/
theorem Engine.isDiscard_noticesOf {m m' : Machine} {s : Step} (h : m.step = .ok (m', s)) :
    ∀ notice ∈ Engine.noticesOf s, notice.isDiscard = false := by
  cases s with
  | moved => simp [noticesOf, Notice.isDiscard]
  | halted => simp [noticesOf, Notice.isDiscard]
  | stopped cause =>
    simp [noticesOf, Notice.isDiscard, Machine.isOfSnapshot_of_step h]

namespace World

/-- The machine of the engine is clean, and a worker was given that machine. -/
structure Healthy (w : World) : Prop where
  clean : ∀ m, w.engine.machine = some m → m.Clean
  serves : ∀ job, w.engine.activity = .computing job →
    ∃ m, w.engine.machine = some m ∧ job.Serves m w.now True

variable {w w' : World}

theorem Healthy.of_ne_computing (hclean : ∀ m, w.engine.machine = some m → m.Clean)
    (hactivity : ∀ job, w.engine.activity ≠ .computing job) : w.Healthy :=
  ⟨hclean, fun job hjob => absurd hjob (hactivity job)⟩

theorem Healthy.of_ne_computing_of_some {m : Machine} (hm : m.Clean)
    (hmachine : w.engine.machine = some m)
    (hactivity : ∀ job, w.engine.activity ≠ .computing job) : w.Healthy := by
  refine .of_ne_computing (fun p hp => ?_) hactivity
  cases hmachine.symm.trans hp
  exact hm

theorem Healthy.keep (h : w.Healthy) (hmachine : w'.engine.machine = w.engine.machine)
    (hactivity : w'.engine.activity = w.engine.activity) (hnow : w.now ≤ w'.now) :
    w'.Healthy := by
  refine ⟨fun m hm => h.clean m (hmachine ▸ hm), fun job hjob => ?_⟩
  obtain ⟨m, hm, hserves⟩ := h.serves job (hactivity ▸ hjob)
  exact ⟨m, hmachine.trans hm, hserves.mono hnow id⟩

/-- What the host finds with the worker of a healthy world can be taken over: it is the machine of
the engine, come to rest. -/
theorem Healthy.restores {job : Job} {s : Snapshot} {cause : Option Error} (h : w.Healthy)
    (hactivity : w.engine.activity = .computing job)
    (hgives : job.Gives w.now (.finished s cause)) :
    ∃ m m' : Machine, w.engine.machine = some m ∧ m'.Clean ∧ s = m'.snapshot ∧
      m.RestsAs m' (cause.elim .halted .stopped) := by
  obtain ⟨m, hm, hserves⟩ := h.serves job hactivity
  rcases hserves.reports hgives with hreports | ⟨hfinished, -⟩
  · cases hreports with
    | halted hrests | stopped hrests =>
      obtain ⟨n, hn⟩ := hrests.iterate
      exact ⟨m, _, hm, (h.clean m hm).iterate hn, rfl, hrests⟩
  · cases hfinished

/-- Looking for an outcome keeps a world healthy and discards nothing. -/
theorem Healthy.settle {job : Job} {result : Job × Option Outcome} (h : w.Healthy)
    (hactivity : w.engine.activity = .computing job)
    (hresult : result = (job, none) ∨
      ∃ j' outcome, result = (j', some outcome) ∧ job.Gives w.now outcome) :
    World.Healthy ⟨(w.engine.settle result).engine, w.now⟩ ∧
      ∀ notice ∈ (w.engine.settle result).notices, notice.isDiscard = false := by
  rcases hresult with rfl | ⟨j', outcome, rfl, hgives⟩
  · refine ⟨h.keep rfl hactivity.symm (Nat.le_refl _), ?_⟩
    simp [Engine.settle, Engine.report]
  · cases outcome with
    | timedOut =>
      refine ⟨.of_ne_computing h.clean (ne_computing_of_idle rfl), ?_⟩
      simp [Engine.settle, Engine.finish, Engine.report, Notice.isDiscard]
    | aborted =>
      refine ⟨.of_ne_computing h.clean (ne_computing_of_idle rfl), ?_⟩
      simp [Engine.settle, Engine.finish, Engine.report, Notice.isDiscard, Error.isOfSnapshot]
    | finished s cause =>
      obtain ⟨_, m, _, hm, rfl, hrests⟩ := h.restores hactivity hgives
      constructor
      · have hsettle := settle_finished w.engine j' cause hm.tidy
        refine .of_ne_computing_of_some hm ?_ (ne_computing_of_idle ?_) <;> rw [hsettle]
      · cases cause with
        | none =>
          simp [Engine.settle, Engine.finish, hm.tidy.restore_snapshot, Engine.report,
            Notice.isDiscard]
        | some e =>
          obtain ⟨_, _, _, _, hlast⟩ := hrests.last
          simp [Engine.settle, Engine.finish, hm.tidy.restore_snapshot, Engine.report,
            Notice.isDiscard, Machine.isOfSnapshot_of_step hlast]

/-- No call in a healthy world discards a result. -/
theorem Healthy.isDiscard_of_call {c : Call} {reply : Reply} (h : w.Healthy)
    (hcall : w.call c = .ok (w', reply)) : ∀ notice ∈ reply.notices, notice.isDiscard = false := by
  obtain ⟨hperform, -⟩ := call_eq_ok hcall
  cases Engine.performs_of_perform hperform with
  | started _ hstep | stepped _ hstep | ran _ _ _ _ hstep => exact Engine.isDiscard_noticesOf hstep
  | looked _ hactivity => exact (h.settle hactivity (Job.tryOutcome_cases _ _)).2
  | woke hactivity => exact (h.settle hactivity (Job.wake_cases _ _ _)).2
  | stopped hstop | obeyed _ hstop =>
    obtain ⟨rfl, ⟨-, rfl⟩ | ⟨-, rfl⟩⟩ := Engine.stop?_eq_some hstop <;>
      simp [Engine.done, Engine.report, Notice.isDiscard]
  | installed | restored | reset => simp [Engine.done, Notice.isDiscard]
  | refused | computing | ignored | unready | slept | copied | delayed | requested | subscribed
  | unsubscribed => simp [Engine.refuse, Engine.done, Engine.report]

/-- A call keeps a world healthy, unless it brings in a snapshot that is not clean. -/
theorem Healthy.call {c : Call} {reply : Reply} (h : w.Healthy)
    (hcall : w.call c = .ok (w', reply))
    (hclean : ∀ s, c = .restore s → w.accepts c = true → s.isClean = true) : w'.Healthy := by
  have haccepts := accepts_of_call hcall
  obtain ⟨hperform, rfl⟩ := call_eq_ok hcall
  cases Engine.performs_of_perform hperform with
  | installed hidle hcompile =>
    have hstart := Program.tidy_start hcompile
    exact .of_ne_computing_of_some ⟨hstart, hstart⟩ rfl (ne_computing_of_idle hidle)
  | restored hidle hrestore =>
    have hm := Snapshot.clean_of_restore hrestore (hclean _ rfl (haccepts.trans rfl))
    exact .of_ne_computing_of_some hm rfl (ne_computing_of_idle hidle)
  | reset hidle hmachine =>
    exact .of_ne_computing_of_some (h.clean _ hmachine).reset rfl (ne_computing_of_idle hidle)
  | started hready hstep =>
    obtain ⟨hmachine, -⟩ := Engine.ready_eq_ok hready
    exact .of_ne_computing_of_some ((h.clean _ hmachine).step hstep) rfl
      (planned_ne_computing _ _ _)
  | ran _ _ _ hmachine hstep =>
    exact .of_ne_computing_of_some ((h.clean _ hmachine).step hstep) rfl
      (planned_ne_computing _ _ _)
  | stepped hready hstep =>
    obtain ⟨hmachine, hidle, -⟩ := Engine.ready_eq_ok hready
    exact .of_ne_computing_of_some ((h.clean _ hmachine).step hstep) rfl
      (ne_computing_of_idle hidle)
  | computing hready hspawn =>
    -- the worker is given a copy, which is as clean as the machine
    rename_i m budget job
    obtain ⟨hmachine, -, hlive⟩ := Engine.ready_eq_ok hready
    have hm := h.clean m hmachine
    refine ⟨h.clean, ?_⟩
    rintro job' ⟨⟩
    exact ⟨m, hmachine, Job.serves_of_spawn hm.tidy.restore_snapshot hlive hspawn⟩
  | stopped hstop | obeyed _ hstop =>
    obtain ⟨rfl, -⟩ := Engine.stop?_eq_some hstop
    exact .of_ne_computing h.clean (ne_computing_of_idle rfl)
  | looked _ hactivity => exact (h.settle hactivity (Job.tryOutcome_cases _ _)).1
  | woke hactivity => exact (h.settle hactivity (Job.wake_cases _ _ _)).1
  | refused | ignored | unready | slept | copied | delayed | requested | subscribed
  | unsubscribed => exact h.keep rfl rfl (Nat.le_refl _)

/-- An occurrence keeps a world healthy, unless it brings in a snapshot that is not clean. -/
theorem Healthy.after {o : Occurrence} {told : List Delivery} (h : w.Healthy)
    (hafter : w.after o = .ok (w', told))
    (hclean : ∀ s, o = .call (.restore s) → w.accepts (.restore s) = true → s.isClean = true) :
    w'.Healthy := by
  cases o with
  | call c =>
    obtain ⟨reply, hcall, -⟩ := call_of_after hafter
    exact h.call hcall fun s hc haccepts => hclean s (congrArg _ hc) (hc ▸ haccepts)
  | elapse nanoseconds =>
    cases hafter
    exact h.keep rfl rfl (Nat.le_add_right _ _)
  | work =>
    cases hafter
    refine ⟨fun m hm => h.clean m ?_, fun job hjob => ?_⟩
    · unfold World.work Engine.work at hm
      split at hm <;> exact hm
    · simp only [World.work, Engine.work] at hjob ⊢
      split at hjob
      · rename_i job₀ hactivity
        cases hjob
        obtain ⟨m, hm, hserves⟩ := h.serves job₀ hactivity
        exact ⟨m, hm, hserves.act fun _ => trivial⟩
      · rename_i hactivity
        exact absurd hjob (hactivity job)

/-- A run keeps a world healthy if all snapshots that it brings in are clean. -/
theorem Healthy.run {os : List Occurrence} {told : List Delivery} (h : w.Healthy)
    (hrun : w.run os = .ok (w', told))
    (hclean : ∀ s, .call (.restore s) ∈ os → s.isClean = true) : w'.Healthy := by
  -- the snapshots that are still to come in are clean all along
  refine (run_induction
    (P := fun w os => w.Healthy ∧ ∀ s, .call (.restore s) ∈ os → s.isClean = true) ?_
    ⟨h, hclean⟩ hrun).1
  rintro w w' o os told ⟨hw, hcoming⟩ hafter
  constructor
  · exact hw.after hafter fun s ho _ => hcoming s (ho ▸ List.mem_cons_self)
  · exact fun s hs => hcoming s (List.mem_cons_of_mem o hs)

/-! ## Computations -/

/-- Where a step may be taken, a computation may begin if the machine counts exactly, and is refused
otherwise. -/
theorem call_compute {m : Machine} (hready : w.engine.ready = .ok m) (timeout : Option Nat) :
    if m.tape.countSymbols = m.symbols then w.accepts (.compute timeout) = true
    else w.RefusesFor (.compute timeout) (.miscountedSnapshot m.symbols m.tape.countSymbols) := by
  have hcopy : (w.engine.copy m).restore = m.snapshot.restore := rfl
  rw [Machine.restore_snapshot] at hcopy
  split <;> rename_i hcount
  · rw [if_pos hcount] at hcopy
    simp [accepts, World.call, Engine.perform, Engine.compute, hready, Job.spawn, hcopy,
      Engine.done]
  · rw [if_neg hcount] at hcopy
    simp [RefusesFor, World.call, Engine.perform, Engine.compute, hready, Job.spawn, hcopy,
      Engine.refuse]

/-- **Copies.** Whatever has occurred, where a step may be taken a computation is refused for its
copy exactly if the machine counts more symbols than there are.  If all snapshots that came in were
clean, this is never so: every machine is restored from its own copy, a computation may begin
wherever a step may be taken, and no result of a computation is discarded. -/
theorem copies_survive {config : Config} {os : List Occurrence} {told : List Delivery}
    (hrun : (new config).run os = .ok (w, told)) :
    (∀ m timeout, w.engine.ready = .ok m →
      ((∃ cause, cause.isOfSnapshot = true ∧ w.RefusesFor (.compute timeout) cause) ↔
        m.tape.countSymbols < m.symbols)) ∧
    ((∀ s, .call (.restore s) ∈ os → s.isClean = true) →
      (∀ m, w.engine.machine = some m → m.snapshot.restore = .ok m) ∧
      (∀ m timeout, w.engine.ready = .ok m → w.accepts (.compute timeout) = true) ∧
      ∀ c w' reply, w.call c = .ok (w', reply) →
        ∀ notice ∈ reply.notices, notice.isDiscard = false) := by
  constructor
  · -- a machine never counts fewer symbols than there are, so a wrong count is one too high
    intro m timeout hready
    have hmachine := (Engine.ready_eq_ok hready).1
    have hle := (((Reached.new config).run hrun).sound.reachable m hmachine).countSymbols_le
    have hcompute := call_compute hready timeout
    split at hcompute
    · -- the computation begins
      rename_i hcount
      constructor
      · rintro ⟨cause, -, hrefuses⟩
        rw [accepts_of_call hrefuses] at hcompute
        simp [Engine.refuse] at hcompute
      · omega
    · constructor
      · omega
      · intro _
        exact ⟨_, rfl, hcompute⟩
  · intro hclean
    have hhealthy : w.Healthy := by
      refine Healthy.run (w := new config) ?_ hrun hclean
      exact .of_ne_computing (by rintro m ⟨⟩) (ne_computing_of_idle rfl)
    refine ⟨fun m hmachine => (hhealthy.clean m hmachine).tidy.restore_snapshot,
      fun m timeout hready => ?_, fun c w' reply => hhealthy.isDiscard_of_call⟩
    have hmachine := (Engine.ready_eq_ok hready).1
    have hcompute := call_compute hready timeout
    rwa [if_pos (hhealthy.clean m hmachine).tidy.count_eq] at hcompute

/-- A snapshot of a machine that writes a character onto an empty cell and halts at the next. -/
def writing (c : Char) : Snapshot where
  state := .initial
  position := .origin
  transitions := 0
  symbols := 0
  lastDirection := .stay
  halted := false
  tape := .empty
  program := ⟨⟨((∅ : Std.ExtTreeMap StateId RuleMap).insert .initial
    ((∅ : RuleMap).insert Symbol.blankMark ⟨c, .right, ⟨"2"⟩⟩)).insert ⟨"2"⟩
    ((∅ : RuleMap).insert Symbol.blankMark ⟨Symbol.blankMark, .stay, .halt⟩)⟩, "", .origin⟩
  haltState := .halt
  initialState := .initial
  blank := Symbol.blankMark
  defaultTimeout := 10000

/-- The world after a snapshot was restored in a new engine and more has occurred. -/
def restoredWith (s : Snapshot) (os : List Occurrence) : World :=
  match (new .standard).run (.call (.restore s) :: os) with
  | .ok (w, _) => w
  | .error _ => new .standard

/-- A machine that writes a letter can be computed with after its first step. -/
theorem copies_survive_letter :
    (restoredWith (writing 'x') [.call .step]).accepts (.compute none) = true := by
  have hrun : (new .standard).run [.call (.restore (writing 'x')), .call .step] =
      .ok (restoredWith (writing 'x') [.call .step], []) := by decide +kernel
  have hclean : ∀ s, .call (.restore s) ∈ [Occurrence.call (.restore (writing 'x')), .call .step] →
      s.isClean = true := by
    intro s hs
    simp only [List.mem_cons, Occurrence.call.injEq, Call.restore.injEq, reduceCtorEq,
      List.not_mem_nil, or_self, or_false] at hs
    rw [hs]
    decide +kernel
  obtain ⟨-, hcompute, -⟩ := (copies_survive hrun).2 hclean
  cases hready : (restoredWith (writing 'x') [.call .step]).engine.ready with
  | ok m => exact hcompute m none hready
  | error cause =>
    have hok : (restoredWith (writing 'x') [.call .step]).engine.ready.toBool = true := by
      decide +kernel
    rw [hready] at hok
    cases hok

/-- **Copies can fail.** A machine that writes a space is restored without objection.  After its
first step it has not halted, but no computation can begin with it.  And if a computation begins
before that step, its result is discarded: the machine stays as it was and a failure is told. -/
theorem copies_fail :
    (writing ' ').restore = .ok (writing ' ').machine ∧
    (restoredWith (writing ' ') [.call .step]).engine.ready.toBool = true ∧
    (restoredWith (writing ' ') [.call .step]).RefusesFor (.compute none)
      (.miscountedSnapshot 1 0) ∧
    ∃ w' reply,
      (restoredWith (writing ' ') [.call (.compute none), .work, .work, .work, .work]).call .poll =
        .ok (w', reply) ∧
      reply.notices = [.failure (.miscountedSnapshot 1 0)] ∧
      w'.engine.machine = some (writing ' ').machine := by
  refine ⟨by decide +kernel, by decide +kernel, by unfold RefusesFor; decide +kernel, ?_⟩
  generalize hcall : World.call _ .poll = answer
  have hpoll : answer.map (fun r => (r.2.notices, r.1.engine.machine)) =
      .ok ([.failure (.miscountedSnapshot 1 0)], some (writing ' ').machine) := by
    subst hcall
    decide +kernel
  cases answer with
  | error fault => cases hpoll
  | ok r =>
    simp only [Except.map, Except.ok.injEq, Prod.mk.injEq] at hpoll
    exact ⟨r.1, r.2, rfl, hpoll.1, hpoll.2⟩

end World

end SingleTape
