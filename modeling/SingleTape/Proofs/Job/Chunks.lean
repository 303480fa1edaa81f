import Mathlib.Control.Monad.Basic
import SingleTape.Program.Compile
import SingleTape.Proofs.Job.Progress

/-!
# Chunks

A worker makes its steps in chunks, between which it looks at the flag and at the clock.  Nothing of
this shows in its report.  A chunk is a bounded run, and runs add up: where one has spent its budget
the next one goes on, and where one has ended there is nothing left to do.  So the worker comes to the
result to which the machine comes step by step, however its steps are divided into chunks.

A chunk that ends with the very step by which the machine halts is no exception.  It says how the
machine halted and not that its budget is spent, since a run of one step or more says `moved` only of
a machine that has not halted (`Machine.run_eq_moved_iff`), and no further chunk is begun.

## Key results

- `Machine.run_eq_moved_iff`: when a run has spent its budget
- `Job.actsWith_round`: three actions of the worker come to one chunk
- `Job.mailbox_actsWith`: what the worker reports, and by which of its actions
- `Job.chunks_immaterial`: runs add up, and chunks of any size come to the same report
-/

namespace SingleTape

namespace Machine

variable {m p m' : Machine} {n : Nat} {s : Step} {rule : Rule}

/-! ## Applied rules -/

/-- The machine becomes `m'` by `n` rules that are applied one after another. -/
inductive Applies : Machine → Nat → Machine → Prop where
  | none (m : Machine) : Applies m 0 m
  | rule {m p m' : Machine} {n : Nat} {s : Step} {rule : Rule} (hrule : m.nextRule? = some rule)
      (hstep : m.step = .ok (p, s)) (h : Applies p n m') : Applies m (n + 1) m'

/-- Only a machine that has not halted applies a rule. -/
theorem live_of_nextRule? (h : m.nextRule? = some rule) : m.halted = false := by
  cases hhalted : m.halted with
  | false => rfl
  | true => simp [nextRule?, hhalted] at h

/-- A step that says `moved` applies a rule. -/
theorem exists_nextRule? (h : m.step = .ok (p, .moved)) : ∃ rule, m.nextRule? = some rule := by
  generalize hs : Step.moved = s at h
  cases stepsTo_of_step h with
  | still | noRule | tapeEnd => cases hs
  | rule hlive hrule hmove =>
    rename_i rule _ _ _ _
    exact ⟨rule, by simp [nextRule?, hlive, hrule, hmove]⟩

/-- A step that applies a rule is counted. -/
theorem transitions_of_nextRule? (hrule : m.nextRule? = some rule) (hstep : m.step = .ok (p, s)) :
    p.transitions.toNat = m.transitions.toNat + 1 := by
  have hlive := live_of_nextRule? hrule
  cases stepsTo_of_step hstep with
  | still hhalted => cases hlive.symm.trans hhalted
  | noRule _ hnone => simp [nextRule?, hlive, hnone] at hrule
  | tapeEnd _ hsome hmove => simp [nextRule?, hlive, hsome, Option.filter, hmove] at hrule
  | rule _ _ _ _ hroom => exact toNat_transitions_succ hroom

/-- As many steps are counted as rules are applied. -/
theorem Applies.transitions (h : m.Applies n m') :
    m'.transitions.toNat = m.transitions.toNat + n := by
  induction h with
  | none => rfl
  | rule hrule hstep _ ih =>
    have hcounted := transitions_of_nextRule? hrule hstep
    omega

/-- Rules that leave a machine which has not halted were applied to such a one. -/
theorem Applies.live (h : m.Applies n m') (hlive : m'.halted = false) : m.halted = false := by
  cases h with
  | none => exact hlive
  | rule hrule => exact live_of_nextRule? hrule

/-! ## Spent budgets -/

/-- A result after another one says `moved` only if both do. -/
theorem andThen_eq_moved_iff {result : Except Fault (Machine × Step)}
    {next : Machine → Except Fault (Machine × Step)} :
    andThen result next = .ok (m', .moved) ↔
      ∃ p, result = .ok (p, .moved) ∧ next p = .ok (m', .moved) := by
  unfold andThen
  split
  · simp
  · rename_i hne
    constructor
    · intro h
      exact absurd h (hne m')
    · intro h
      obtain ⟨p, hp, -⟩ := h
      exact absurd hp (hne p)

/-- **Spent budgets.** A run has spent its budget exactly if it has applied as many rules and, unless
it had nothing to spend, the machine has not halted. -/
theorem run_eq_moved_iff :
    m.run n = .ok (m', .moved) ↔ m.Applies n m' ∧ (0 < n → m'.halted = false) := by
  induction n generalizing m with
  | zero =>
    rw [run_zero]
    constructor
    · intro h
      cases h
      exact ⟨.none m', fun hlt => absurd hlt (Nat.lt_irrefl 0)⟩
    · intro h
      cases h.1
      rfl
  | succ n ih =>
    rw [run_succ, andThen_eq_moved_iff]
    constructor
    · intro h
      obtain ⟨p, hstep, hrest⟩ := h
      obtain ⟨rule, hrule⟩ := exists_nextRule? hstep
      obtain ⟨happlies, hlive⟩ := ih.mp hrest
      refine ⟨.rule hrule hstep happlies, fun _ => ?_⟩
      cases n with
      | zero =>
        cases happlies
        exact (halted_step hstep).mpr rfl
      | succ n => exact hlive (Nat.succ_pos n)
    · intro h
      obtain ⟨happlies, hlive⟩ := h
      cases happlies with
      | rule hrule hstep hrest =>
        -- a rule that leads to the halt state could only be the last one
        have hp := hrest.live (hlive (Nat.succ_pos n))
        obtain rfl := (halted_step hstep).mp hp
        exact ⟨_, hstep, ih.mpr ⟨hrest, fun _ => hlive (Nat.succ_pos n)⟩⟩

end Machine

namespace Job

variable {m m' : Machine} {n k deadline : Nat} {s : Step}

/-! ## A worker by itself -/

/-- The job after actions of the worker at the given times, with chunks of the given size. -/
def actsWith (size : Nat) (j : Job) (times : List Nat) : Job :=
  times.foldl (fun j now => j.actWith size now) j

theorem actsWith_cons (size : Nat) (j : Job) (now : Nat) (times : List Nat) :
    j.actsWith size (now :: times) = (j.actWith size now).actsWith size times := rfl

/-- **Rounds.** A worker that is in time looks at the flag and at the clock, and runs a chunk. -/
theorem actsWith_round {t₁ t₂ t₃ : Nat} (htime : t₂ < deadline) (times : List Nat) :
    (fresh m deadline).actsWith k (t₁ :: t₂ :: t₃ :: times) =
      (afterChunk ⟨m, .runChunk, none, false, deadline⟩ (m.run k)).actsWith k times := by
  have hexpired : ¬deadline ≤ t₂ := by omega
  simp [actsWith_cons, actWith, fresh, isExpired, hexpired]

/-- A worker that has sent its report leaves it where it is. -/
theorem mailbox_actsWith_of_sent {j : Job} (h : j.phase = .leave ∨ j.phase = .gone)
    (times : List Nat) : (j.actsWith k times).mailbox = j.mailbox := by
  induction times generalizing j with
  | nil => rfl
  | cons now times ih =>
    have hnext : (j.actWith k now).phase = .gone ∧ (j.actWith k now).mailbox = j.mailbox := by
      rcases h with h | h <;> simp [actWith, h]
    rw [actsWith_cons, ih (.inr hnext.1), hnext.2]

/-! ## The number of chunks -/

/-- How many chunks of a size it takes to make so many steps. -/
def chunksFor (size steps : Nat) : Nat :=
  (steps + size - 1) / size

theorem chunksFor_of_le (hn : 0 < n) (hle : n ≤ k) : chunksFor k n = 1 := by
  rw [chunksFor, Nat.div_eq_of_lt_le]
  · omega
  · omega

/-- Each chunk makes as many steps as it can. -/
theorem chunksFor_of_lt (hlt : k < n) (hk : 0 < k) : chunksFor k n = chunksFor k (n - k) + 1 := by
  have hsteps : n + k - 1 = n - k + k - 1 + k := by omega
  rw [chunksFor, chunksFor, hsteps, Nat.add_div_right _ hk]

theorem chunksFor_pos (hn : 0 < n) (hk : 0 < k) : 0 < chunksFor k n := by
  by_cases hle : n ≤ k
  · rw [chunksFor_of_le hn hle]
    exact Nat.one_pos
  · rw [chunksFor_of_lt (Nat.lt_of_not_le hle) hk]
    exact Nat.succ_pos _

/-! ## The report -/

/-- **Reports.** The report of a worker that is in time is how the machine ends, step by step.  It is
in the mailbox after three actions for each chunk and one more, and before there is nothing. -/
theorem mailbox_actsWith (h : m.EndsIn n m' s) (hk : 0 < k) {times : List Nat}
    (htimes : ∀ now ∈ times, now < deadline) :
    ((fresh m deadline).actsWith k times).mailbox =
      if times.length ≤ 3 * chunksFor k n then none else some (.ofHalt m' s) := by
  -- by induction on the steps that are left, of which a chunk takes off some
  induction n using Nat.strongRecOn generalizing m times with
  | ind n ih =>
    have hchunks := chunksFor_pos h.pos hk
    -- the first round takes three actions, and until it is over there is nothing to report
    rcases times with _ | ⟨t₁, _ | ⟨t₂, _ | ⟨t₃, times⟩⟩⟩
    · exact (if_pos (Nat.zero_le _)).symm
    · exact (if_pos (by simp only [List.length_cons, List.length_nil]; omega)).symm
    · exact (if_pos (by simp only [List.length_cons, List.length_nil]; omega)).symm
    · rw [actsWith_round (htimes t₂ (by simp))]
      by_cases hle : n ≤ k
      · -- the machine ends within this chunk, and the next action sends the report
        rw [h.run_of_le hle, afterChunk_of_ne_moved _ h.ne_moved, chunksFor_of_le h.pos hle]
        cases times with
        | nil => rfl
        | cons now times =>
          rw [actsWith_cons, mailbox_actsWith_of_sent (.inl rfl), if_neg (by simp)]
          rfl
      · -- the chunk is spent, and the worker is as fresh as at the beginning
        have hlt := Nat.lt_of_not_le hle
        obtain ⟨p, hrun, hp⟩ := h.exists_run_of_lt hlt
        rw [hrun]
        show ((fresh p deadline).actsWith k times).mailbox = _
        rw [ih (n - k) (by omega) hp fun now hnow => htimes now (by simp [hnow]),
          chunksFor_of_lt hlt hk]
        simp only [List.length_cons]
        congr 1
        rw [eq_iff_iff]
        omega

/-- **Chunks are immaterial.** A run is a run with a part of its budget, followed, if that part is
spent, by one with the rest.  With a budget of one step or more, a run has spent it exactly if it has
applied as many rules, each of which is counted, and the machine has not halted.  Every machine that
halts, or has halted, comes to an end step by step; and the worker reports the machine and the result
by which it ends, whatever the size of its chunks: in as many chunks as it takes to make those steps,
and not in one more if the last of them is full. -/
theorem chunks_immaterial :
    (∀ (m : Machine) (a b : Nat), m.run (a + b) = Machine.andThen (m.run a) (·.run b)) ∧
    (∀ (m m' : Machine) (n : Nat), 1 ≤ n →
      (m.run n = .ok (m', .moved) ↔ m.Applies n m' ∧ m'.halted = false)) ∧
    (∀ (m m' : Machine) (n : Nat), m.Applies n m' →
      m'.transitions.toNat = m.transitions.toNat + n) ∧
    (∀ (m m' : Machine) (i : Nat), m.iterate i = .ok m' → m'.halted = true →
      ∃ n s, m.EndsIn n m' s) ∧
    ∀ (m m' : Machine) (n : Nat) (s : Step), m.EndsIn n m' s → ∀ k, 1 ≤ k →
      ∀ (deadline : Nat) (times : List Nat), (∀ now ∈ times, now < deadline) →
        ((fresh m deadline).actsWith k times).mailbox =
          if times.length ≤ 3 * chunksFor k n then none else some (.ofHalt m' s) := by
  refine ⟨Machine.run_add_eq, fun m m' n hn => ?_, fun m m' n h => h.transitions,
    fun m m' i => Machine.exists_endsIn, fun m m' n s hends k hk deadline times htimes => ?_⟩
  · rw [Machine.run_eq_moved_iff]
    exact and_congr_right fun _ => ⟨fun hlive => hlive hn, fun hlive _ => hlive⟩
  · exact mailbox_actsWith hends hk htimes

/-- A program that erases the symbols to the right and halts on the first blank. -/
def wiper : Program :=
  match Program.compile "1,a 1,_,>\n1,_ H,_" "aaa" .origin with
  | .ok program => program
  | .error _ => ⟨.empty, "", .origin⟩

/-- That program after some steps. -/
def wiped (n : Nat) : Machine :=
  match (Machine.start wiper).iterate n with
  | .ok m => m
  | .error _ => .start wiper

/-- Four steps fill two chunks of two steps, so that the last chunk ends with the step by which the
machine halts: its report is sent by the seventh action, as it is with chunks of three steps, and with
whole chunks of four by the fourth.  A worker that is given the halted machine reports that it had
halted. -/
theorem chunks_immaterial_wiped :
    (wiped 0).EndsIn 4 (wiped 4) .halted ∧ (wiped 4).halted = true ∧
    (wiped 0).run 3 = .ok (wiped 3, .moved) ∧ (wiped 0).Applies 3 (wiped 3) ∧
    (wiped 3).transitions.toNat = (wiped 0).transitions.toNat + 3 ∧
    (wiped 0).run 4 = .ok (wiped 4, .halted) ∧
    (∀ k ∈ [2, 3], ∀ t, t < 9 →
      ((fresh (wiped 0) 9).actsWith k (List.replicate 6 t)).mailbox = none ∧
      ((fresh (wiped 0) 9).actsWith k (List.replicate 7 t)).mailbox =
        some (.finished (wiped 4).snapshot none)) ∧
    ((fresh (wiped 0) 9).actsWith 4 [0, 1, 2, 3]).mailbox =
      some (.finished (wiped 4).snapshot none) ∧
    (∃ n s, (wiped 4).EndsIn n (wiped 4) s) ∧
    ((fresh (wiped 4) 9).actsWith chunk [0, 1, 2, 3]).mailbox =
      some (.finished (wiped 4).snapshot (some .machineHalted)) := by
  obtain ⟨hadd, hspent, hcounted, hends, hreport⟩ := chunks_immaterial
  have hwiped : (wiped 0).EndsIn 4 (wiped 4) .halted :=
    .more (p := wiped 1) (by decide +kernel) (.more (p := wiped 2) (by decide +kernel)
      (.more (p := wiped 3) (by decide +kernel) (.last (by decide +kernel) (by simp))))
  have hhalted : (wiped 4).halted = true := by decide +kernel
  have hrun : (wiped 0).run 3 = .ok (wiped 3, .moved) := by decide +kernel
  obtain ⟨happlies, -⟩ := (hspent _ _ 3 (by decide)).mp hrun
  refine ⟨hwiped, hhalted, hrun, happlies, hcounted _ _ _ happlies, ?_, fun k hk t ht => ?_, ?_,
    hends (wiped 4) (wiped 4) 0 rfl hhalted, ?_⟩
  · have hlast : (wiped 3).run 1 = .ok (wiped 4, .halted) := by decide +kernel
    rw [hadd (wiped 0) 3 1, hrun]
    exact hlast
  · have hchunks : 1 ≤ k ∧ chunksFor k 4 = 2 := by
      simp only [List.mem_cons, List.not_mem_nil, or_false] at hk
      rcases hk with rfl | rfl <;> decide
    have htimes : ∀ count, ∀ now ∈ List.replicate count t, now < 9 := by
      intro count now hnow
      rwa [(List.mem_replicate.mp hnow).2]
    rw [hreport _ _ _ _ hwiped k hchunks.1 9 _ (htimes 6),
      hreport _ _ _ _ hwiped k hchunks.1 9 _ (htimes 7), hchunks.2]
    exact ⟨rfl, rfl⟩
  · rw [hreport _ _ _ _ hwiped 4 (by decide) 9 [0, 1, 2, 3] (by decide)]
    rfl
  · have hstill : (wiped 4).EndsIn 1 (wiped 4) (.stopped .machineHalted) :=
      .last (Machine.step_of_halted hhalted) (by simp)
    rw [hreport _ _ _ _ hstill chunk (by decide) 9 [0, 1, 2, 3] (by decide)]
    rfl

end Job

end SingleTape
