import SingleTape.Proofs.Machine.Operations

/-!
# Machines from foreign snapshots

A machine is restored from any snapshot whose count of symbols is the one its tape holds.  That is
looked at once.  Nothing is said of the cells themselves, of the rules, of the initial tape or of
the state, so the machine may be one that no program text leads to: a cell may hold the blank mark,
a rule may write a space, and the initial tape may run past the last position.  Each of these makes
the machine count more symbols than there are.  None makes it count fewer, and so an erasing step
always has a symbol to take off the count.

Nor does the count grow without limit.  It grows by no more than one with a step that is counted, so
the counter of steps is nearly full before the count of symbols would need a word of more than 64
bits.

## Key results

- `Machine.Reachable.perform`: operations on a machine there can be lead to another
- `Machine.symbols_step`: an erasing step takes one off the count, and no other step does
- `Machine.symbols_lt_of_performAll`: how long the count stays within 64 bits
- `Machine.countSymbols_le_of_restore`: the count does not run out after any operations
-/

namespace SingleTape.Machine

/-- The next step takes a symbol off the count: the head reads a symbol, a rule applies that writes
the blank mark, and the head can move as the rule says. -/
def erases (m : Machine) : Bool :=
  !m.halted && m.symbol != Symbol.blankMark &&
    match m.program.table.get? m.state m.symbol with
    | none => false
    | some rule =>
      rule.write == Symbol.blankMark && (m.position.move? rule.direction.offset).isSome

/-! ## Erasing steps -/

theorem symbol_ne_of_erases {m : Machine} (h : m.erases = true) : m.symbol ≠ Symbol.blankMark := by
  unfold erases at h
  simp only [Bool.and_eq_true, bne_iff_ne] at h
  exact h.1.2

/-- An erasing step takes one off the count, and no other step takes anything off. -/
theorem symbols_step {m m' : Machine} {s : Step} (h : m.step = .ok (m', s)) :
    if m.erases = true then m'.symbols + 1 = m.symbols else m.symbols ≤ m'.symbols := by
  cases stepsTo_of_step h with
  | still hhalted => simp [erases, hhalted]
  | noRule hlive hrule => simp [erases, hrule, stop]
  | tapeEnd hlive hrule hmove => simp [erases, hrule, hmove, stop]
  | rule hlive hrule hmove hcount hroom =>
    have hexchange := recount_eq_ok hcount
    simp only [erases, hlive, hrule, hmove, Option.isSome_some, Bool.not_false, Bool.true_and,
      Bool.and_true, Bool.and_eq_true, bne_iff_ne, beq_iff_eq]
    unfold weight at hexchange
    split <;> rename_i herases
    · -- a symbol is exchanged for the blank mark
      rw [if_neg herases.1, if_pos herases.2] at hexchange
      omega
    · -- if a symbol is read, then one is written
      by_cases hread : m.symbol = Symbol.blankMark
      · rw [if_pos hread] at hexchange
        split at hexchange <;> omega
      · rw [if_neg hread, if_neg fun hwrite => herases ⟨hread, hwrite⟩] at hexchange
        omega

/-! ## Operations -/

/-- Operations on a machine there can be lead to another. -/
theorem Reachable.perform {m m' : Machine} {op : Operation} (h : m.perform op = .ok m')
    (hm : m.Reachable) : m'.Reachable :=
  perform_induction (P := Reachable) (fun hstep hp => hp.step hstep) (fun _ => .start _) hm h

/-- No operation finds the count of symbols spent. -/
theorem Reachable.fault_of_perform {m : Machine} {op : Operation} {fault : Fault}
    (hm : m.Reachable) (h : m.perform op = .error (.fault fault)) : fault = .transitionsFull := by
  obtain ⟨k, p, hiter, hstep⟩ := exists_step_of_perform_fault h
  -- the step that fails is taken by a machine there can be, like any other
  have hp := iterate_induction (P := Reachable) (fun hs hp => hp.step hs) hm hiter
  exact (hp.fault_eq hstep).1

/-- Any operations on a machine there can be lead to another, or fail where the counter of steps is
full, or stop at a copy that is refused. -/
theorem Reachable.performAll {m : Machine} (hm : m.Reachable) (ops : List Operation) :
    (∀ m', m.performAll ops = .ok m' → m'.Reachable) ∧
      ∀ fault, m.performAll ops = .error (.fault fault) → fault = .transitionsFull := by
  obtain ⟨hok, herror⟩ := performAll_induction (P := Reachable) Reachable.perform hm ops
  refine ⟨hok, ?_⟩
  intro fault h
  obtain ⟨p, op, hp, hop⟩ := herror (.fault fault) h
  exact hp.fault_of_perform hop

/-! ## The size of the count -/

/-- The machine counts no more symbols than `k` and the steps it has counted, and would begin anew
with no more than `k`. -/
structure CountsWithin (k : Nat) (m : Machine) : Prop where
  symbols_le : m.symbols ≤ k + m.transitions.toNat
  initialSymbols_le : m.program.initialSymbols ≤ k

/-- A step adds no more to the count of symbols than to the count of steps. -/
theorem CountsWithin.step {k : Nat} {m m' : Machine} {s : Step} (h : m.step = .ok (m', s))
    (hm : CountsWithin k m) : CountsWithin k m' := by
  have hle := hm.symbols_le
  have hinitial := hm.initialSymbols_le
  rw [← program_step h] at hinitial
  refine ⟨?_, hinitial⟩
  cases stepsTo_of_step h with
  | still | noRule | tapeEnd => exact hle
  | rule hlive hrule hmove hcount hroom =>
    rename_i rule _ symbols
    have hexchange := recount_eq_ok hcount
    -- only what is written is added to the count, and it is one symbol at most
    have hwrite : weight rule.write ≤ 1 := by
      unfold weight
      split <;> omega
    show symbols ≤ k + (m.transitions + 1).toNat
    rw [toNat_transitions_succ hroom]
    omega

/-- A machine that begins anew has counted no steps. -/
theorem CountsWithin.reset {k : Nat} {m : Machine} (hm : CountsWithin k m) :
    CountsWithin k m.reset := by
  constructor
  · show m.program.initialSymbols ≤ k + 0
    exact hm.initialSymbols_le
  · exact hm.initialSymbols_le

/-- **The size of the count.** The count of symbols needs no more than 64 bits as long as the
counter of steps has room for as many steps more as there are symbols to begin with. -/
theorem symbols_lt_of_performAll {m m' : Machine} {ops : List Operation} {k : Nat}
    (hsymbols : m.symbols ≤ k) (hinitial : m.program.initialSymbols ≤ k)
    (h : m.performAll ops = .ok m') (hroom : k + m'.transitions.toNat < UInt64.size) :
    m'.symbols < UInt64.size := by
  have hm : CountsWithin k m := ⟨Nat.le_add_right_of_le hsymbols, hinitial⟩
  have hperform : ∀ {p p' : Machine} {op : Operation}, p.perform op = .ok p' →
      CountsWithin k p → CountsWithin k p' := fun hop hp =>
    perform_induction CountsWithin.step CountsWithin.reset hp hop
  have hle := ((performAll_induction hperform hm ops).1 m' h).symbols_le
  omega

/-! ## The count of a restored machine -/

/-- **The count does not run out.** Whatever the snapshot from which a machine was restored, and
whatever was done with the machine since, it counts at least as many symbols as a scan of its tape
finds.  So where the next step takes a symbol off the count there is one to take, and the step takes
exactly that one.  A step can fail only if the counter of steps is full. -/
theorem countSymbols_le_of_restore {s : Snapshot} {m₀ : Machine} (hrestore : s.restore = .ok m₀)
    (ops : List Operation) :
    (∀ m, m₀.performAll ops = .ok m →
      m.tape.countSymbols ≤ m.symbols ∧
      (m.erases = true → 1 ≤ m.symbols) ∧
      (∀ m' r, m.step = .ok (m', r) →
        if m.erases = true then m'.symbols + 1 = m.symbols else m.symbols ≤ m'.symbols) ∧
      (m.transitions.toNat + 1 < UInt64.size → ∃ m' r, m.step = .ok (m', r))) ∧
    ∀ fault, m₀.performAll ops = .error (.fault fault) → fault = .transitionsFull := by
  obtain ⟨hreachable, hfault⟩ := (Reachable.restore hrestore).performAll ops
  refine ⟨fun m hm => ?_, hfault⟩
  have hm := hreachable m hm
  refine ⟨hm.countSymbols_le, fun herases => hm.one_le_symbols (symbol_ne_of_erases herases),
    fun m' r hstep => symbols_step hstep, fun hroom => ?_⟩
  cases hstep : m.step with
  | ok result => exact ⟨result.1, result.2, rfl⟩
  | error fault =>
    have hfull := (hm.fault_eq hstep).2
    omega

/-- A snapshot with everything that program text rules out.  One cell holds the blank mark and one
lies beyond every position, a rule writes a space, and of the initial tape only the first symbol has
room. -/
def strange : Snapshot where
  state := .initial
  position := .origin
  transitions := 0
  symbols := 3
  lastDirection := .stay
  halted := false
  tape := ((Tape.empty.write .origin Symbol.blankMark).writeCell 1 (by decide) 'a').writeCell
    0x8000000000000000 (by decide) 'b'
  program := ⟨⟨(∅ : Std.ExtTreeMap StateId RuleMap).insert .initial
    (((∅ : RuleMap).insert Symbol.blankMark ⟨Symbol.blank, .right, .initial⟩).insert 'a'
      ⟨Symbol.blankMark, .stay, .initial⟩)⟩, "aab", .last⟩
  haltState := .halt
  initialState := .initial
  blank := Symbol.blankMark
  defaultTimeout := 0

/-- The machine of that snapshot writes a space over the mark, which makes it count two symbols too
many, and is about to erase the symbol after it.  It does so again when it then begins anew on the
last position. -/
theorem countSymbols_le_of_restore_strange :
    (∃ m, strange.machine.performAll [.step] = .ok m ∧ m.erases = true ∧
      m.tape.countSymbols = 2 ∧ m.symbols = 4 ∧ 1 ≤ m.symbols) ∧
    ∃ m, strange.machine.performAll [.run 2, .reset] = .ok m ∧
      m.tape.countSymbols = 1 ∧ m.symbols = 3 ∧ m.tape.countSymbols ≤ m.symbols := by
  have hrestore : strange.restore = .ok strange.machine := by decide +kernel
  constructor
  · have hcounts : (strange.machine.performAll [.step]).map
        (fun m => (m.erases, m.tape.countSymbols, m.symbols)) = .ok (true, 2, 4) := by
      decide +kernel
    cases hm : strange.machine.performAll [.step] with
    | error failure =>
      rw [hm] at hcounts
      cases hcounts
    | ok m =>
      have hcount := (countSymbols_le_of_restore hrestore [.step]).1 m hm
      rw [hm] at hcounts
      simp only [Except.map, Except.ok.injEq, Prod.mk.injEq] at hcounts
      exact ⟨m, rfl, hcounts.1, hcounts.2.1, hcounts.2.2, hcount.2.1 hcounts.1⟩
  · have hcounts : (strange.machine.performAll [.run 2, .reset]).map
        (fun m => (m.tape.countSymbols, m.symbols)) = .ok (1, 3) := by decide +kernel
    cases hm : strange.machine.performAll [.run 2, .reset] with
    | error failure =>
      rw [hm] at hcounts
      cases hcounts
    | ok m =>
      have hcount := (countSymbols_le_of_restore hrestore [.run 2, .reset]).1 m hm
      rw [hm] at hcounts
      simp only [Except.map, Except.ok.injEq, Prod.mk.injEq] at hcounts
      exact ⟨m, rfl, hcounts.1, hcounts.2, hcount.1⟩

end SingleTape.Machine
