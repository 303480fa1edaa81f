import SingleTape.Proofs.Engine.Subscriptions

/-!
# One channel for each kind

A register can also be kept as six channels, one for each kind of notices, that share one counter of
64 bits.  A channel holds the numbers of its listeners.  A handle is taken back by looking for its
number in the channel of its kind alone, and whether it was there is told by the length of the
channel before and after.  As long as fewer listeners are registered than the counter can count,
both forms of a register answer alike.

What they answer is what the history of the register says: every answer is one about the
subscriptions that are in force.

## Key results

- `Listeners.channel_subscribe`, `Listeners.channel_unsubscribe`: an operation on one channel leaves
  the others alone
- `Listeners.HasChannels.perform`: both forms of a register answer alike, and go on doing so
- `Listeners.answers_in_force`: what a register answers after any history
-/

namespace SingleTape

/-- A register kept as channels of the numbers of the listeners. -/
structure Channels where
  /-- The number of the latest listener; listeners are counted from one. -/
  lastId : UInt64
  /-- The listeners for the halt state. -/
  haltState : List UInt64
  /-- The listeners for updates. -/
  update : List UInt64
  /-- The listeners for computations that are done. -/
  computeDone : List UInt64
  /-- The listeners for computations that were interrupted. -/
  computeInterrupted : List UInt64
  /-- The listeners for computations that ran out of time. -/
  computeTimedOut : List UInt64
  /-- The listeners for failures, which are told the cause. -/
  failure : List UInt64

namespace Channels

open Listeners

/-- The channels without any listener. -/
def empty : Channels := ⟨0, [], [], [], [], [], []⟩

/-- The channel for a kind of notices. -/
def channel (c : Channels) : NoticeKind → List UInt64
  | .haltState => c.haltState
  | .update => c.update
  | .computeDone => c.computeDone
  | .computeInterrupted => c.computeInterrupted
  | .computeTimedOut => c.computeTimedOut
  | .failure => c.failure

/-- The channels with another one for a kind of notices. -/
def withChannel (c : Channels) (ids : List UInt64) : NoticeKind → Channels
  | .haltState => { c with haltState := ids }
  | .update => { c with update := ids }
  | .computeDone => { c with computeDone := ids }
  | .computeInterrupted => { c with computeInterrupted := ids }
  | .computeTimedOut => { c with computeTimedOut := ids }
  | .failure => { c with failure := ids }

/-- Registers a listener for a kind of notices. -/
def subscribe (c : Channels) (kind : NoticeKind) : Channels × Subscription :=
  let id := c.lastId + 1
  ({ c with lastId := id }.withChannel (c.channel kind ++ [id]) kind, ⟨kind, id.toNat⟩)

/-- Takes a listener off its channel and tells whether the channel is shorter then. -/
def unsubscribe (c : Channels) (entry : Subscription) : Channels × Bool :=
  let kept := (c.channel entry.kind).filter fun id => id.toNat ≠ entry.id
  (c.withChannel kept entry.kind, kept.length ≠ (c.channel entry.kind).length)

/-- The number of listeners for a kind of notices. -/
def count (c : Channels) (kind : NoticeKind) : Nat :=
  (c.channel kind).length

/-- Gives a notice to the listeners on its channel. -/
def deliver (c : Channels) (notice : Notice) : List Delivery :=
  (c.channel notice.kind).map fun id => ⟨id.toNat, notice⟩

/-- Performs an operation. -/
def perform (c : Channels) : Operation → Channels × Listeners.Answer
  | .subscribe kind => ((c.subscribe kind).1, .handle (c.subscribe kind).2)
  | .unsubscribe entry => ((c.unsubscribe entry).1, .removed (c.unsubscribe entry).2)
  | .emit notice => (c, .told (c.deliver notice))

/-- Performs one operation after the other. -/
def performAll (c : Channels) : List Operation → Channels
  | [] => c
  | op :: ops => (c.perform op).1.performAll ops

/-- The operations with the answers to them. -/
def history (c : Channels) : List Operation → List Entry
  | [] => []
  | op :: ops => ⟨op, (c.perform op).2⟩ :: (c.perform op).1.history ops

@[simp] theorem channel_withChannel (c : Channels) (ids : List UInt64) (kind other : NoticeKind) :
    (c.withChannel ids kind).channel other = if other = kind then ids else c.channel other := by
  cases kind <;> cases other <;> rfl

@[simp] theorem lastId_withChannel (c : Channels) (ids : List UInt64) (kind : NoticeKind) :
    (c.withChannel ids kind).lastId = c.lastId := by
  cases kind <;> rfl

end Channels

namespace Listeners

variable {ls : Listeners} {c : Channels}

/-! ## The channels of a register -/

/-- The numbers of the listeners for a kind of notices, in order. -/
def channel (ls : Listeners) (kind : NoticeKind) : List Nat :=
  (ls.live.filter fun entry => entry.kind = kind).map (·.id)

theorem mem_channel {kind : NoticeKind} {id : Nat} :
    id ∈ ls.channel kind ↔ ⟨kind, id⟩ ∈ ls.live := by
  simp only [channel, List.mem_map, List.mem_filter, decide_eq_true_eq]
  constructor
  · rintro ⟨⟨kind, id⟩, ⟨hmem, rfl⟩, rfl⟩
    exact hmem
  · intro hmem
    exact ⟨_, ⟨hmem, rfl⟩, rfl⟩

theorem length_channel (ls : Listeners) (kind : NoticeKind) :
    (ls.channel kind).length = ls.count kind := by
  rw [channel, List.length_map, count, List.countP_eq_length_filter]

theorem channel_subscribe (ls : Listeners) (kind other : NoticeKind) :
    (ls.subscribe kind).1.channel other =
      if other = kind then ls.channel other ++ [ls.lastId + 1] else ls.channel other := by
  simp only [subscribe, channel, List.filter_append, List.map_append]
  by_cases hkind : other = kind
  · simp [hkind]
  · simp [hkind, Ne.symm hkind]

theorem channel_unsubscribe (ls : Listeners) (entry : Subscription) (kind : NoticeKind) :
    (ls.unsubscribe entry).1.channel kind =
      if kind = entry.kind then (ls.channel kind).filter (· ≠ entry.id) else ls.channel kind := by
  obtain ⟨kind', id'⟩ := entry
  simp only [unsubscribe, channel, List.filter_filter]
  split
  · -- within its kind a listener is told by its number
    rename_i hkind
    subst hkind
    rw [List.filter_map, List.filter_filter]
    congr 1
    apply List.filter_congr
    rintro ⟨kind'', id''⟩ -
    by_cases h : kind'' = kind <;> simp [h]
  · -- and a listener of another kind is not the one
    rename_i hkind
    congr 1
    apply List.filter_congr
    rintro ⟨kind'', id''⟩ -
    by_cases h : kind'' = kind
    · simp [h, hkind]
    · simp [h]

/-! ## Both forms of a register -/

/-- The register and the channels hold the same listeners. -/
structure HasChannels (ls : Listeners) (c : Channels) : Prop where
  lastId_eq : c.lastId.toNat = ls.lastId
  channel_eq : ∀ kind, (c.channel kind).map UInt64.toNat = ls.channel kind

theorem hasChannels_empty : empty.HasChannels .empty := by
  refine ⟨rfl, fun kind => ?_⟩
  cases kind <;> rfl

theorem HasChannels.count (h : ls.HasChannels c) (kind : NoticeKind) :
    c.count kind = ls.count kind := by
  rw [Channels.count, ← length_channel, ← h.channel_eq, List.length_map]

theorem HasChannels.subscribe (h : ls.HasChannels c) (kind : NoticeKind)
    (hlt : ls.lastId + 1 < UInt64.size) :
    (c.subscribe kind).2 = (ls.subscribe kind).2 ∧
      (ls.subscribe kind).1.HasChannels (c.subscribe kind).1 := by
  have hlast : (c.lastId + 1).toNat = ls.lastId + 1 := by
    rw [UInt64.toNat_add, h.lastId_eq]
    exact Nat.mod_eq_of_lt hlt
  refine ⟨?_, ?_, fun other => ?_⟩
  · rw [Channels.subscribe, Listeners.subscribe, hlast]
  · rw [Channels.subscribe, Channels.lastId_withChannel]
    exact hlast
  · rw [channel_subscribe, ← h.channel_eq, ← hlast, Channels.subscribe,
      Channels.channel_withChannel]
    split
    · rename_i hkind
      rw [hkind, List.map_append, List.map_singleton]
    · rfl

/-- The channel is shorter exactly if the listener was on it. -/
theorem HasChannels.unsubscribe (h : ls.HasChannels c) (entry : Subscription) :
    (c.unsubscribe entry).2 = (ls.unsubscribe entry).2 ∧
      (ls.unsubscribe entry).1.HasChannels (c.unsubscribe entry).1 := by
  have hkept : ((c.channel entry.kind).filter fun id => id.toNat ≠ entry.id).map UInt64.toNat =
      (ls.channel entry.kind).filter (· ≠ entry.id) := by
    rw [← h.channel_eq, List.filter_map]
    rfl
  refine ⟨?_, ?_, fun kind => ?_⟩
  · rw [Channels.unsubscribe, Listeners.unsubscribe, decide_eq_decide]
    -- a filter shortens a list exactly if it drops something
    have hbefore := congrArg List.length (h.channel_eq entry.kind)
    have hafter := congrArg List.length hkept
    rw [List.length_map] at hbefore hafter
    rw [hbefore, hafter, ne_eq, List.length_filter_eq_length_iff, ← mem_channel]
    simp
  · rw [Channels.unsubscribe, Channels.lastId_withChannel]
    exact h.lastId_eq
  · rw [channel_unsubscribe, Channels.unsubscribe, Channels.channel_withChannel]
    split
    · rename_i hkind
      rw [hkind]
      exact hkept
    · exact h.channel_eq kind

theorem HasChannels.deliver (h : ls.HasChannels c) (notice : Notice) :
    c.deliver notice = ls.deliver [notice] := by
  have hrecipients : ls.recipients notice = (c.channel notice.kind).map UInt64.toNat :=
    (h.channel_eq notice.kind).symm
  simp [Channels.deliver, Listeners.deliver, hrecipients]

/-- Both forms of a register answer alike and go on doing so, unless the counter is at its end. -/
theorem HasChannels.perform (h : ls.HasChannels c) (op : Operation)
    (hlt : (ls.perform op).1.lastId < UInt64.size) :
    (c.perform op).2 = (ls.perform op).2 ∧ (ls.perform op).1.HasChannels (c.perform op).1 := by
  cases op with
  | subscribe kind => exact (h.subscribe kind hlt).imp_left (congrArg Answer.handle)
  | unsubscribe entry => exact (h.unsubscribe entry).imp_left (congrArg Answer.removed)
  | emit notice => exact ⟨congrArg Answer.told (h.deliver notice), h⟩

/-- Both forms of a register have the same history, as long as the counter goes. -/
theorem HasChannels.performAll (h : ls.HasChannels c) (ops : List Operation)
    (hlt : (ls.performAll ops).lastId < UInt64.size) :
    c.history ops = ls.history ops ∧ (ls.performAll ops).HasChannels (c.performAll ops) := by
  induction ops generalizing ls c with
  | nil => exact ⟨rfl, h⟩
  | cons op ops ih =>
    rw [Listeners.performAll] at hlt
    have hfirst : (ls.perform op).1.lastId < UInt64.size := by
      rw [lastId_performAll] at hlt
      omega
    obtain ⟨hanswer, hnext⟩ := h.perform op hfirst
    obtain ⟨hhistory, hlast⟩ := ih hnext hlt
    refine ⟨?_, hlast⟩
    rw [Channels.history, Listeners.history, hanswer, hhistory]

/-! ## The answers -/

/-- **Subscriptions.** After any history, a new listener is given a number that nobody had before.  A
notice goes to those listeners of its kind that were registered and not taken off since, to each of
them once and in the order of registration.  A handle is found exactly if its listener is still
registered, and only that one is taken off.  The listeners that are counted for a kind are those that
are still registered for it.  And with fewer listeners than 64 bits can count, a register that is
kept as channels answers the same throughout. -/
theorem answers_in_force (ops : List Operation) :
    ((issued (empty.history ops)).map (·.id)).Nodup ∧
    (inForce (empty.history ops)).Sublist (issued (empty.history ops)) ∧
    (∀ kind, ∃ id, ((empty.performAll ops).perform (.subscribe kind)).2 = .handle ⟨kind, id⟩ ∧
      id ∉ (issued (empty.history ops)).map (·.id)) ∧
    (∀ notice, ((empty.performAll ops).perform (.emit notice)).2 =
      .told (((inForce (empty.history ops)).filter fun entry => entry.kind = notice.kind).map
        fun entry => ⟨entry.id, notice⟩)) ∧
    (∀ entry, ((empty.performAll ops).perform (.unsubscribe entry)).2 =
        .removed (entry ∈ inForce (empty.history ops)) ∧
      inForce (empty.history (ops ++ [.unsubscribe entry])) =
        (inForce (empty.history ops)).erase entry) ∧
    (∀ kind, (empty.performAll ops).count kind =
      (inForce (empty.history ops)).countP fun entry => entry.kind = kind) ∧
    (ops.countP Operation.isSubscribe < UInt64.size →
      Channels.empty.history ops = empty.history ops ∧
      ∀ kind, (Channels.empty.performAll ops).count kind = (empty.performAll ops).count kind) := by
  have hfollows : (empty.performAll ops).Follows (empty.history ops) := follows_empty.performAll ops
  refine ⟨hfollows.nodup_ids, inForce_sublist _, fun kind => ?_, fun notice => ?_, fun entry => ?_,
    fun kind => ?_, fun hlt => ?_⟩
  · refine ⟨(empty.performAll ops).lastId + 1, rfl, ?_⟩
    rw [hfollows.ids_eq, List.mem_range'_1]
    omega
  · exact congrArg Answer.told (hfollows.deliver notice)
  · constructor
    · rw [← hfollows.live_eq]
      rfl
    · rw [history_append, inForce_append, hfollows.nodup_inForce.erase_eq_filter]
      show (inForce (empty.history ops)).filter _ ++ [] = _
      rw [List.append_nil]
      apply List.filter_congr
      simp [bne, Bool.beq_eq_decide_eq, eq_comm]
  · rw [← hfollows.live_eq]
    rfl
  · rw [← Nat.zero_add (ops.countP Operation.isSubscribe)] at hlt
    obtain ⟨hhistory, hlast⟩ := hasChannels_empty.performAll ops
      (by rw [lastId_performAll]; exact hlt)
    exact ⟨hhistory, hlast.count⟩

/-- Three listeners, one of which is taken off twice. -/
def session : List Operation :=
  [.subscribe .update, .subscribe .failure, .subscribe .failure, .unsubscribe ⟨.failure, 2⟩,
    .unsubscribe ⟨.failure, 2⟩]

/-- The other listener for failures is told of one, and is not found under another kind. -/
theorem answers_in_force_session :
    session.countP Operation.isSubscribe < UInt64.size ∧
    Channels.empty.history session = empty.history session ∧
    inForce (empty.history session) = [⟨.update, 1⟩, ⟨.failure, 3⟩] ∧
    ((empty.performAll session).perform (.emit (.failure .machineHalted))).2 =
      .told [⟨3, .failure .machineHalted⟩] ∧
    ((empty.performAll session).perform (.unsubscribe ⟨.update, 3⟩)).2 = .removed false ∧
    (empty.performAll session).count .failure = 1 := by
  obtain ⟨-, -, -, htold, hremoved, hcount, hchannels⟩ := answers_in_force session
  have hlt : session.countP Operation.isSubscribe < UInt64.size := by decide
  exact ⟨hlt, (hchannels hlt).1, by decide, htold _, (hremoved _).1, hcount _⟩

end Listeners

end SingleTape
