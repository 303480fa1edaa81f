import SingleTape.Proofs.Engine.Listeners

/-!
# The register and its history

What a register of listeners holds can be read off what was done with it and what it answered: a
subscription is in force from the answer that hands it out until it is handed back.  `inForce` says
this of a history and knows nothing of a register; a handle may be handed back as often as anyone
likes, and handles that nobody was given may be handed back as well.

`Listeners.Follows` says that a register holds what is in force, and every operation keeps it.

## Key results

- `Listeners.inForce_append`: how one more operation changes what is in force
- `Listeners.Follows.perform`, `Listeners.Follows.performAll`: a register follows its history
- `Listeners.Follows.nodup_ids`: no two handles have one number
-/

namespace SingleTape.Listeners

/-- What can be done with a register. -/
inductive Operation where
  /-- A listener is registered. -/
  | subscribe (kind : NoticeKind)
  /-- A handle is handed back. -/
  | unsubscribe (entry : Subscription)
  /-- A notice is given. -/
  | emit (notice : Notice)
deriving DecidableEq

/-- The operation registers a listener. -/
def Operation.isSubscribe : Operation → Bool
  | subscribe _ => true
  | _ => false

/-- What is answered to an operation. -/
inductive Answer where
  /-- The handle of the new listener. -/
  | handle (entry : Subscription)
  /-- Whether the listener was registered. -/
  | removed (found : Bool)
  /-- Who is given the notice, in this order. -/
  | told (deliveries : List Delivery)
deriving DecidableEq

/-- An operation that was performed, with the answer to it. -/
structure Entry where
  /-- The operation. -/
  operation : Operation
  /-- The answer. -/
  answer : Answer
deriving DecidableEq

/-- Performs an operation. -/
def perform (ls : Listeners) : Operation → Listeners × Answer
  | .subscribe kind => ((ls.subscribe kind).1, .handle (ls.subscribe kind).2)
  | .unsubscribe entry => ((ls.unsubscribe entry).1, .removed (ls.unsubscribe entry).2)
  | .emit notice => (ls, .told (ls.deliver [notice]))

/-- Performs one operation after the other. -/
def performAll (ls : Listeners) : List Operation → Listeners
  | [] => ls
  | op :: ops => (ls.perform op).1.performAll ops

/-- The operations with the answers to them. -/
def history (ls : Listeners) : List Operation → List Entry
  | [] => []
  | op :: ops => ⟨op, (ls.perform op).2⟩ :: (ls.perform op).1.history ops

/-! ## Histories -/

/-- The handles that were handed out, in this order. -/
def issued : List Entry → List Subscription
  | [] => []
  | ⟨_, .handle entry⟩ :: later => entry :: issued later
  | _ :: later => issued later

/-- The handle is handed back. -/
def IsReturned (entry : Subscription) (past : List Entry) : Prop :=
  .unsubscribe entry ∈ past.map Entry.operation

instance (entry : Subscription) (past : List Entry) : Decidable (IsReturned entry past) :=
  inferInstanceAs (Decidable (_ ∈ _))

/-- The subscriptions that were handed out and not handed back since, in the order in which they
were handed out. -/
def inForce : List Entry → List Subscription
  | [] => []
  | ⟨_, .handle entry⟩ :: later =>
    if IsReturned entry later then inForce later else entry :: inForce later
  | _ :: later => inForce later

variable {ls : Listeners} {past : List Entry}

theorem isReturned_append {entry : Subscription} {e : Entry} :
    IsReturned entry (past ++ [e]) ↔ IsReturned entry past ∨ e.operation = .unsubscribe entry := by
  simp [IsReturned, eq_comm]

theorem issued_append (past : List Entry) (e : Entry) :
    issued (past ++ [e]) = issued past ++ issued [e] := by
  induction past with
  | nil => rfl
  | cons first later ih =>
    obtain ⟨op, answer⟩ := first
    cases answer with
    | handle entry => rw [List.cons_append, issued, issued, ih, List.cons_append]
    | removed found => exact ih
    | told deliveries => exact ih

/-- One more operation takes the handle out of force that it hands back, and puts the one into
force that it is answered with. -/
theorem inForce_append (past : List Entry) (e : Entry) :
    inForce (past ++ [e]) =
      (inForce past).filter (fun entry => e.operation ≠ .unsubscribe entry) ++ issued [e] := by
  induction past with
  | nil =>
    obtain ⟨op, answer⟩ := e
    cases answer <;> rfl
  | cons first later ih =>
    obtain ⟨op, answer⟩ := first
    cases answer with
    | handle entry =>
      rw [List.cons_append, inForce, inForce, ih]
      -- handed back later, handed back by this operation, or neither
      by_cases hlater : IsReturned entry later
      · rw [if_pos (isReturned_append.mpr (.inl hlater)), if_pos hlater]
      · by_cases hnow : e.operation = .unsubscribe entry
        · rw [if_pos (isReturned_append.mpr (.inr hnow)), if_neg hlater,
            List.filter_cons_of_neg (by simp [hnow])]
        · have hneither : ¬IsReturned entry (later ++ [e]) := by
            rw [isReturned_append]
            exact fun h => h.elim hlater hnow
          rw [if_neg hneither, if_neg hlater, List.filter_cons_of_pos (by simp [hnow]),
            List.cons_append]
    | removed found => exact ih
    | told deliveries => exact ih

/-- What is in force was handed out. -/
theorem inForce_sublist (past : List Entry) : (inForce past).Sublist (issued past) := by
  induction past with
  | nil => exact .slnil
  | cons first later ih =>
    obtain ⟨op, answer⟩ := first
    cases answer with
    | handle entry =>
      rw [inForce, issued]
      split
      · exact ih.cons _
      · exact ih.cons_cons _
    | removed found => exact ih
    | told deliveries => exact ih

/-! ## Following a history -/

/-- The register holds what is in force, and handed out its numbers one after the other. -/
structure Follows (ls : Listeners) (past : List Entry) : Prop where
  live_eq : ls.live = inForce past
  ids_eq : (issued past).map (·.id) = List.range' 1 ls.lastId

theorem follows_empty : empty.Follows [] :=
  ⟨rfl, rfl⟩

/-- An operation is followed by one more entry of the history. -/
theorem Follows.perform (h : ls.Follows past) (op : Operation) :
    (ls.perform op).1.Follows (past ++ [⟨op, (ls.perform op).2⟩]) := by
  constructor
  · rw [inForce_append, ← h.live_eq]
    cases op with
    | subscribe kind => simp [Listeners.perform, subscribe, issued]
    | unsubscribe entry => simp [Listeners.perform, unsubscribe, issued, eq_comm]
    | emit notice => simp [Listeners.perform, issued]
  · rw [issued_append, List.map_append, h.ids_eq]
    cases op with
    | subscribe kind =>
      simp [Listeners.perform, subscribe, issued, List.range'_concat, Nat.add_comm]
    | unsubscribe entry => simp [Listeners.perform, unsubscribe, issued]
    | emit notice => simp [Listeners.perform, issued]

/-- Operations are followed by their entries of the history. -/
theorem Follows.performAll (h : ls.Follows past) (ops : List Operation) :
    (ls.performAll ops).Follows (past ++ ls.history ops) := by
  induction ops generalizing ls past with
  | nil =>
    rw [history, List.append_nil]
    exact h
  | cons op ops ih =>
    -- the entries are in the order of the operations, so the first one goes on the past
    have hrest := ih (h.perform op)
    rw [List.append_assoc] at hrest
    exact hrest

theorem history_append (ls : Listeners) (ops : List Operation) (op : Operation) :
    ls.history (ops ++ [op]) = ls.history ops ++ [⟨op, ((ls.performAll ops).perform op).2⟩] := by
  induction ops generalizing ls with
  | nil => rfl
  | cons first ops ih => rw [List.cons_append, history, ih, performAll, history, List.cons_append]

/-- No two handles have one number. -/
theorem Follows.nodup_ids (h : ls.Follows past) : ((issued past).map (·.id)).Nodup := by
  rw [h.ids_eq]
  exact List.nodup_range'

/-- No two subscriptions that are in force are the same. -/
theorem Follows.nodup_inForce (h : ls.Follows past) : (inForce past).Nodup :=
  (inForce_sublist past).nodup h.nodup_ids.of_map

/-- A register that follows a history gives a notice to those subscriptions of its kind that are in
force. -/
theorem Follows.deliver (h : ls.Follows past) (notice : Notice) :
    ls.deliver [notice] =
      ((inForce past).filter fun entry => entry.kind = notice.kind).map fun entry =>
        ⟨entry.id, notice⟩ := by
  rw [← h.live_eq]
  simp [Listeners.deliver, recipients]

/-- A register gives out as many numbers as listeners are registered. -/
theorem lastId_performAll (ls : Listeners) (ops : List Operation) :
    (ls.performAll ops).lastId = ls.lastId + ops.countP Operation.isSubscribe := by
  induction ops generalizing ls with
  | nil => rfl
  | cons op ops ih =>
    rw [performAll, ih, List.countP_cons]
    cases op with
    | subscribe kind =>
      simp only [perform, subscribe, Operation.isSubscribe, ↓reduceIte]
      omega
    | unsubscribe entry => simp [perform, unsubscribe, Operation.isSubscribe]
    | emit notice => simp [perform, Operation.isSubscribe]

end SingleTape.Listeners
