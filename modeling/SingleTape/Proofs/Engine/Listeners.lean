import SingleTape.Proofs.Engine.Calls
import Mathlib.Data.List.Nodup

/-!
# What listeners hear

Every listener has a number of its own, since numbers are given out in order and never again.  So
what is delivered can be sorted by listener, and each hears all notices of its kind, once and in
order, and nothing else.

## Key results

- `Listeners.Numbered.subscribe`, `Listeners.Numbered.unsubscribe`: numbers stay unique
- `Listeners.Numbered.heard_deliver`: what a listener hears
- `Engine.Performs.listeners`: a call that tells anything leaves the listeners as they are
-/

namespace SingleTape

/-- What the listener with the given number hears of what is delivered. -/
def heard (id : Nat) (told : List Delivery) : List Notice :=
  (told.filter fun d => d.listener = id).map (·.notice)

theorem heard_append (id : Nat) (told more : List Delivery) :
    heard id (told ++ more) = heard id told ++ heard id more := by
  simp [heard]

namespace Listeners

variable {ls : Listeners}

/-- The numbers of the registered listeners rise, up to the one that was given out last. -/
structure Numbered (ls : Listeners) : Prop where
  rising : ls.live.Pairwise fun entry other => entry.id < other.id
  le_lastId : ∀ entry ∈ ls.live, entry.id ≤ ls.lastId

theorem numbered_empty : empty.Numbered :=
  ⟨.nil, by simp [empty]⟩

theorem Numbered.subscribe (h : ls.Numbered) (kind : NoticeKind) :
    (ls.subscribe kind).1.Numbered := by
  unfold Listeners.subscribe
  constructor
  · rw [List.pairwise_append]
    refine ⟨h.rising, List.pairwise_singleton _ _, ?_⟩
    intro entry hentry other hother
    rw [List.mem_singleton] at hother
    subst hother
    exact Nat.lt_succ_of_le (h.le_lastId entry hentry)
  · intro entry hentry
    show entry.id ≤ ls.lastId + 1
    rcases List.mem_append.mp hentry with hentry | hentry
    · exact Nat.le_succ_of_le (h.le_lastId entry hentry)
    · rw [List.mem_singleton] at hentry
      subst hentry
      exact Nat.le_refl _

theorem Numbered.unsubscribe (h : ls.Numbered) (entry : Subscription) :
    (ls.unsubscribe entry).1.Numbered := by
  unfold Listeners.unsubscribe
  constructor
  · exact h.rising.sublist List.filter_sublist
  · intro other hother
    exact h.le_lastId other (List.mem_of_mem_filter hother)

/-- A number belongs to one listener. -/
theorem Numbered.eq_of_id {entry other : Subscription} (h : ls.Numbered) (hentry : entry ∈ ls.live)
    (hother : other ∈ ls.live) (hid : entry.id = other.id) : entry = other := by
  have hnodup : (ls.live.map (·.id)).Nodup := by
    rw [List.Nodup, List.pairwise_map]
    exact h.rising.imp Nat.ne_of_lt
  exact List.inj_on_of_nodup_map hnodup hentry hother hid

/-- Nobody is given a notice twice. -/
theorem Numbered.nodup_recipients (h : ls.Numbered) (notice : Notice) :
    (ls.recipients notice).Nodup := by
  unfold recipients
  rw [List.Nodup, List.pairwise_map]
  exact (h.rising.sublist List.filter_sublist).imp Nat.ne_of_lt

theorem deliver_append (ls : Listeners) (notices more : List Notice) :
    ls.deliver (notices ++ more) = ls.deliver notices ++ ls.deliver more := by
  simp [deliver]

/-- A notice is heard once by every listener of its kind. -/
private theorem Numbered.heard_recipients (h : ls.Numbered) {entry : Subscription}
    (hentry : entry ∈ ls.live) (notice : Notice) :
    heard entry.id ((ls.recipients notice).map fun id => ⟨id, notice⟩) =
      if notice.kind = entry.kind then [notice] else [] := by
  have hheard : heard entry.id ((ls.recipients notice).map fun id => ⟨id, notice⟩) =
      List.replicate ((ls.recipients notice).count entry.id) notice := by
    rw [heard, List.filter_map, List.map_map, List.count_eq_length_filter, ← List.map_const']
    rfl
  rw [hheard]
  split <;> rename_i hkind
  · -- the listener is among the recipients, and only once
    have hmem : entry.id ∈ ls.recipients notice := by
      rw [mem_recipients, hkind]
      exact hentry
    rw [List.count_eq_one_of_mem (h.nodup_recipients notice) hmem]
    rfl
  · have hmem : entry.id ∉ ls.recipients notice := by
      rw [mem_recipients]
      intro hother
      exact hkind (congrArg Subscription.kind (h.eq_of_id hother hentry rfl))
    rw [List.count_eq_zero_of_not_mem hmem]
    rfl

/-- **Listeners.** A listener hears the notices of its kind, each once and in order. -/
theorem Numbered.heard_deliver (h : ls.Numbered) {entry : Subscription} (hentry : entry ∈ ls.live)
    (notices : List Notice) :
    heard entry.id (ls.deliver notices) = notices.filter fun n => n.kind = entry.kind := by
  induction notices with
  | nil => rfl
  | cons notice notices ih =>
    rw [deliver, List.flatMap_cons, heard_append, h.heard_recipients hentry, List.filter_cons]
    rw [deliver] at ih
    rw [ih]
    by_cases hkind : notice.kind = entry.kind <;> simp [hkind]

end Listeners

namespace Engine

theorem listeners_settle (e : Engine) (result : Job × Option Outcome) :
    (e.settle result).engine.listeners = e.listeners := by
  obtain ⟨job, found⟩ := result
  cases found with
  | none => rfl
  | some outcome =>
    cases outcome with
    | timedOut | aborted => rfl
    | finished snapshot cause =>
      simp only [settle, finish]
      split <;> rfl

/-- Only registering a listener and taking one off change the listeners, and neither tells
anything. -/
theorem Performs.listeners {e : Engine} {now : Nat} {c : Call} {r : Reply}
    (h : e.Performs now c r) :
    r.engine.listeners = e.listeners ∨ r.notices = [] ∧
      ((∃ kind, r.engine.listeners = (e.listeners.subscribe kind).1) ∨
        ∃ entry, r.engine.listeners = (e.listeners.unsubscribe entry).1) := by
  cases h with
  | subscribed => exact .inr ⟨rfl, .inl ⟨_, rfl⟩⟩
  | unsubscribed => exact .inr ⟨rfl, .inr ⟨_, rfl⟩⟩
  | looked | woke => exact .inl (listeners_settle _ _)
  | stopped hstop | obeyed _ hstop =>
    obtain ⟨rfl, -⟩ := stop?_eq_some hstop
    exact .inl rfl
  | _ => exact .inl rfl

end Engine

end SingleTape
