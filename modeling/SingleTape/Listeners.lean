import SingleTape.Error

/-!
# Notices and listeners

An engine tells of what happens to it by notices, each of one of six kinds.  A listener is
registered for one kind and is given every notice of that kind, until it is taken off the
register.  Listeners are numbered in the order of registration, over all kinds together, and
are notified in that order.

* `mem_recipients`       who is given a notice
* `mem_live_unsubscribe` what taking a listener off leaves
-/

namespace SingleTape

/-- The kinds of notices. -/
inductive NoticeKind where
  /-- The machine entered the halt state. -/
  | haltState
  /-- The machine may have changed. -/
  | update
  /-- An isolated computation finished in the halt state and its result was taken over. -/
  | computeDone
  /-- An isolated computation was cancelled. -/
  | computeInterrupted
  /-- An isolated computation ran out of time. -/
  | computeTimedOut
  /-- The machine or a computation stopped for a reason other than the halt state. -/
  | failure
deriving DecidableEq

namespace NoticeKind

/-- All kinds. -/
def all : List NoticeKind :=
  [haltState, update, computeDone, computeInterrupted, computeTimedOut, failure]

/-- The name of a kind. -/
def name : NoticeKind → String
  | haltState => "haltstate"
  | update => "uiupdate"
  | computeDone => "skipdone"
  | computeInterrupted => "skipinterrupt"
  | computeTimedOut => "skiptimeout"
  | failure => "runtimeerror"

/-- The kind with the given name. -/
def ofName? (s : String) : Option NoticeKind :=
  all.find? fun k => k.name = s

/-- The name of a kind in a summary. -/
def label : NoticeKind → String
  | haltState => "halt_state"
  | update => "ui_update"
  | computeDone => "skip_done"
  | computeInterrupted => "skip_interrupt"
  | computeTimedOut => "skip_timeout"
  | failure => "runtime_error"

end NoticeKind

/-- What an engine tells its listeners. -/
inductive Notice where
  /-- The machine entered the halt state. -/
  | haltState
  /-- The machine may have changed. -/
  | update
  /-- An isolated computation finished in the halt state and its result was taken over. -/
  | computeDone
  /-- An isolated computation was cancelled. -/
  | computeInterrupted
  /-- An isolated computation ran out of time. -/
  | computeTimedOut
  /-- The machine or a computation stopped for another reason. -/
  | failure (cause : Error)
deriving DecidableEq

/-- The kind of a notice. -/
def Notice.kind : Notice → NoticeKind
  | haltState => .haltState
  | update => .update
  | computeDone => .computeDone
  | computeInterrupted => .computeInterrupted
  | computeTimedOut => .computeTimedOut
  | failure _ => .failure

/-- A listener's entry in the register. -/
structure Subscription where
  /-- The kind of notices the listener is given. -/
  kind : NoticeKind
  /-- The listener's number. -/
  id : Nat
deriving DecidableEq

/-- A notice on its way to a listener. -/
structure Delivery where
  /-- The listener's number. -/
  listener : Nat
  /-- The notice. -/
  notice : Notice
deriving DecidableEq

/-- The register of listeners. -/
@[ext]
structure Listeners where
  /-- The number of the latest listener; listeners are counted from one. -/
  lastId : Nat
  /-- The registered listeners in the order of registration. -/
  live : List Subscription
deriving DecidableEq

namespace Listeners

/-- The register without any listener. -/
def empty : Listeners := ⟨0, []⟩

instance : Inhabited Listeners := ⟨empty⟩

/-- Registers a listener for a kind of notices. -/
def subscribe (ls : Listeners) (kind : NoticeKind) : Listeners × Subscription :=
  let entry := ⟨kind, ls.lastId + 1⟩
  (⟨ls.lastId + 1, ls.live ++ [entry]⟩, entry)

/-- Takes a listener off the register and tells whether it was there. -/
def unsubscribe (ls : Listeners) (entry : Subscription) : Listeners × Bool :=
  (⟨ls.lastId, ls.live.filter (· ≠ entry)⟩, entry ∈ ls.live)

/-- The number of listeners for a kind of notices. -/
def count (ls : Listeners) (kind : NoticeKind) : Nat :=
  ls.live.countP fun entry => entry.kind = kind

/-- The numbers of the listeners that are given a notice, in order. -/
def recipients (ls : Listeners) (notice : Notice) : List Nat :=
  (ls.live.filter fun entry => entry.kind = notice.kind).map (·.id)

/-- Gives notices to the listeners, one notice after the other. -/
def deliver (ls : Listeners) (notices : List Notice) : List Delivery :=
  notices.flatMap fun notice => (ls.recipients notice).map fun id => ⟨id, notice⟩

/-- How many listeners there are for each kind, in words. -/
def summary (ls : Listeners) : String :=
  let counts := NoticeKind.all.map fun k =>
    k.label ++ ": " ++ String.ofList (Text.digits (ls.count k))
  "Events \x7b " ++ ", ".intercalate counts ++ " \x7d"

theorem mem_recipients {ls : Listeners} {notice : Notice} {id : Nat} :
    id ∈ ls.recipients notice ↔ ⟨notice.kind, id⟩ ∈ ls.live := by
  simp only [recipients, List.mem_map, List.mem_filter, decide_eq_true_eq]
  constructor
  · rintro ⟨⟨kind, id⟩, ⟨hmem, rfl⟩, rfl⟩
    exact hmem
  · intro hmem
    exact ⟨_, ⟨hmem, rfl⟩, rfl⟩

theorem mem_live_unsubscribe {ls : Listeners} {entry other : Subscription} :
    other ∈ (ls.unsubscribe entry).1.live ↔ other ∈ ls.live ∧ other ≠ entry := by
  simp [unsubscribe]

end Listeners

end SingleTape
