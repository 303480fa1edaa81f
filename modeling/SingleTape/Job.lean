import SingleTape.Snapshot

/-!
# Isolated computations

A job runs its own copy of a machine until the machine halts, the time is up, or the job is
cancelled.  It has two sides that act independently of each other.

* The worker repeats: look at the cancel flag, look at the clock, run a chunk of steps.  When
  the machine halts or the time is up it leaves one outcome in the mailbox, and then it is gone.
  A step that cannot be counted makes it disappear without an outcome.
* The host may take the outcome from the mailbox, find that the worker is gone, find that the
  time is up, and set the cancel flag.

`Job.act` is one action of the worker; everything else is the host's.  The clock is a number of
nanoseconds that is handed in.
-/

namespace SingleTape

/-- How an isolated computation ended. -/
inductive Outcome where
  /-- The machine halted; `cause` tells why, unless it entered the halt state. -/
  | finished (snapshot : Snapshot) (cause : Option Error)
  /-- The time was up before the machine halted. -/
  | timedOut
  /-- The worker is gone and left no outcome. -/
  | aborted
deriving DecidableEq

/-- What the worker does next. -/
inductive Phase where
  /-- It looks at the cancel flag. -/
  | checkCancel
  /-- It looks at the clock. -/
  | checkDeadline
  /-- It runs a chunk of steps. -/
  | runChunk
  /-- It puts the outcome into the mailbox. -/
  | send (outcome : Outcome)
  /-- It disappears. -/
  | leave
  /-- It is gone. -/
  | gone
deriving DecidableEq

/-- An isolated computation. -/
@[ext]
structure Job where
  /-- The worker's machine. -/
  machine : Machine
  /-- What the worker does next. -/
  phase : Phase
  /-- An outcome that nobody has taken yet. -/
  mailbox : Option Outcome
  /-- Whether the job has been cancelled. -/
  cancelled : Bool
  /-- When the time is up. -/
  deadline : Nat
deriving DecidableEq

namespace Job

/-- The number of steps between two looks at the cancel flag and the clock. -/
def chunk : Nat := 4096

/-- Starts a computation on the machine that a snapshot copies; `thread` tells whether the system
has a thread for the worker. -/
def spawn (s : Snapshot) (timeout now : Nat) (thread : Bool := true) : Except Error Job :=
  match s.restore with
  | .error e => .error e
  | .ok machine =>
    if thread then .ok
      { machine, phase := .checkCancel, mailbox := none, cancelled := false,
        deadline := now + timeout }
    else .error .noThread

/-- Tells whether the time is up. -/
def isExpired (j : Job) (now : Nat) : Bool :=
  j.deadline ≤ now

/-- What the worker does after a chunk of steps. -/
def afterChunk (j : Job) : Except Fault (Machine × Step) → Job
  | .error _ => { j with phase := .gone }
  | .ok (m, .moved) => { j with machine := m, phase := .checkCancel }
  | .ok (m, .halted) => { j with machine := m, phase := .send (.finished m.snapshot none) }
  | .ok (m, .stopped e) => { j with machine := m, phase := .send (.finished m.snapshot (some e)) }

/-- The worker's next action, with chunks of the given size. -/
def actWith (size : Nat) (j : Job) (now : Nat) : Job :=
  match j.phase with
  | .checkCancel => { j with phase := if j.cancelled then .gone else .checkDeadline }
  | .checkDeadline => { j with phase := if j.isExpired now then .send .timedOut else .runChunk }
  | .runChunk => j.afterChunk (j.machine.run size)
  | .send outcome => { j with mailbox := some outcome, phase := .leave }
  | .leave => { j with phase := .gone }
  | .gone => j

/-- The worker's next action. -/
def act (j : Job) (now : Nat) : Job :=
  j.actWith chunk now

/-- Tells the worker to stop. -/
def cancel (j : Job) : Job :=
  { j with cancelled := true }

/-- Finds out whether the time is up, and cancels the job if so. -/
def expire (j : Job) (now : Nat) : Job × Option Outcome :=
  if j.isExpired now then (j.cancel, some .timedOut) else (j, none)

/-- Takes the outcome from the mailbox; if there is none and the worker is gone, there will
never be one. -/
def receive? (j : Job) : Option (Job × Outcome) :=
  match j.mailbox, j.phase with
  | some outcome, _ => some ({ j with mailbox := none }, outcome)
  | none, .gone => some (j, .aborted)
  | none, _ => none

/-- Looks for an outcome without waiting. -/
def tryOutcome (j : Job) (now : Nat) : Job × Option Outcome :=
  match j.receive? with
  | some (j, outcome) => (j, some outcome)
  | none => j.expire now

/-- What a waiting host finds when it wakes up, by its timer or by the worker. -/
def wake (j : Job) (byTimer : Bool) (now : Nat) : Job × Option Outcome :=
  match byTimer, j.receive? with
  | false, some (j, outcome) => (j, some outcome)
  | false, none => (j, none)
  | true, _ => j.expire now

/-- Looks for an outcome again and again, while the worker acts once every `pace` nanoseconds. -/
def await (pace : Nat) : (rounds : Nat) → (j : Job) → (now : Nat) → Option Outcome
  | 0, _, _ => none
  | rounds + 1, j, now =>
    match j.tryOutcome now with
    | (_, some outcome) => some outcome
    | (j, none) => await pace rounds (j.act now) (now + pace)

end Job

end SingleTape
