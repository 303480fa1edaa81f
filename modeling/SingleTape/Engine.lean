import SingleTape.Job
import SingleTape.Listeners
import SingleTape.Program.Compile

/-!
# The engine

An engine holds a machine on behalf of a host and executes its program in one of three ways:
one step at a time, continuously with a pause between steps, or in an isolated computation with
a time budget.  A continuous run and a computation go on only while the host polls.

The host speaks to the engine by calls.  A call that is refused changes nothing.  A request to
halt may come from elsewhere at any time; it is kept as a flag that the next poll takes down.
The clock is a number of nanoseconds that is handed in with the call.
-/

namespace SingleTape

/-- What an engine is doing. -/
inductive Activity where
  /-- Nothing. -/
  | idle
  /-- A continuous run, whose next step is due at the given time. -/
  | running (due : Nat)
  /-- An isolated computation. -/
  | computing (job : Job)
deriving DecidableEq

/-- A machine at the service of a host. -/
@[ext]
structure Engine where
  /-- The machine, once a program is installed. -/
  machine : Option Machine
  /-- The timing. -/
  config : Config
  /-- Who is notified. -/
  listeners : Listeners
  /-- What is going on. -/
  activity : Activity
  /-- Whether a request to halt is pending. -/
  haltRequested : Bool
deriving DecidableEq

/-- What a host can ask of an engine. -/
inductive Call where
  /-- Install a program, on an initial tape placed at `offset`. -/
  | install (source tape : String) (offset : Position)
  /-- Begin a continuous run with its first step. -/
  | start
  /-- Stop a continuous run or cancel a computation. -/
  | halt
  /-- Put the machine back at the beginning of its program. -/
  | reset
  /-- Execute one step. -/
  | step
  /-- Begin an isolated computation, with a time budget in milliseconds or the configured one,
  where the system has a thread for its worker or has none. -/
  | compute (timeout : Option Nat) (thread : Bool := true)
  /-- Do whatever is due. -/
  | poll
  /-- Wake up from waiting for a computation, by the timer or by the worker. -/
  | wake (byTimer : Bool)
  /-- Copy the machine. -/
  | copy
  /-- Replace the machine by a copy. -/
  | restore (snapshot : Snapshot)
  /-- Change the pause between steps, in milliseconds. -/
  | setDelay (milliseconds : Nat)
  /-- Request a halt from elsewhere. -/
  | requestHalt
  /-- Register a listener. -/
  | subscribe (kind : NoticeKind)
  /-- Take a listener off the register. -/
  | unsubscribe (entry : Subscription)
deriving DecidableEq

/-- What a host is told in return. -/
inductive Answer where
  /-- The call was carried out. -/
  | done
  /-- The call was refused. -/
  | refused (cause : Error)
  /-- Whether a run or a computation is under way. -/
  | active (running : Bool)
  /-- A copy of the machine. -/
  | copied (snapshot : Snapshot)
  /-- The entry of a new listener. -/
  | subscribed (entry : Subscription)
  /-- Whether a listener was registered. -/
  | unsubscribed (found : Bool)
deriving DecidableEq

/-- What comes of a call. -/
@[ext]
structure Reply where
  /-- The engine afterwards. -/
  engine : Engine
  /-- What the host is told. -/
  answer : Answer
  /-- What the listeners are told, in this order. -/
  notices : List Notice
deriving DecidableEq

namespace Reply

/-- The notices on their way to the listeners. -/
def deliveries (r : Reply) : List Delivery :=
  r.engine.listeners.deliver r.notices

end Reply

namespace Engine

/-- An engine without a program. -/
def new (config : Config) : Engine :=
  ⟨none, config, .empty, .idle, false⟩

/-- Tells whether a run or a computation is under way. -/
def isRunning (e : Engine) : Bool :=
  match e.activity with
  | .idle => false
  | _ => true

/-- Tells whether a computation is under way. -/
def isComputing (e : Engine) : Bool :=
  match e.activity with
  | .computing _ => true
  | _ => false

/-- Tells whether there is a machine that has halted. -/
def isHalted (e : Engine) : Bool :=
  e.machine.any fun m => m.halted

/-- When the next step of a continuous run is due. -/
def due? (e : Engine) : Option Nat :=
  match e.activity with
  | .running due => some due
  | _ => none

/-- A call is carried out. -/
def done (e : Engine) (notices : List Notice) : Reply :=
  ⟨e, .done, notices⟩

/-- A call is refused: nothing happens. -/
def refuse (e : Engine) (cause : Error) : Reply :=
  ⟨e, .refused cause, []⟩

/-- The host is told whether anything is under way. -/
def report (e : Engine) (notices : List Notice) : Reply :=
  ⟨e, .active e.isRunning, notices⟩

/-- The machine, if a step may be taken: there is a program, nothing is under way, and the
machine has not halted. -/
def ready (e : Engine) : Except Error Machine :=
  match e.machine with
  | none => .error .notProgrammed
  | some m =>
    if e.isRunning then .error .alreadyRunning
    else if m.halted then .error .machineHalted
    else .ok m

/-- What is told of a step. -/
def noticesOf : Step → List Notice
  | .moved => [.update]
  | .halted => [.haltState, .update]
  | .stopped cause => [.failure cause, .update]

/-- Executes one step of a continuous run and plans the next. -/
def runStep (e : Engine) (m : Machine) (now : Nat) : Except Fault (Engine × List Notice) :=
  match m.step with
  | .error fault => .error fault
  | .ok (m, s) =>
    let activity := if m.halted then .idle else .running (now + e.config.delayNanoseconds)
    .ok ({ e with machine := some m, activity }, noticesOf s)

/-- Takes over the outcome of a computation. -/
def finish (e : Engine) : Outcome → Engine × List Notice
  | .finished snapshot cause =>
    match snapshot.restore with
    | .error fault => ({ e with activity := .idle }, [.failure fault])
    | .ok m =>
      let told := match cause with
        | some cause => [.failure cause]
        | none => [.computeDone, .haltState]
      ({ e with activity := .idle, machine := some m }, .update :: told)
  | .timedOut => ({ e with activity := .idle }, [.computeTimedOut])
  | .aborted => ({ e with activity := .idle }, [.failure .computeAborted])

/-- Ends what is under way; `none` if nothing is. -/
def stop? (e : Engine) : Option (Engine × List Notice) :=
  match e.activity with
  | .idle => none
  | .running _ => some ({ e with activity := .idle }, [])
  | .computing _ => some ({ e with activity := .idle }, [.computeInterrupted])

/-- A copy of the machine, with the configured time budget. -/
def copy (e : Engine) (m : Machine) : Snapshot :=
  { m.snapshot with defaultTimeout := e.config.timeout }

/-- Takes over an outcome, or goes on computing. -/
def settle (e : Engine) : Job × Option Outcome → Reply
  | (job, none) => { e with activity := .computing job }.report []
  | (_, some outcome) =>
    let (e, notices) := e.finish outcome
    e.report notices

/-! ## Calls -/

/-- Installs a program. -/
def install (e : Engine) (source tape : String) (offset : Position) : Reply :=
  if e.isRunning then e.refuse .installWhileRunning
  else match Program.compile source tape offset with
    | .error cause => e.refuse cause
    | .ok program => { e with machine := some (.start program) }.done [.update]

/-- Begins a continuous run with its first step. -/
def start (e : Engine) (now : Nat) : Except Fault Reply :=
  match e.ready with
  | .error cause => .ok (e.refuse cause)
  | .ok m =>
    match { e with haltRequested := false }.runStep m now with
    | .error fault => .error fault
    | .ok (e, notices) => .ok (e.done notices)

/-- Stops a continuous run or cancels a computation, whose result is lost. -/
def halt (e : Engine) : Reply :=
  match e.stop? with
  | none => e.refuse .notRunning
  | some (e, notices) => e.done notices

/-- Puts the machine back at the beginning of its program. -/
def reset (e : Engine) : Reply :=
  if e.isRunning then e.refuse .alreadyRunning
  else match e.machine with
    | none => e.refuse .notProgrammed
    | some m => { e with machine := some m.reset }.done [.update]

/-- Executes one step. -/
def step (e : Engine) : Except Fault Reply :=
  match e.ready with
  | .error cause => .ok (e.refuse cause)
  | .ok m =>
    match m.step with
    | .error fault => .error fault
    | .ok (m, s) => .ok ({ e with machine := some m }.done (noticesOf s))

/-- Begins an isolated computation. -/
def compute (e : Engine) (timeout : Option Nat) (now : Nat) (thread : Bool := true) : Reply :=
  match e.ready with
  | .error cause => e.refuse cause
  | .ok m =>
    let budget := match timeout with
      | some milliseconds => Config.nanoseconds milliseconds
      | none => e.config.timeoutNanoseconds
    match Job.spawn (e.copy m) budget now thread with
    | .error cause => e.refuse cause
    | .ok job => { e with activity := .computing job }.done []

/-- Does what is due: honours a request to halt, or executes the next step of a continuous run,
or takes over the outcome of a computation. -/
def poll (e : Engine) (now : Nat) : Except Fault Reply :=
  if e.haltRequested then
    let e := { e with haltRequested := false }
    match e.stop? with
    | none => .ok (e.report [])
    | some (e, notices) => .ok (e.report notices)
  else match e.activity with
    | .idle => .ok (e.report [])
    | .running due =>
      if due ≤ now then
        match e.machine with
        | none => .ok (e.report [])
        | some m =>
          match e.runStep m now with
          | .error fault => .error fault
          | .ok (e, notices) => .ok (e.report notices)
      else .ok (e.report [])
    | .computing job => .ok (e.settle (job.tryOutcome now))

/-- Looks for an outcome after having waited for it. -/
def wake (e : Engine) (byTimer : Bool) (now : Nat) : Reply :=
  match e.activity with
  | .computing job => e.settle (job.wake byTimer now)
  | _ => e.report []

/-- Replaces the machine by a copy. -/
def restore (e : Engine) (snapshot : Snapshot) : Reply :=
  if e.isRunning then e.refuse .alreadyRunning
  else match snapshot.restore with
    | .error cause => e.refuse cause
    | .ok m => { e with machine := some m }.done [.update]

/-- Changes the pause between steps; a step that is planned keeps its time. -/
def setDelay (e : Engine) (milliseconds : Nat) : Engine :=
  { e with config := { e.config with delay := UInt64.ofNat (min milliseconds (UInt64.size - 1)) } }

/-- Carries out a call. -/
def perform (e : Engine) (now : Nat) : Call → Except Fault Reply
  | .install source tape offset => .ok (e.install source tape offset)
  | .start => e.start now
  | .halt => .ok e.halt
  | .reset => .ok e.reset
  | .step => e.step
  | .compute timeout thread => .ok (e.compute timeout now thread)
  | .poll => e.poll now
  | .wake byTimer => .ok (e.wake byTimer now)
  | .copy =>
    match e.machine with
    | none => .ok (e.refuse .notProgrammed)
    | some m => .ok ⟨e, .copied (e.copy m), []⟩
  | .restore snapshot => .ok (e.restore snapshot)
  | .setDelay milliseconds => .ok ((e.setDelay milliseconds).done [])
  | .requestHalt => .ok ({ e with haltRequested := true }.done [])
  | .subscribe kind =>
    let (listeners, entry) := e.listeners.subscribe kind
    .ok ⟨{ e with listeners }, .subscribed entry, []⟩
  | .unsubscribe entry =>
    let (listeners, found) := e.listeners.unsubscribe entry
    .ok ⟨{ e with listeners }, .unsubscribed found, []⟩

/-- The worker of a computation acts once. -/
def work (e : Engine) (now : Nat) : Engine :=
  match e.activity with
  | .computing job => { e with activity := .computing (job.act now) }
  | _ => e

end Engine

end SingleTape
