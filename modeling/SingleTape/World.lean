import SingleTape.Engine

/-!
# Engines in time

A world is an engine and a clock.  Three things occur in it, in any order: the host calls the
engine, the worker of a computation acts, and time passes.  `World.wait` is a host that does
nothing but wait until the engine is idle.
-/

namespace SingleTape

/-- An engine and the time on its clock, in nanoseconds. -/
@[ext]
structure World where
  /-- The engine. -/
  engine : Engine
  /-- The time. -/
  now : Nat
deriving DecidableEq

/-- What can occur in a world. -/
inductive Occurrence where
  /-- The host calls the engine. -/
  | call (c : Call)
  /-- The worker of a computation acts. -/
  | work
  /-- Time passes. -/
  | elapse (nanoseconds : Nat)
deriving DecidableEq

namespace World

/-- A world in which nothing has happened yet. -/
def new (config : Config) : World :=
  ⟨.new config, 0⟩

/-- The host calls the engine. -/
def call (w : World) (c : Call) : Except Fault (World × Reply) :=
  match w.engine.perform w.now c with
  | .error fault => .error fault
  | .ok reply => .ok (⟨reply.engine, w.now⟩, reply)

/-- The worker of a computation acts. -/
def work (w : World) : World :=
  ⟨w.engine.work w.now, w.now⟩

/-- Time passes. -/
def elapse (w : World) (nanoseconds : Nat) : World :=
  ⟨w.engine, w.now + nanoseconds⟩

/-- The world after an occurrence, and what the listeners were told by it. -/
def after (w : World) : Occurrence → Except Fault (World × List Delivery)
  | .call c =>
    match w.call c with
    | .error fault => .error fault
    | .ok (w, reply) => .ok (w, reply.deliveries)
  | .work => .ok (w.work, [])
  | .elapse nanoseconds => .ok (w.elapse nanoseconds, [])

/-- What occurs while a waiting host sleeps: the time of the next step comes, or the worker of a
computation acts once and some time passes. -/
def sleep (pace : Nat) (w : World) : World :=
  match w.engine.activity with
  | .idle => w
  | .running due => w.elapse (due - w.now)
  | .computing _ => w.work.elapse pace

/-- A waiting host wakes up: by the worker if that has left an outcome or is gone, and by its
timer otherwise. -/
def wake (w : World) : World × List Delivery :=
  let byTimer := match w.engine.activity with
    | .computing job => job.receive?.isNone
    | _ => true
  let reply := w.engine.wake byTimer w.now
  (⟨reply.engine, w.now⟩, reply.deliveries)

/-- How waiting ended. -/
inductive Wait where
  /-- The engine is idle. -/
  | idle (w : World)
  /-- A step could not be counted. -/
  | fault (cause : Fault)
  /-- The engine was still active after the given number of rounds. -/
  | unfinished (w : World)
deriving DecidableEq

/-- Polls until the engine is idle, sleeping in between, and collects what the listeners are told
on the way. -/
def wait (pace : Nat) : (rounds : Nat) → World → Array Delivery → Wait × Array Delivery
  | 0, w, told => (.unfinished w, told)
  | rounds + 1, w, told =>
    match w.call .poll with
    | .error fault => (.fault fault, told)
    | .ok (w, reply) =>
      let told := told ++ reply.deliveries
      if w.engine.isRunning then
        let (w, more) := (w.sleep pace).wake
        wait pace rounds w (told ++ more)
      else (.idle w, told)

end World

end SingleTape
