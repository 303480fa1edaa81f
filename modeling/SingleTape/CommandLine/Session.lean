import SingleTape.Catalogue
import SingleTape.CommandLine.Options
import SingleTape.Engine
import SingleTape.Loader

/-!
# A session on the command line

A session begins with the options and what can be read, and goes on in turns.  Every turn says
which lines to print and, unless the session is over, from what time on the next turn may be
taken.  Nothing is printed or read here, and time comes in as a number of nanoseconds.

All three modes end in the same way: with the final tape, the counters, and, if asked for, the
machine as a snapshot.
-/

namespace SingleTape

/-- What a session can read. -/
structure Inputs where
  /-- The files. -/
  read : FileReader
  /-- Standard input, unless it is a terminal. -/
  standardInput : Option (Except FileFault String)

/-- What a session is about to do. -/
inductive Stage where
  /-- Take the next single step. -/
  | stepping
  /-- Take the next step of a continuous run. -/
  | running
  /-- Wait for a computation. -/
  | computing
deriving DecidableEq

/-- A session that is under way. -/
structure Session where
  /-- The engine. -/
  engine : Engine
  /-- What comes next. -/
  stage : Stage
  /-- Whether to print the final machine as JSON. -/
  printSnapshot : Bool

/-- How a session ended. -/
inductive Exit where
  /-- All was done; the snapshot is to be printed as the last line. -/
  | success (snapshot : Option Snapshot)
  /-- Something was wrong. -/
  | failure (cause : Error)
  /-- The arguments did not ask for a session. -/
  | unread (stop : Options.Stop)
  /-- A step could not be counted. -/
  | fault (cause : Fault)

/-- The exit code. -/
def Exit.code : Exit → Nat
  | success _ => 0
  | failure _ => 1
  | unread .misuse => 2
  | unread .help | unread .version => 0
  | fault _ => 101

/-- What a turn comes to. -/
inductive Turn where
  /-- Lines are printed, and the session goes on, not before the given time. -/
  | more (lines : List String) (resume : Nat) (next : Session)
  /-- Lines are printed, and the session is over. -/
  | over (lines : List String) (exit : Exit)

/-- A program and the tape it is to run on. -/
structure Task where
  /-- The program text. -/
  source : String
  /-- The initial tape. -/
  tape : String
  /-- The place of the initial tape. -/
  offset : Position

namespace CommandLine

/-! ## Lines -/

/-- A number as it is printed. -/
def number (n : Int) : String :=
  String.ofList (Text.signed n)

/-- The written part of the tape and the cell under the head, with all that lies between. -/
def tapeLine (m : Machine) : String :=
  let (first, last) := match m.tape.bounds with
    | none => (m.position.val, m.position.val)
    | some (first, last) => (min first m.position.val, max last m.position.val)
  String.ofList ((m.tape.window first last).map Symbol.shown)

/-- The line that shows a machine after a step. -/
def stepLine (m : Machine) : String :=
  "Step: " ++ number m.transitions.toNat ++ ", State: " ++ m.state.name ++ ", Head: "
    ++ number m.position.val ++ ", Tape: [" ++ tapeLine m ++ "]"

/-- The lines that show a machine at the end. -/
def finalLines (m : Machine) : List String :=
  ["", "Final tape:", tapeLine m,
   "Transitions: " ++ number m.transitions.toNat ++ ", Symbols: " ++ number m.symbols
    ++ ", State: " ++ m.state.name ++ ", Head: " ++ number m.position.val]

/-- The line for a notice, if there is one. -/
def noticeLine? : Notice → Option String
  | .haltState => some "Machine halted."
  | .failure cause => some ("Machine error: " ++ cause.message)
  | .computeTimedOut => some "Computation timed out."
  | .computeInterrupted => some "Computation interrupted."
  | .update | .computeDone => none

/-- The lines of a reply: its notices, and the machine if it is to be shown. -/
def replyLines (r : Reply) (showMachine : Bool) : List String :=
  r.notices.filterMap noticeLine? ++
    if showMachine then (r.engine.machine.map stepLine).toList else []

/-! ## The beginning -/

/-- The timing: the configuration file first, then what the options say. -/
def configOf (o : Options) (inputs : Inputs) : Except Error Config := do
  let config ← match o.config with
    | none => pure Config.standard
    | some path => Config.load inputs.read path
  return ⟨o.delay.getD config.delay, o.timeout.getD config.timeout⟩

/-- A number as an index into the catalogue: digits, after a plus sign perhaps. -/
def index? (value : String) : Option Nat :=
  (Options.word? value.toList).map UInt64.toNat

/-- The demonstration with the given number or name. -/
def demoOf (value : String) : Except Error Demo :=
  match index? value with
  | some index => Catalogue.get index
  | none => Catalogue.find value

/-- What a demonstration is to run. -/
def taskOfDemo (d : Demo) : Task :=
  ⟨d.source, d.initialTape, d.offset⟩

/-- The program from a file, a demonstration or standard input, and lines to print.  If standard
input is a terminal, the first demonstration is taken. -/
def sourceOf (o : Options) (inputs : Inputs) : Except Error (Task × List String) :=
  match o.file, o.demo, inputs.standardInput with
  | some path, _, _ => do
    let text ← Loader.source inputs.read path
    return (⟨text, "", .origin⟩, [])
  | none, some value, _ => do
    let d ← demoOf value
    return (taskOfDemo d, [])
  | none, none, some (.ok text) => .ok (⟨text, "", .origin⟩, [])
  | none, none, some (.error fault) => .error (.unreadableInput fault)
  | none, none, none => do
    let d ← Catalogue.get 0
    return (taskOfDemo d, ["No program given, running demo '" ++ d.name ++ "'."])

/-- A task with the tape and the offset that the options give instead of its own. -/
def taskOf (o : Options) (task : Task) : Except Error Task := do
  let offset ← match o.offset with
    | none => pure task.offset
    | some text => Position.parse text
  return ⟨task.source, o.tape.getD task.tape, offset⟩

/-- The lines that list the catalogue. -/
def listLines : List String :=
  Catalogue.names.zipIdx.map fun (name, index) => number index ++ ": " ++ name

/-- What is printed where there is no session.  How help is worded is left to whoever prints it. -/
def stopLines : Options.Stop → List String
  | .misuse | .help => []
  | .version => ["tms-cli 0.0.1"]

end CommandLine

namespace Session

open CommandLine

/-- Goes on after a reply, unless the call was refused. -/
def proceed (r : Reply) (stage : Stage) (printSnapshot : Bool) (lines : List String) : Turn :=
  match r.answer with
  | .refused cause => .over lines (.failure cause)
  | _ => .more lines (r.engine.due?.getD 0) ⟨r.engine, stage, printSnapshot⟩

/-- Begins the execution of the program that is installed. -/
def launch (o : Options) (e : Engine) (now : Nat) (lines : List String) : Turn :=
  match o.mode.getD .compute with
  | .step =>
    .more (lines ++ (e.machine.map stepLine).toList) 0 ⟨e, .stepping, o.printSnapshot⟩
  | .run =>
    match e.start now with
    | .error fault => .over lines (.fault fault)
    | .ok r => proceed r .running o.printSnapshot (lines ++ replyLines r true)
  | .compute =>
    let r := e.compute none now
    proceed r .computing o.printSnapshot (lines ++ replyLines r false)

/-- Installs the program of a task and begins its execution. -/
def begin (o : Options) (config : Config) (task : Task) (now : Nat) (lines : List String) : Turn :=
  let r := (Engine.new config).install task.source task.tape task.offset
  match r.answer with
  | .refused cause => .over lines (.failure cause)
  | _ => launch o r.engine now lines

/-- The first turn.  Where the program comes from is told before its tape and its place are
settled. -/
def first (o : Options) (inputs : Inputs) (now : Nat) : Turn :=
  if o.list then .over listLines (.success none)
  else
    let given : Except Error (Config × Task × List String) := do
      let config ← configOf o inputs
      let (task, lines) ← sourceOf o inputs
      return (config, task, lines)
    match given with
    | .error cause => .over [] (.failure cause)
    | .ok (config, task, lines) =>
      match taskOf o task with
      | .error cause => .over lines (.failure cause)
      | .ok task => begin o config task now lines

/-- The last turn. -/
def last (s : Session) : Turn :=
  match s.engine.machine with
  | none => .over [] (.success none)
  | some m =>
    .over (finalLines m)
      (.success (if s.printSnapshot then some (s.engine.copy m) else none))

/-- Any turn after the first. -/
def next (s : Session) (now : Nat) : Turn :=
  match s.stage with
  | .stepping =>
    if s.engine.isHalted then s.last
    else match s.engine.step with
      | .error fault => .over [] (.fault fault)
      | .ok r => proceed r .stepping s.printSnapshot (replyLines r true)
  | .running =>
    if !s.engine.isRunning then s.last
    else match s.engine.poll now with
      | .error fault => .over [] (.fault fault)
      | .ok r => proceed r .running s.printSnapshot (replyLines r true)
  | .computing =>
    if !s.engine.isRunning then s.last
    else match (s.engine.work now).poll now with
      | .error fault => .over [] (.fault fault)
      | .ok r => proceed r .computing s.printSnapshot (replyLines r false)

/-- Plays a session to its end, each turn taking `pace` nanoseconds; `none` if it is not over
after the given number of turns. -/
def play (pace : Nat) : (turns : Nat) → (now : Nat) → Turn → Array String →
    Option (Array String × Exit)
  | _, _, .over lines exit, printed => some (printed ++ lines, exit)
  | 0, _, .more .., _ => none
  | turns + 1, now, .more lines resume s, printed =>
    let now := max (now + pace) resume
    play pace turns now (s.next now) (printed ++ lines)

end Session

namespace CommandLine

/-- All that the program prints, and how it ends, where each turn takes `pace` nanoseconds. -/
def execute (args : List String) (inputs : Inputs) (pace turns : Nat) :
    Option (Array String × Exit) :=
  match Options.parse args with
  | .error stop => some ((stopLines stop).toArray, .unread stop)
  | .ok o => Session.play pace turns 0 (Session.first o inputs 0) #[]

end CommandLine

end SingleTape
