import SingleTape.CommandLine.Session

/-!
# The program

Reads what a session needs, takes its turns, prints their lines and sleeps between them.  All
decisions are made by `Session`.
-/

namespace SingleTape.CommandLine

/-- The fault behind an error of the operating system, whose number may come negated. -/
def faultOf : IO.Error → FileFault
  | .noFileOrDirectory .. => .notFound
  | .inappropriateType _ code words =>
    if code = 20 ∨ code = 0 - 20 then .notDirectory
    else if code = 21 ∨ code = 0 - 21 then .isDirectory
    else .other words
  | .invalidArgument _ code words =>
    if code = 36 ∨ code = 0 - 36 then .nameTooLong else .other words
  | e => .other (toString e)

/-- Reads a file. -/
def readText (path : String) : IO (Except FileFault String) := do
  try
    return decodeText (← IO.FS.readBinFile path)
  catch e =>
    return .error (faultOf e)

/-- Reads standard input to its end, unless it is a terminal. -/
def readStandardInput : IO (Option (Except FileFault String)) := do
  let input ← IO.getStdin
  if ← input.isTty then return none
  try
    return some (decodeText (← input.readBinToEnd))
  catch e =>
    return some (.error (faultOf e))

/-- Reads the files that the options name, and standard input if it is the program. -/
def readInputs (o : Options) : IO Inputs := do
  let paths := if o.list then [] else o.config.toList ++ o.file.toList
  let texts ← paths.mapM fun path => do return (path, ← readText path)
  let standardInput ←
    if o.list || o.file.isSome || o.demo.isSome then pure none else readStandardInput
  return ⟨fun path => (texts.lookup path).getD (.error .notFound), standardInput⟩

/-- Sleeps until the given time, in nanoseconds, an hour at most at once. -/
partial def sleepUntil (time : Nat) : IO Unit := do
  let now ← IO.monoNanosNow
  if now < time then
    IO.sleep (UInt32.ofNat (min ((time - now + 999999) / 1000000) 3600000))
    sleepUntil time

/-- Says how a session ended, and gives the exit code. -/
def leave (exit : Exit) : IO UInt32 := do
  match exit with
  | .success none => pure ()
  | .success (some snapshot) => IO.println snapshot.encode
  | .failure cause => IO.eprintln ("Error: " ++ cause.message)
  | .unread .misuse => IO.eprintln "error: the arguments are not understood"
  | .unread .help => IO.println "Usage: tms-cli [OPTIONS] [PROGRAM_FILE]"
  | .unread .version => pure ()
  | .fault _ => IO.eprintln "error: a step could not be counted"
  return UInt32.ofNat exit.code

/-- Takes the turns of a session. -/
partial def takeTurns : Turn → IO UInt32
  | .over lines exit => do
    lines.forM IO.println
    leave exit
  | .more lines resume session => do
    lines.forM IO.println
    sleepUntil resume
    takeTurns (session.next (max resume (← IO.monoNanosNow)))

/-- Runs a session with the given arguments, and gives the exit code. -/
def runSession (args : List String) : IO UInt32 := do
  match Options.parse args with
  | .error stop => do
    (stopLines stop).forM IO.println
    leave (.unread stop)
  | .ok o =>
    let inputs ← readInputs o
    takeTurns (Session.first o inputs (← IO.monoNanosNow))

end SingleTape.CommandLine

/-- Runs a single-tape machine from the command line. -/
def main (args : List String) : IO UInt32 :=
  SingleTape.CommandLine.runSession args
