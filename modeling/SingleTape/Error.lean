import SingleTape.Position
import SingleTape.StateId
import SingleTape.Text

/-!
# Causes of failure

Every operation that can fail names the cause as a value of `Error`; `Error.message` is the only
place that puts a cause into words.
-/

namespace SingleTape

/-- What kept a file or a directory from being read. -/
inductive FileFault where
  /-- Nothing stands under the path. -/
  | notFound
  /-- A part of the path that should be a directory is a file. -/
  | notDirectory
  /-- A directory stands where a file should. -/
  | isDirectory
  /-- The path, or a name in it, has more bytes than the system takes. -/
  | nameTooLong
  /-- The path holds the character NUL, which the system takes for its end. -/
  | nulInPath
  /-- The content of the file is not valid UTF-8. -/
  | invalidText
  /-- Another fault, in the words of the operating system. -/
  | other (words : String)
deriving DecidableEq

/-- The fault in words. -/
def FileFault.message : FileFault → String
  | notFound => "No such file or directory (os error 2)"
  | notDirectory => "Not a directory (os error 20)"
  | isDirectory => "Is a directory (os error 21)"
  | nameTooLong => "File name too long (os error 36)"
  | nulInPath => "file name contained an unexpected NUL byte"
  | invalidText => "stream did not contain valid UTF-8"
  | other words => words

/-- What made an operation fail. -/
inductive Error where
  /-- A program was to be installed during a run. -/
  | installWhileRunning
  /-- A line of program text is neither a rule nor blank nor a comment. -/
  | malformedLine (line : Nat)
  /-- A line defines a rule for the halt state. -/
  | ruleForHalt (line : Nat)
  /-- A line defines a second rule for a state and a symbol. -/
  | duplicateRule (line : Nat)
  /-- A program text defines no rule. -/
  | emptyProgram
  /-- A rule leads to a state that has no rules and is not the halt state. -/
  | undefinedState (state : StateId) (line : Nat)
  /-- The initial state has no rules. -/
  | noInitialRule (state : StateId)
  /-- An operation needs an installed program. -/
  | notProgrammed
  /-- An operation needs a run to be under way. -/
  | notRunning
  /-- An operation needs an idle engine. -/
  | alreadyRunning
  /-- An operation needs a machine that has not halted. -/
  | machineHalted
  /-- The system has no thread for the worker of an isolated computation. -/
  | noThread
  /-- No rule applies to the state and the symbol under the head. -/
  | noRule (state : StateId) (symbol : Char)
  /-- A rule would move the head past the last cell on its side. -/
  | tapeEnd (position : Position)
  /-- An isolated computation ended without a result. -/
  | computeAborted
  /-- A text is no position, or the tape placed there does not fit. -/
  | invalidOffset (text : String)
  /-- A program file cannot be read. -/
  | unreadableFile (path : String) (fault : FileFault)
  /-- A directory of program files cannot be read. -/
  | unreadableDirectory (path : String) (fault : FileFault)
  /-- Standard input cannot be read. -/
  | unreadableInput (fault : FileFault)
  /-- A configuration file cannot be read. -/
  | unreadableConfig (path : String) (fault : FileFault)
  /-- A text is not the JSON of a configuration. -/
  | malformedConfig
  /-- A text is not the JSON of a snapshot. -/
  | malformedSnapshot
  /-- A snapshot is of a machine with other reserved states or another blank. -/
  | incompatibleSnapshot (halt initial : StateId) (blank : Char)
  /-- A snapshot claims another number of symbols than its tape holds. -/
  | miscountedSnapshot (claimed counted : Nat)
  /-- The catalogue has no program with this number. -/
  | noProgramAt (index : Nat)
  /-- The catalogue has no program with this name. -/
  | noProgramNamed (name : String)
deriving DecidableEq

/-- A number as it stands in a message. -/
private def numeral (n : Nat) : String :=
  String.ofList (Text.digits n)

/-- The cause in words. -/
def Error.message : Error → String
  | installWhileRunning => "Cannot install program while running!"
  | malformedLine line => "Syntax error in line " ++ numeral line ++ "."
  | ruleForHalt line => "Attempting to override halt state in line " ++ numeral line ++ "!"
  | duplicateRule line =>
    "Trying to override existing state transition in line " ++ numeral line ++ "!"
  | emptyProgram => "No program code entered."
  | undefinedState state line =>
    "Potential call to undefined state " ++ state.name ++ " in line " ++ numeral line ++ "!"
  | noInitialRule state => "No transition rules found for initial state " ++ state.name ++ "."
  | notProgrammed => "TMS has not been programmed yet!"
  | notRunning => "Not running!"
  | alreadyRunning => "Already running!"
  | machineHalted => "Halt state reached."
  | noThread => "This feature is not supported by your environment."
  | noRule state symbol =>
    "No applicable transition found for '" ++ String.singleton symbol ++ "' in state "
      ++ state.name ++ "."
  | tapeEnd position =>
    "Head cannot move beyond position " ++ String.ofList (Text.signed position.val) ++ "."
  | computeAborted => "Computation stopped without a result."
  | invalidOffset text => "Invalid offset specified: " ++ text
  | unreadableFile path fault =>
    "File error: Failed to read file " ++ path ++ ": " ++ fault.message
  | unreadableDirectory path fault =>
    "File error: Failed to read directory " ++ path ++ ": " ++ fault.message
  | unreadableInput fault => "Failed to read from stdin: " ++ fault.message
  | unreadableConfig path fault =>
    "Configuration error: failed to read " ++ path ++ ": " ++ fault.message
  | malformedConfig => "Configuration error: malformed JSON"
  | malformedSnapshot => "Snapshot error: malformed JSON"
  | incompatibleSnapshot halt initial blank =>
    "Snapshot error: incompatible machine: halt state " ++ halt.name ++ ", initial state "
      ++ initial.name ++ ", blank '" ++ String.singleton blank ++ "'"
  | miscountedSnapshot claimed counted =>
    "Snapshot error: symbol count " ++ numeral claimed ++ " does not match " ++ numeral counted
      ++ " symbols on tape"
  | noProgramAt index => "Program #" ++ numeral index ++ " not found"
  | noProgramNamed name => "Program '" ++ name ++ "' not found"

end SingleTape
