import SingleTape.Text

/-!
# Command line options

The arguments of the program: at most one program file, and options in long or short form.  A
value may be attached to its option (`--tape=ab`, `-tab`, `-t=ab`) or follow as the next argument.
A value that follows may not itself look like an option, except for the offset, which may be a
negative number.  Short options without a value may be joined with one that comes after them
(`-vtab`).  After `--` everything is a file.  No option may be given twice.

Arguments are read from the left, and the first one that does not follow these rules ends the
reading.  So does the first one that asks for help or for the version: what comes after it may be
anything.
-/

namespace SingleTape

/-- How a program is executed. -/
inductive Mode where
  /-- One step at a time, each shown. -/
  | step
  /-- Continuously, with a pause between steps, each shown. -/
  | run
  /-- To its end in an isolated computation. -/
  | compute
deriving DecidableEq

/-- The mode with the given name. -/
def Mode.ofName? (s : String) : Option Mode :=
  if s = "step" then some step
  else if s = "run" then some run
  else if s = "compute" then some compute
  else none

/-- What the command line asks for. -/
structure Options where
  /-- The program file. -/
  file : Option String := none
  /-- A demonstration, by name or number. -/
  demo : Option String := none
  /-- Whether to list the demonstrations and do nothing else. -/
  list : Bool := false
  /-- The initial tape. -/
  tape : Option String := none
  /-- The place of the initial tape. -/
  offset : Option String := none
  /-- How to execute the program. -/
  mode : Option Mode := none
  /-- The pause between two steps, in milliseconds. -/
  delay : Option UInt64 := none
  /-- The time budget of a computation, in milliseconds. -/
  timeout : Option UInt64 := none
  /-- The configuration file. -/
  config : Option String := none
  /-- Whether to print the final machine as JSON. -/
  printSnapshot : Bool := false
  /-- Whether to log to standard error; a session itself has nothing to log. -/
  verbose : Bool := false
deriving DecidableEq

namespace Options

/-- Why arguments are not read to their end. -/
inductive Stop where
  /-- They do not follow the rules. -/
  | misuse
  /-- They ask how the program is used. -/
  | help
  /-- They ask for the version of the program. -/
  | version
deriving DecidableEq

/-- An option without a value. -/
inductive Flag where
  /-- List the demonstrations. -/
  | list
  /-- Print the final machine. -/
  | printSnapshot
  /-- Tell more. -/
  | verbose
  /-- Tell how the program is used. -/
  | help
  /-- Tell the version of the program. -/
  | version
deriving DecidableEq

/-- An option with a value. -/
inductive Setting where
  /-- A demonstration. -/
  | demo
  /-- The initial tape. -/
  | tape
  /-- The place of the initial tape. -/
  | offset
  /-- The mode. -/
  | mode
  /-- The pause between steps. -/
  | delay
  /-- The time budget. -/
  | timeout
  /-- The configuration file. -/
  | config
deriving DecidableEq

/-- An option of either kind. -/
inductive Key where
  /-- An option without a value. -/
  | flag (f : Flag)
  /-- An option with a value. -/
  | setting (s : Setting)
deriving DecidableEq

/-- The option with the given long name. -/
def Key.ofLong? (name : String) : Option Key :=
  [("demo", .setting .demo), ("list", .flag .list), ("tape", .setting .tape),
   ("offset", .setting .offset), ("mode", .setting .mode), ("delay", .setting .delay),
   ("timeout", .setting .timeout), ("config", .setting .config),
   ("export", .flag .printSnapshot), ("verbose", .flag .verbose), ("help", .flag .help),
   ("version", .flag .version)].lookup name

/-- The option with the given short name. -/
def Key.ofShort? (name : Char) : Option Key :=
  [('t', .setting .tape), ('o', .setting .offset), ('m', .setting .mode),
   ('v', .flag .verbose), ('h', .flag .help), ('V', .flag .version)].lookup name

/-- What is not there is misused. -/
def orMisuse {α : Type} : Option α → Except Stop α
  | some a => .ok a
  | none => .error .misuse

/-- Sets a flag, unless it is set. -/
def setFlag (o : Options) : Flag → Except Stop Options
  | .list => if o.list then .error .misuse else .ok { o with list := true }
  | .printSnapshot =>
    if o.printSnapshot then .error .misuse else .ok { o with printSnapshot := true }
  | .verbose => if o.verbose then .error .misuse else .ok { o with verbose := true }
  | .help => .error .help
  | .version => .error .version

/-- A number of milliseconds: digits, after a plus sign perhaps, for less than `2 ^ 64`. -/
def word? (value : List Char) : Option UInt64 := do
  let digits := match value with
    | '+' :: rest => rest
    | _ => value
  let n ← Text.ofDigits? digits
  if n < UInt64.size then some (UInt64.ofNat n) else none

/-- A path, which is not empty. -/
def path? (value : List Char) : Option String :=
  if value = [] then none else some (String.ofList value)

/-- Gives an option its value, unless it has one. -/
def set? (o : Options) (s : Setting) (value : List Char) : Option Options :=
  match s with
  | .demo => if o.demo.isSome then none else some { o with demo := some (String.ofList value) }
  | .tape => if o.tape.isSome then none else some { o with tape := some (String.ofList value) }
  | .offset =>
    if o.offset.isSome then none else some { o with offset := some (String.ofList value) }
  | .mode =>
    if o.mode.isSome then none
    else (Mode.ofName? (String.ofList value)).map fun m => { o with mode := some m }
  | .delay =>
    if o.delay.isSome then none else (word? value).map fun n => { o with delay := some n }
  | .timeout =>
    if o.timeout.isSome then none else (word? value).map fun n => { o with timeout := some n }
  | .config =>
    if o.config.isSome then none else (path? value).map fun p => { o with config := some p }

/-- Takes an argument as the program file, unless there is one. -/
def setFile? (o : Options) (value : List Char) : Option Options :=
  if o.file.isSome then none else (path? value).map fun p => { o with file := some p }

/-- Tells whether an argument has the form of an option. -/
def looksLikeOption : List Char → Bool
  | '-' :: _ :: _ => true
  | _ => false

/-- Tells whether an argument may be the value of the option before it. -/
def mayFollow (s : Setting) (value : List Char) : Bool :=
  s = .offset || !looksLikeOption value

/-- Reads a long option, which stands after `--`; the result tells which option still needs its
value. -/
def long (o : Options) (body : List Char) : Except Stop (Options × Option Setting) := do
  let name := body.takeWhile (· ≠ '=')
  let attached := body.drop name.length
  match ← orMisuse (Key.ofLong? (String.ofList name)), attached with
  | .flag f, [] => return (← o.setFlag f, none)
  | .flag _, _ => throw .misuse
  | .setting s, [] => return (o, some s)
  | .setting s, _ :: value => return (← orMisuse (o.set? s value), none)

/-- Reads short options, which stand after `-`; the result tells which option still needs its
value. -/
def short (o : Options) : List Char → Except Stop (Options × Option Setting)
  | [] => .ok (o, none)
  | c :: cs =>
    match Key.ofShort? c, cs with
    | none, _ => .error .misuse
    | some (.flag f), _ =>
      match o.setFlag f with
      | .error stop => .error stop
      | .ok o => o.short cs
    | some (.setting s), [] => .ok (o, some s)
    | some (.setting s), '=' :: value => (orMisuse (o.set? s value)).map fun o => (o, none)
    | some (.setting s), value => (orMisuse (o.set? s value)).map fun o => (o, none)

/-- Reads one argument that is neither a value nor a bare `--`. -/
def argument (o : Options) : List Char → Except Stop (Options × Option Setting)
  | '-' :: '-' :: body => o.long body
  | '-' :: c :: cs => o.short (c :: cs)
  | value => (orMisuse (o.setFile? value)).map fun o => (o, none)

/-- Reads arguments on top of what is known already. -/
def read (o : Options) : List (List Char) → Except Stop Options
  | [] => .ok o
  | arg :: rest =>
    if arg = ['-', '-'] then orMisuse (rest.foldlM setFile? o)
    else
      match o.argument arg, rest with
      | .error stop, _ => .error stop
      | .ok (o, none), rest => o.read rest
      | .ok (_, some _), [] => .error .misuse
      | .ok (o, some s), value :: rest =>
        if mayFollow s value then
          match o.set? s value with
          | none => .error .misuse
          | some o => o.read rest
        else .error .misuse

/-- What the arguments ask for; a demonstration and a file exclude each other, which is found out in
the end. -/
def parse (args : List String) : Except Stop Options := do
  let o ← read {} (args.map String.toList)
  if o.demo.isSome && o.file.isSome then throw .misuse else return o

/-- What comes after a question for help or for the version may be anything. -/
theorem read_append {o : Options} {args : List (List Char)} {stop : Stop}
    (h : o.read args = .error stop) (hstop : stop ≠ .misuse) (more : List (List Char)) :
    o.read (args ++ more) = .error stop := by
  fun_induction read o args with
  | case1 => cases h
  | case2 o rest =>
    -- after a bare `--` nothing asks for help
    cases hfiles : rest.foldlM setFile? o with
    | none =>
      rw [hfiles] at h
      cases h
      exact absurd rfl hstop
    | some o' =>
      rw [hfiles] at h
      cases h
  | case3 o arg rest hdash stop' harg =>
    cases h
    rw [List.cons_append, read.eq_def]
    simp only [hdash, harg, ↓reduceIte]
  | case4 o arg hdash o' rest harg ih =>
    rw [List.cons_append, read.eq_def]
    simp only [hdash, harg, ↓reduceIte]
    exact ih h
  | case7 o arg hdash o' s value rest harg hfollow o'' hset ih =>
    rw [List.cons_append, List.cons_append, read.eq_def]
    simp only [hdash, harg, hfollow, hset, ↓reduceIte]
    exact ih h
  | case5 | case6 | case8 =>
    -- where a value is missing or wrong, reading stops for misuse
    cases h
    exact absurd rfl hstop

-- help is given in spite of what comes after it, but not in spite of what comes before
example : parse ["--demo", "0", "-vh", "--bogus"] = .error .help := rfl
example : parse ["--bogus", "-h"] = .error .misuse := rfl

end Options

end SingleTape
