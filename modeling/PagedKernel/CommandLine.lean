import PagedKernel.Session

/-!
# The command line

The command takes the name of a program and the option `-t` or `--ticks` with the number of timer
interrupts to stop after. `-h`, `--help`, `-V` and `--version` ask for a text instead. The arguments
are read in order, and the first that is wrong or asks for a text decides. An option may be given
once, and a value that starts with a dash is none. After `--` every argument is a name.

Key definitions: `Request`, `parseArguments`, `execute`.
-/

namespace PagedKernel

/-- What the arguments ask for. -/
inductive Request
  /-- Boot the kernel with a program, up to a number of timer interrupts. -/
  | run (program : Option String) (ticks : Option Nat)
  | help
  | version
deriving DecidableEq

/-- What is wrong with the arguments. -/
inductive UsageError
  /-- The option is not known, or takes no value. -/
  | badOption (arg : String)
  /-- There is one name too many. -/
  | extraName (arg : String)
  /-- The value is no number of ticks. -/
  | badTicks (value : String)
  /-- The ticks are given twice. -/
  | repeatedTicks
  /-- The option for the ticks lacks its value. -/
  | missingTicks
deriving DecidableEq

/-- The word with these decimal digits, after an optional plus sign. -/
def parseCount (text : String) : Option Nat :=
  let digits := match text.toList with
    | '+' :: rest => rest
    | cs => cs
  if digits.isEmpty || !digits.all Char.isDigit then none
  else
    let value := digits.foldl (fun v c => 10 * v + (c.toNat - '0'.toNat)) 0
    if value < UInt64.size then some value else none

/-- What the arguments so far have given. -/
structure Given where
  program : Option String := none
  ticks : Option Nat := none

/-- How reading an argument ends. -/
inductive Progress
  /-- Go on with the next argument. -/
  | next (g : Given)
  /-- The next argument is the number of ticks. -/
  | awaitTicks (g : Given)
  /-- Every argument left is a name. -/
  | names (g : Given)
  /-- A text is asked for. -/
  | request (r : Request)

namespace Given

def addTicks (g : Given) (value : String) : Except UsageError Given :=
  match parseCount value, g.ticks with
  | none, _ => .error (.badTicks value)
  | some _, some _ => .error .repeatedTicks
  | some k, none => .ok { g with ticks := some k }

def addName (g : Given) (name : String) : Except UsageError Given :=
  match g.program with
  | some _ => .error (.extraName name)
  | none => .ok { g with program := some name }

/-- Read a long option, given without its dashes. -/
def readLong (g : Given) (option : List Char) : Except UsageError Progress :=
  let name := String.ofList (option.takeWhile (· ≠ '='))
  match name, option.dropWhile (· ≠ '=') with
  | "ticks", _ :: value => .next <$> g.addTicks (String.ofList value)
  | "ticks", [] => .ok (.awaitTicks g)
  | "help", [] => .ok (.request .help)
  | "version", [] => .ok (.request .version)
  | _, _ => .error (.badOption name)

/-- Read short options, given without their dash. The value may follow the letter directly, or after
an equals sign. -/
def readShort (g : Given) : List Char → Except UsageError Progress
  | 'h' :: _ => .ok (.request .help)
  | 'V' :: _ => .ok (.request .version)
  | ['t'] => .ok (.awaitTicks g)
  | 't' :: '=' :: value => .next <$> g.addTicks (String.ofList value)
  | 't' :: value => .next <$> g.addTicks (String.ofList value)
  | option => .error (.badOption (String.ofList option))

def read (g : Given) (arg : String) : Except UsageError Progress :=
  match arg.toList with
  | ['-', '-'] => .ok (.names g)
  | '-' :: '-' :: option => g.readLong option
  | '-' :: c :: option => g.readShort (c :: option)
  | _ => .next <$> g.addName arg

/-- Read the arguments after `--`. -/
def readNames (g : Given) : List String → Except UsageError Request
  | [] => .ok (.run g.program g.ticks)
  | arg :: rest => do (← g.addName arg).readNames rest

/-- An argument that is an option, and so no value. -/
def isOption (arg : String) : Bool :=
  match arg.toList with
  | '-' :: _ :: _ => true
  | _ => false

def readAll (g : Given) : List String → Except UsageError Request
  | [] => .ok (.run g.program g.ticks)
  | arg :: rest => do
    match ← g.read arg with
    | .next g => g.readAll rest
    | .names g => g.readNames rest
    | .request r => .ok r
    | .awaitTicks g =>
      match rest with
      | [] => .error .missingTicks
      | value :: rest =>
        if isOption value then .error .missingTicks
        else (← g.addTicks value).readAll rest

end Given

def parseArguments (args : List String) : Except UsageError Request :=
  Given.readAll {} args

/-- What a command ends with: its exit status and what it writes. -/
structure Outcome where
  status : UInt8
  /-- The lines of the log. -/
  log : List String
  /-- The text that was asked for, or what is wrong. -/
  text : String

def usage : String :=
  "usage: kernel [PROGRAM] [-t TICKS]\n\n" ++
  "  PROGRAM            the program to run in process 1; the default programs if unknown\n" ++
  "  -t, --ticks TICKS  stop after this many timer interrupts\n" ++
  "  -h, --help         print this text\n" ++
  "  -V, --version      print the version\n"

/-- What is reported of wrong arguments. -/
def UsageError.message : UsageError → String
  | badOption arg => s!"unexpected option '{arg}'"
  | extraName arg => s!"unexpected argument '{arg}'"
  | badTicks value => s!"invalid value '{value}' for the ticks"
  | repeatedTicks => "the ticks are given twice"
  | missingTicks => "the ticks need a value"

def Report.text : Report → String
  | message text => text
  | assertion => "assertion failed"
  | overflow => "arithmetic overflow"
  | index => "index out of bounds"

/-- Carry out the command with the programs of `loader`. -/
def execute (loader : Loader) (args : List String) : Outcome :=
  match parseArguments args with
  | .error e => ⟨2, [], s!"error: {e.message}\n\n{usage}"⟩
  | .ok .help => ⟨0, [], usage⟩
  | .ok .version => ⟨0, [], "WeensyOS 0.1.0\n"⟩
  | .ok (.run program ticks) =>
    match runSession loader program ticks with
    | (.ok _, log) => ⟨0, echoedLines log, ""⟩
    | (.error cause, log) => ⟨101, echoedLines log, s!"halted: {cause.report.text}\n"⟩

end PagedKernel
