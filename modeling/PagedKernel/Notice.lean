import PagedKernel.Failure
import PagedKernel.Halt
import PagedKernel.Machine.Serial

/-!
# Notices

The kernel reports what it does as notices. A notice is a value; `Notice.line` is the text it is
logged as, with the level in brackets before it, and `logLines` the lines of a log as the serial
device gives them.

Key definitions: `Level`, `Notice`, `Notice.line`, `logLines`.
-/

namespace PagedKernel

/-- The level of a logged text. -/
inductive Level
  | debug
  | info
  | warning
deriving DecidableEq

def Level.tag : Level → String
  | debug => "DEBUG"
  | info => "INFO"
  | warning => "WARNING"

/-- A text as it is logged, newline included. -/
def Level.line (level : Level) (text : String) : String :=
  s!"[{level.tag}] {text}\n"

/-- What the kernel reports. -/
inductive Notice
  /-- The kernel starts. -/
  | booting
  /-- There is no program of this name, so the default programs are loaded. -/
  | unknownProgram (name : String)
  /-- A program was loaded. -/
  | loaded (pid : Nat) (program : String)
  /-- A process was duplicated. -/
  | forked (parent child : Nat)
  /-- A process could not be duplicated. -/
  | forkFailed (pid : Nat) (cause : ForkError)
  /-- A process ended itself. -/
  | exited (pid : Nat)
  /-- A process met a page fault, which breaks it. -/
  | pageFault (pid : Nat) (addr : UInt64) (write isPresent : Bool) (rip : UInt64)
  /-- The map of the physical memory follows. -/
  | physicalMap
  /-- The map of a process follows. -/
  | virtualMap (pid : Nat)
  /-- A row of a map. -/
  | row (text : String)
  /-- The kernel has had nothing to run for this many spins. -/
  | idle (spins : Nat)
  /-- The kernel stops, since nothing can run. -/
  | finished (ticks : Nat)
  /-- The kernel stops, since it was to run no longer. -/
  | stopped (ticks : Nat)
deriving DecidableEq

namespace Notice

def level : Notice → Level
  | booting | loaded _ _ | exited _ | idle _ | finished _ | stopped _ => .info
  | unknownProgram _ | forkFailed _ _ | pageFault _ _ _ _ _ => .warning
  | forked _ _ | physicalMap | virtualMap _ | row _ => .debug

def text : Notice → String
  | booting => "Starting WeensyOS"
  | unknownProgram name => s!"unknown program {name}, loading the default programs"
  | loaded pid program => s!"process {pid}: loaded {program}"
  | forked parent child => s!"fork: process {parent} -> process {child}"
  | forkFailed pid cause => s!"process {pid}: fork failed: {cause.name}"
  | exited pid => s!"process {pid}: exited"
  | pageFault pid addr write isPresent rip =>
    let how := s!"{faultOperation write} {faultProblem isPresent}"
    s!"Process {pid} page fault for {hex addr.toNat} ({how}, rip={hex rip.toNat})!"
  | physicalMap => "physical memory"
  | virtualMap pid => s!"virtual memory of process {pid}"
  | row text => text
  | idle spins => toString spins
  | finished ticks => s!"no runnable process after {ticks} ticks"
  | stopped ticks => s!"stopped after {ticks} ticks"

def line (notice : Notice) : String :=
  notice.level.line notice.text

/-- The lines that the notice is logged as. -/
def lines (notice : Notice) : List String :=
  s!"[{notice.level.tag}] {notice.text}".splitOn "\n"

end Notice

/-- The notices so far, the oldest first. -/
abbrev Log := Array Notice

/-- The serial device after a log was written to it. -/
def Serial.writeLog (s : Serial) (log : Log) : Serial :=
  log.foldl (fun s notice => s.write notice.line) s

/-- Every line of a log. -/
def echoedLines (log : Log) : List String :=
  log.toList.flatMap Notice.lines

/-- The lines of a log that an empty serial device gives out. -/
def logLines (log : Log) : List String :=
  (({} : Serial).writeLog log).drain.1

end PagedKernel
