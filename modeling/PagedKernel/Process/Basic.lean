import PagedKernel.AddressSpace.PageTable
import PagedKernel.Machine.Registers
import PagedKernel.Notice

/-!
# Processes

The process table has `procCount` slots, and the number of a slot is the identifier of its process.
A slot that is free has no address space. A `Userland` is the frames, the process table and the log:
what the operations on processes work on.

Key definitions: `ProcessState`, `ProcessSlot`, `ProcessTable`, `Userland`, `Userland.reclaim`.
-/

namespace PagedKernel

/-- The identifier of a process: the number of its slot. -/
abbrev Pid := Nat

/-- The states of a slot. -/
inductive ProcessState
  /-- The slot has no process. -/
  | free
  /-- The process can run. -/
  | runnable
  /-- The process waits. -/
  | blocked
  /-- The process met a fault and never runs again. -/
  | broken
deriving DecidableEq, Inhabited

namespace ProcessState

def all : List ProcessState := [free, runnable, blocked, broken]

def name : ProcessState → String
  | free => "Free"
  | runnable => "Runnable"
  | blocked => "Blocked"
  | broken => "Broken"

end ProcessState

/-- A slot of the process table. -/
structure ProcessSlot where
  state : ProcessState
  /-- The registers at the last trap. -/
  regs : Registers
  /-- The address space. -/
  table : Option PageTable

def ProcessSlot.unused : ProcessSlot := ⟨.free, {}, none⟩

structure ProcessTable where
  slots : Vector ProcessSlot procCount

namespace ProcessTable

/-- Every slot is free. -/
def empty : ProcessTable :=
  ⟨Vector.replicate procCount .unused⟩

/-- The slot `pid`, which has to exist. -/
def get (t : ProcessTable) (pid : Pid) : Except Halt ProcessSlot :=
  if h : pid < procCount then .ok t.slots[pid] else .error .badIndex

/-- The state of slot `pid`; free if there is no such slot. -/
def state (t : ProcessTable) (pid : Pid) : ProcessState :=
  if h : pid < procCount then t.slots[pid].state else .free

/-- The address space of slot `pid`, if it has one. -/
def table? (t : ProcessTable) (pid : Pid) : Option PageTable :=
  if h : pid < procCount then t.slots[pid].table else none

def set (t : ProcessTable) (pid : Pid) (p : ProcessSlot) : ProcessTable :=
  ⟨t.slots.setIfInBounds pid p⟩

def modify (t : ProcessTable) (pid : Pid) (f : ProcessSlot → ProcessSlot) : ProcessTable :=
  if h : pid < procCount then t.set pid (f t.slots[pid]) else t

def pids : List Pid := List.range procCount

/-- The slots in use. -/
def live (t : ProcessTable) : List Pid :=
  pids.filter fun pid => t.state pid ≠ .free

/-- The first free slot. Slot 0 is not looked at. -/
def firstFree (t : ProcessTable) : Option Pid :=
  (pids.drop 1).find? fun pid => t.state pid = .free

/-- The address spaces of the slots in use, with their slots. -/
def liveTables (t : ProcessTable) : List (Pid × PageTable) :=
  t.live.filterMap fun pid => (t.table? pid).map (pid, ·)

end ProcessTable

/-- The frames, the process table and the log. -/
structure Userland (n : Nat) where
  frames : Frames n
  procs : ProcessTable
  log : Log

/-- A computation on the userland that may halt. -/
abbrev UserlandM (n : Nat) := HaltM (Userland n)

namespace Userland

variable {n : Nat}

def onFrames {α : Type} (x : FramesM n α) : UserlandM n α := fun s =>
  match x s.frames with
  | .ok a frames => .ok a { s with frames }
  | .error e frames => .error e { s with frames }

def report (notice : Notice) : UserlandM n Unit :=
  modify fun s => { s with log := s.log.push notice }

/-- The slot `pid`, which has to exist. -/
def proc (pid : Pid) : UserlandM n ProcessSlot := do
  (← get).procs.get pid

def setProc (pid : Pid) (p : ProcessSlot) : UserlandM n Unit :=
  modify fun s => { s with procs := s.procs.set pid p }

/-- Give back the address space of process `pid` and make its slot free. -/
def reclaim (pid : Pid) : UserlandM n Unit := do
  match (← proc pid).table with
  | some table => onFrames table.destroy
  | none => pure ()
  setProc pid .unused

end Userland

end PagedKernel
