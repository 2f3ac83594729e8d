import PagedKernel.Audit
import PagedKernel.Machine.Cpu
import PagedKernel.MemoryMap
import PagedKernel.Process.Load

/-!
# The kernel and its start

A `Kernel` is the whole state: the frames, the processes and the log, the kernel's own page table,
the registers of the processor that outlive a trap, the timer, the clock, the process that ran last
and the viewer.

`Kernel.boot` builds the kernel's page table, which maps everything below the user region but the
null page at its own address, and loads the program asked for, or the default ones.

Key definitions: `Kernel`, `KernelM`, `buildKernelTable`, `Kernel.load`, `Kernel.boot`.
-/

namespace PagedKernel

/-- The state of the kernel and of the machine it runs on. -/
structure Kernel extends Userland physicalPages where
  /-- The page table of the kernel. -/
  table : PageTable
  /-- The root of the page table that the processor used last. -/
  cr3 : PhysAddr
  /-- The address of the last page fault. -/
  cr2 : UInt64
  timer : Timer
  /-- The timer interrupts so far, and one. -/
  ticks : Nat
  /-- The process that ran last. -/
  current : Pid
  viewer : Viewer

/-- A computation on the kernel that may halt. -/
abbrev KernelM := HaltM Kernel

/-- What to do once a trap is handled. -/
inductive Turn
  /-- Return to a process. -/
  | run (pid : Pid)
  /-- No process can run. -/
  | idle
deriving DecidableEq, Inhabited

/-- Map each of the pages from `addr` on, `k` of them, at its own address. The user may access the
console, and nothing else. -/
def mapReserved (t : PageTable) (addr : Nat) : Nat → FramesM physicalPages Unit
  | 0 => return ()
  | k + 1 => do
    let page ← Frames.claim ⟨UInt64.ofNat addr⟩
    let perm := if addr = consoleAddr then Permission.userData else .kernel
    match ← t.map ⟨UInt64.ofNat addr⟩ page perm with
    | .ok () => mapReserved t (addr + pageSize) k
    | .error cause => throw (.kernelMapFailed cause (UInt64.ofNat addr))

/-- The page table of the kernel. -/
def buildKernelTable : FramesM physicalPages PageTable := do
  match ← PageTable.new? with
  | none => throw .kernelTableOutOfMemory
  | some t =>
    mapReserved t pageSize (procStart / pageSize - 1)
    return t

namespace Kernel

def onUserland {α : Type} (x : UserlandM physicalPages α) : KernelM α := fun k =>
  match x k.toUserland with
  | .ok a s => .ok a { k with toUserland := s }
  | .error e s => .error e { k with toUserland := s }

def report (notice : Notice) : KernelM Unit :=
  onUserland (Userland.report notice)

/-- Load the program `name` into process `pid`. -/
def load (loader : Loader) (pid : Pid) (name : String) : KernelM Unit := do
  match loader name with
  | none => throw (.unknownProgram name)
  | some program => onUserland (Userland.load (← get).table pid program)

/-- The programs to start with, and a warning if the one asked for is unknown. -/
def bootPrograms (loader : Loader) : Option String → KernelM (List String)
  | none => return defaultPrograms
  | some name => do
    if (loader name).isSome then return [name]
    report (.unknownProgram name)
    return defaultPrograms

/-- Load the programs into the processes from `pid` on. -/
def loadAll (loader : Loader) (pid : Pid) : List String → KernelM Unit
  | [] => return ()
  | name :: rest => do
    load loader pid name
    loadAll loader (pid + 1) rest

/-- The kernel with no process, once its page table is built. -/
def start (s : Userland physicalPages) (table : PageTable) (timer : Timer) : Kernel where
  toUserland := s
  table := table
  cr3 := ⟨0⟩
  cr2 := 0
  timer := timer
  ticks := 1
  current := 0
  viewer := {}

/-- Start the system and build the kernel's page table. -/
def startUserland : UserlandM physicalPages Kernel := do
  Userland.report .booting
  let table ← Userland.onFrames buildKernelTable
  let timer ← Timer.ofRate timerRate
  return start (← get) table timer

/-- Boot the kernel with the program `command`. On a halt, what is left is its cause and the log. -/
def boot (loader : Loader) (command : Option String) : Except (Halt × Log) Kernel :=
  match startUserland ⟨Frames.fresh physicalPages, .empty, #[]⟩ with
  | .error e s => .error (e, s.log)
  | .ok kernel _ =>
    match (do loadAll loader 1 (← bootPrograms loader command) : KernelM Unit) kernel with
    | .error e kernel => .error (e, kernel.log)
    | .ok () kernel => .ok kernel

/-- The `len` bytes of process `pid` from `addr` on, as far as they are mapped. True if all are. -/
def readProcess (k : Kernel) (pid : Pid) (addr : UInt64) (len : Nat) :
    Except Halt (Bool × List UInt8) := do
  match (← k.procs.get pid).table with
  | none => return (false, [])
  | some t =>
    let bytes ← t.readBytes k.frames.memory (← VirtAddr.ofWord addr) len
    return (bytes.length == len, bytes)

end Kernel

end PagedKernel
