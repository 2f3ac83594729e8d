import PagedKernel.Kernel.Basic
import PagedKernel.Process.Fork
import PagedKernel.Process.Schedule
import PagedKernel.Process.SystemCall

/-!
# Handling a trap

Every trap first saves the registers of the process that ran. A timer interrupt moves the clock on
and lets the scheduler choose. A page fault of a user program breaks its process, which keeps its
memory and never runs again; every other exception halts. A system call is carried out, and the
process goes on if it still can.

Key definitions: `Kernel.schedule`, `Kernel.exception`, `Kernel.syscall`.
-/

namespace PagedKernel
namespace Kernel

/-- Choose the process to run after the current one. -/
def schedule : KernelM Turn := do
  let k ← get
  match ← k.procs.nextRunnable k.current with
  | some pid => return .run pid
  | none => return .idle

def modifyProc (pid : Pid) (f : ProcessSlot → ProcessSlot) : KernelM Unit :=
  onUserland (modify fun s => { s with procs := s.procs.modify pid f })

def save (regs : Registers) : KernelM Unit := do
  modifyProc (← get).current fun p => { p with regs }

/-- Put the result of a system call into the saved registers of a process. -/
def setResult (pid : Pid) (v : UInt64) : KernelM Unit :=
  modifyProc pid fun p => { p with regs := { p.regs with rax := v } }

/-- Return to the current process if it can run, else to whichever is next. -/
def resume : KernelM Turn := do
  let k ← get
  if k.procs.state k.current = .runnable then return .run k.current else schedule

def updateViewer : KernelM Unit := do
  let k ← get
  let viewer ← onUserland (k.viewer.update k.ticks k.table)
  modify fun k => { k with viewer }

/-- Move the clock on by one and acknowledge the interrupt. -/
def tick : KernelM Unit := do
  if (← get).ticks + 1 < UInt64.size then
    modify fun k => { k with ticks := k.ticks + 1, timer := k.timer.ack }
  else throw .overflow

/-- Handle a timer interrupt: the clock moves on, and the scheduler chooses. -/
def timerInterrupt : KernelM Turn := do
  tick
  schedule

/-- Handle a page fault. A fault of the kernel itself halts. -/
def pageFault (regs : Registers) : KernelM Turn := do
  let k ← get
  let write := regs.errorCode &&& faultWrite != 0
  let isPresent := regs.errorCode &&& faultPresent != 0
  if regs.errorCode &&& faultUser == 0 then
    throw (.kernelPageFault k.cr2 write isPresent regs.rip)
  report (.pageFault k.current k.cr2 write isPresent regs.rip)
  modifyProc k.current fun p => { p with state := .broken }
  resume

/-- The viewer looks at the clock, unless the kernel itself met a page fault. -/
def viewException (regs : Registers) : KernelM Unit :=
  if regs.trap? = some .pageFault ∧ regs.errorCode &&& faultUser = 0 then return ()
  else updateViewer

/-- Handle an exception or an interrupt of the current process. -/
def exception (regs : Registers) : KernelM Turn := do
  save regs
  viewException regs
  match regs.trap? with
  | some .timer => timerInterrupt
  | some .pageFault => pageFault regs
  | _ => throw (.unexpectedException regs.vector.toNat)

/-- Give process `pid` a page at `addr`. The result is for the process. -/
def callPageAlloc (pid : Pid) (addr : UInt64) : KernelM UInt64 := do
  match (← get).procs.table? pid with
  | none => throw (.callWithoutSpace pid)
  | some t =>
    return resultWord ((← onUserland (Userland.onFrames (pageAlloc t addr))).map fun _ => 0)

/-- Duplicate process `pid`. The result is for the process. -/
def callFork (pid : Pid) : KernelM UInt64 := do
  match ← onUserland (Userland.fork pid) with
  | .ok child => return UInt64.ofNat child
  | .error cause =>
    report (.forkFailed pid cause)
    return callFailed

def syscall (regs : Registers) : KernelM Turn := do
  save regs
  updateViewer
  let pid := (← get).current
  match SystemCall.ofRegisters? regs with
  | none => throw (.unexpectedSyscall regs.rax)
  | some .panic => throw (.processPanicked pid)
  | some .getpid =>
    setResult pid (UInt64.ofNat pid)
    resume
  | some .yield =>
    setResult pid 0
    schedule
  | some (.pageAlloc addr) =>
    setResult pid (← callPageAlloc pid addr)
    resume
  | some .fork =>
    setResult pid (← callFork pid)
    resume
  | some .exit =>
    onUserland (Userland.reclaim pid)
    report (.exited pid)
    schedule

end Kernel
end PagedKernel
