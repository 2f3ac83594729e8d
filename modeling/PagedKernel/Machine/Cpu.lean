import PagedKernel.Machine.Instruction
import PagedKernel.Machine.Timer
import PagedKernel.Machine.Walk

/-!
# The processor

The processor runs a user program out of the memory, through the page table with root `cr3` and
always at user privilege. A `Core` is all that an instruction can see or change. `Core.step`
attempts one instruction, and `Core.run` goes on until the program traps or the timer fires.

An instruction that faults changes nothing but the records of the fault: a store locates all of its
bytes before it writes the first. A system call is an instruction that has been completed.

Key definitions: `Core`, `Fault`, `Core.execute`, `Core.step`, `Core.run`.
-/

namespace PagedKernel

/-- What an instruction can see and change. -/
structure Core (n : Nat) where
  memory : Memory n
  regs : Registers
  /-- The root of the page table. -/
  cr3 : PhysAddr
  /-- The address of the last page fault. -/
  cr2 : UInt64

/-- Why an instruction could not be completed. -/
inductive Fault
  /-- The bytes at `rip` are no instruction. -/
  | undefined
  /-- An address is not canonical. -/
  | nonCanonical
  /-- An address is not mapped for the access. -/
  | page (addr code : UInt64)
deriving DecidableEq

/-- The trap that a fault raises. -/
def Fault.trap : Fault → Trap
  | undefined => .invalidOpcode
  | nonCanonical => .generalProtection
  | page _ _ => .pageFault

/-- A part of an instruction: it may fault, and it may halt the machine. -/
abbrev Attempt := ExceptT Fault (Except Halt)

namespace Core

variable {n : Nat}

/-- The physical address of `addr` for an access of the program. -/
def locate (c : Core n) (addr : UInt64) (access : Access) : Attempt PhysAddr := do
  match VirtAddr.ofWord? addr with
  | none => throw .nonCanonical
  | some va =>
    match ← c.memory.locate c.cr3 va access true with
    | .ok pa => return pa
    | .error code => throw (.page addr code)

/-- The `k` bytes from `addr` on, each located when its turn comes. Addresses wrap around. -/
def readBytes (c : Core n) (access : Access) : UInt64 → Nat → Attempt (List UInt8)
  | _, 0 => return []
  | addr, k + 1 => do
    let b ← c.memory.readByte (← c.locate addr access)
    return b :: (← c.readBytes access (addr + 1) k)

/-- The physical addresses of the `k` bytes from `addr` on, for a store. -/
def writeTargets (c : Core n) : UInt64 → Nat → Attempt (List PhysAddr)
  | _, 0 => return []
  | addr, k + 1 => do
    let pa ← c.locate addr .write
    return pa :: (← c.writeTargets (addr + 1) k)

/-- Write each byte at its address. -/
def writeAll (m : Memory n) : List (PhysAddr × UInt8) → Except Halt (Memory n)
  | [] => .ok m
  | (pa, v) :: rest => do writeAll (← m.writeByte pa v) rest

/-- Store the bytes `data` from `addr` on. Every byte is located before the first is written. -/
def store (c : Core n) (addr : UInt64) (data : List UInt8) : Attempt (Core n) := do
  let targets ← c.writeTargets addr data.length
  let memory ← writeAll c.memory (targets.zip data)
  return { c with memory }

/-- The word at `addr`. -/
def loadWord (c : Core n) (addr : UInt64) : Attempt UInt64 := do
  match ← c.readBytes .read addr 8 with
  | [b0, b1, b2, b3, b4, b5, b6, b7] => return wordOfBytes b0 b1 b2 b3 b4 b5 b6 b7
  | _ => return 0

def loadByte (c : Core n) (addr : UInt64) : Attempt UInt64 := do
  match ← c.readBytes .read addr 1 with
  | [b] => return b.toUInt64
  | _ => return 0

@[inline] def setReg (c : Core n) (r : Reg) (v : UInt64) : Core n :=
  { c with regs := c.regs.set r v }

@[inline] def jump (c : Core n) (rip : UInt64) : Core n :=
  { c with regs := { c.regs with rip } }

def fetch (c : Core n) : Attempt Instruction := do
  match Instruction.decode (← c.readBytes .execute c.regs.rip instructionSize) with
  | some i => return i
  | none => throw .undefined

/-- Complete the instruction `i`. -/
def complete (c : Core n) (i : Instruction) : Attempt (Core n) := do
  let a := c.regs.get i.a
  let b := c.regs.get i.b
  let imm := signExtend i.imm
  let next := c.regs.rip + 8
  let branch := fun (taken : Bool) => c.jump (if taken then next + imm else next)
  match i.op with
  | .movi => return (c.setReg i.a imm).jump next
  | .mov => return (c.setReg i.a b).jump next
  | .addi => return (c.setReg i.a (a + imm)).jump next
  | .add => return (c.setReg i.a (a + b)).jump next
  | .sub => return (c.setReg i.a (a - b)).jump next
  | .load => return (c.setReg i.a (← c.loadWord (b + imm))).jump next
  | .loadByte => return (c.setReg i.a (← c.loadByte (b + imm))).jump next
  | .store => return (← c.store (a + imm) (bytesOfWord b)).jump next
  | .storeByte => return (← c.store (a + imm) [b.toUInt8]).jump next
  | .jmp => return branch true
  | .jeq => return branch (a == b)
  | .jne => return branch (a != b)
  | .jlt => return branch (a.toInt64 < b.toInt64)
  | .syscall => return c.jump next

/-- Fetch an instruction and complete it. True if it was a system call. -/
def execute (c : Core n) : Attempt (Bool × Core n) := do
  let i ← c.fetch
  return (i.op == .syscall, ← c.complete i)

/-- The core with the records of a fault. Only a page fault leaves any. -/
def record (c : Core n) : Fault → Core n
  | .page addr code => { c with cr2 := addr, regs := { c.regs with errorCode := code } }
  | _ => c

/-- Attempt one instruction. The result is the trap it ended in, if any, and the core after it. -/
def step (c : Core n) : Except Halt (Option Trap × Core n) := do
  match ← c.execute.run with
  | .ok (true, c) => return (some .syscall, c)
  | .ok (false, c) => return (none, c)
  | .error fault => return (some fault.trap, c.record fault)

/-- Attempt up to `count` instructions; if none of them traps, the timer fires and starts over at
`quantum`. The result is the trap, the count left on the timer, and the core. -/
def runFor (quantum : Nat) : Nat → Core n → Except Halt (Trap × Nat × Core n)
  | 0, c => .ok (.timer, quantum, c)
  | count + 1, c => do
    match ← c.step with
    | (none, c) => runFor quantum count c
    | (some trap, c) => return (trap, count, c)

/-- Run the program until it traps. The trap is also recorded in the registers. -/
def run (c : Core n) (timer : Timer) : Except Halt (Trap × Core n × Timer) := do
  let (trap, count, c) ← runFor timer.quantum timer.count c
  let c := { c with regs := { c.regs with vector := trap.code } }
  return (trap, c, { timer with count })

end Core

end PagedKernel
