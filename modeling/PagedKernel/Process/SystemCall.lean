import PagedKernel.AddressSpace.PageTable
import PagedKernel.Machine.Registers

/-!
# System calls

A process asks for a system call by its number in `rax`, with an argument in `rdi`; the result comes
back in `rax`, and a failure is the greatest word. `SystemCall.ofRegisters?` reads the request, and
`pageAlloc` is the call that gives a process a page.

Key definitions: `SystemCall`, `SystemCall.ofRegisters?`, `resultWord`, `pageAlloc`.
-/

namespace PagedKernel

variable {n : Nat}

/-- What a process can ask for. -/
inductive SystemCall
  /-- Its own identifier. -/
  | getpid
  /-- To let another process run. -/
  | yield
  /-- To halt the kernel. -/
  | panic
  /-- A fresh page of zeros at `addr`. -/
  | pageAlloc (addr : UInt64)
  /-- A child that is a copy of it. -/
  | fork
  /-- To end. -/
  | exit
deriving DecidableEq

namespace SystemCall

def number : SystemCall → UInt64
  | getpid => 1
  | yield => 2
  | panic => 3
  | pageAlloc _ => 4
  | fork => 5
  | exit => 6

/-- The call with a number and an argument. -/
def ofNumber? (number argument : UInt64) : Option SystemCall :=
  [getpid, yield, panic, pageAlloc argument, fork, exit].find? fun c => c.number == number

/-- The call that the saved registers ask for, if its number is known. -/
def ofRegisters? (regs : Registers) : Option SystemCall :=
  ofNumber? regs.rax regs.rdi

def text : SystemCall → String
  | getpid => "Getpid"
  | yield => "Yield"
  | panic => "Panic"
  | pageAlloc addr => "PageAlloc \x7b addr: " ++ toString addr.toNat ++ " \x7d"
  | fork => "Fork"
  | exit => "Exit"

end SystemCall

/-- The word that tells a process of a failure. -/
def callFailed : UInt64 := 0xffffffffffffffff

/-- What a process gets back of the result of a call. -/
def resultWord {ε : Type} : Except ε UInt64 → UInt64
  | .ok v => v
  | .error _ => callFailed

/-- Map a fresh page of zeros at `addr`, which has to be a page of the user region or the console.
The page that was mapped there before is released. -/
def pageAlloc (t : PageTable) (addr : UInt64) : FramesM n (Except PageAllocError Unit) := do
  if addr.toNat % pageSize ≠ 0 then return .error .unaligned
  if (addr.toNat < procStart ∨ virtualSize ≤ addr.toNat) ∧ addr.toNat ≠ consoleAddr then
    return .error .outOfRange
  match ← Frames.allocZeros with
  | none => return .error .outOfMemory
  | some page =>
    match ← t.replace ⟨addr⟩ page .userData with
    | .error cause => return .error (.ofMapError cause)
    | .ok none => return .ok ()
    | .ok (some old) =>
      Frames.release old
      return .ok ()

end PagedKernel
