import PagedKernel.Hexadecimal

/-!
# Traps and the registers they save

A user program runs until it traps. `Trap` lists the reasons, with the vector number of each, and
`Registers` is the state of the program that a trap saves: the general registers, where it was, and
the vector and error code of the trap.

Key definitions: `Trap`, `Trap.code`, `Trap.ofCode?`, `Registers`, `Reg`, `Registers.get`,
`Registers.set`.
-/

namespace PagedKernel

/-- Why a program stopped running: an exception, an interrupt or a system call. -/
inductive Trap
  | divideError
  | debug
  | nonMaskable
  | breakpoint
  | overflow
  | boundRange
  | invalidOpcode
  | deviceNotAvailable
  | doubleFault
  | generalProtection
  | pageFault
  | timer
  | syscall
deriving DecidableEq, Inhabited

namespace Trap

/-- All traps, in the order of their vectors. -/
def all : List Trap :=
  [divideError, debug, nonMaskable, breakpoint, overflow, boundRange, invalidOpcode,
    deviceNotAvailable, doubleFault, generalProtection, pageFault, timer, syscall]

/-- The vector of the trap. -/
def code : Trap → UInt8
  | divideError => 0
  | debug => 1
  | nonMaskable => 2
  | breakpoint => 3
  | overflow => 4
  | boundRange => 5
  | invalidOpcode => 6
  | deviceNotAvailable => 7
  | doubleFault => 8
  | generalProtection => 13
  | pageFault => 14
  | timer => 32
  | syscall => 48

def ofCode? (v : UInt8) : Option Trap :=
  all.find? fun t => t.code == v

def name : Trap → String
  | divideError => "DivideError"
  | debug => "Debug"
  | nonMaskable => "NonMaskableInterrupt"
  | breakpoint => "Breakpoint"
  | overflow => "OverflowException"
  | boundRange => "BoundRangeExceeded"
  | invalidOpcode => "InvalidOpcode"
  | deviceNotAvailable => "DeviceNotAvailable"
  | doubleFault => "DoubleFault"
  | generalProtection => "GeneralProtection"
  | pageFault => "PageFault"
  | timer => "Timer"
  | syscall => "Syscall"

/-- The vector of a trap gives the trap back. -/
theorem ofCode?_code (t : Trap) : ofCode? t.code = some t := by
  cases t <;> rfl

end Trap

/-- The general registers an instruction can name. -/
inductive Reg
  | rax | rcx | rdx | rbx | rsp | rbp | rsi | rdi
  | r8 | r9 | r10 | r11 | r12 | r13 | r14 | r15
deriving DecidableEq, Inhabited

namespace Reg

/-- All registers, in the order of their numbers. -/
def all : List Reg :=
  [rax, rcx, rdx, rbx, rsp, rbp, rsi, rdi, r8, r9, r10, r11, r12, r13, r14, r15]

/-- The number of the register in an instruction. -/
def code : Reg → UInt8
  | rax => 0 | rcx => 1 | rdx => 2 | rbx => 3 | rsp => 4 | rbp => 5 | rsi => 6 | rdi => 7
  | r8 => 8 | r9 => 9 | r10 => 10 | r11 => 11 | r12 => 12 | r13 => 13 | r14 => 14 | r15 => 15

def ofCode? (v : UInt8) : Option Reg :=
  all[v.toNat]?

def name : Reg → String
  | rax => "rax" | rcx => "rcx" | rdx => "rdx" | rbx => "rbx"
  | rsp => "rsp" | rbp => "rbp" | rsi => "rsi" | rdi => "rdi"
  | r8 => "r8" | r9 => "r9" | r10 => "r10" | r11 => "r11"
  | r12 => "r12" | r13 => "r13" | r14 => "r14" | r15 => "r15"

/-- The number of a register gives the register back. -/
theorem ofCode?_code (r : Reg) : ofCode? r.code = some r := by
  cases r <;> rfl

end Reg

/-- The saved state of a user program. -/
structure Registers where
  rax : UInt64 := 0
  rcx : UInt64 := 0
  rdx : UInt64 := 0
  rbx : UInt64 := 0
  rsp : UInt64 := 0
  rbp : UInt64 := 0
  rsi : UInt64 := 0
  rdi : UInt64 := 0
  r8 : UInt64 := 0
  r9 : UInt64 := 0
  r10 : UInt64 := 0
  r11 : UInt64 := 0
  r12 : UInt64 := 0
  r13 : UInt64 := 0
  r14 : UInt64 := 0
  r15 : UInt64 := 0
  /-- The vector of the last trap. -/
  vector : UInt8 := 0
  /-- The error code of the last page fault. -/
  errorCode : UInt64 := 0
  /-- The address of the next instruction. -/
  rip : UInt64 := 0
  /-- The code segment, whose low bits are the privilege level. -/
  cs : UInt16 := 0
  rflags : UInt64 := 0
  /-- The stack segment. -/
  ss : UInt16 := 0
deriving DecidableEq, Inhabited

namespace Registers

def get (s : Registers) : Reg → UInt64
  | .rax => s.rax | .rcx => s.rcx | .rdx => s.rdx | .rbx => s.rbx
  | .rsp => s.rsp | .rbp => s.rbp | .rsi => s.rsi | .rdi => s.rdi
  | .r8 => s.r8 | .r9 => s.r9 | .r10 => s.r10 | .r11 => s.r11
  | .r12 => s.r12 | .r13 => s.r13 | .r14 => s.r14 | .r15 => s.r15

def set (s : Registers) (r : Reg) (v : UInt64) : Registers :=
  match r with
  | .rax => { s with rax := v } | .rcx => { s with rcx := v }
  | .rdx => { s with rdx := v } | .rbx => { s with rbx := v }
  | .rsp => { s with rsp := v } | .rbp => { s with rbp := v }
  | .rsi => { s with rsi := v } | .rdi => { s with rdi := v }
  | .r8 => { s with r8 := v } | .r9 => { s with r9 := v }
  | .r10 => { s with r10 := v } | .r11 => { s with r11 := v }
  | .r12 => { s with r12 := v } | .r13 => { s with r13 := v }
  | .r14 => { s with r14 := v } | .r15 => { s with r15 := v }

theorem get_set (s : Registers) (r i : Reg) (v : UInt64) :
    (s.set r v).get i = if i = r then v else s.get i := by
  cases r <;> cases i <;> rfl

/-- The code segment of user programs, at privilege level 3. -/
def userCs : UInt16 := 0x1b

/-- The stack segment of user programs. -/
def userSs : UInt16 := 0x23

/-- The flags a user program starts with: interrupts enabled, and the bit that is always set. -/
def userRflags : UInt64 := 0x202

/-- The state of a program that is about to start at `rip` with its stack at `rsp`. -/
def starting (rip rsp : UInt64) : Registers where
  rip := rip
  rsp := rsp
  cs := userCs
  ss := userSs
  rflags := userRflags

/-- The last trap, if its vector is that of one. -/
def trap? (s : Registers) : Option Trap :=
  Trap.ofCode? s.vector

/-- The program ran at user privilege. -/
def isUser (s : Registers) : Bool :=
  s.cs &&& 3 == 3

/-- The privilege level the program ran at. The machine knows only levels 0 and 3. -/
def ring (s : Registers) : Nat :=
  if s.isUser then 3 else 0

/-- The state as it is shown, five lines long. -/
def text (s : Registers) : String :=
  let w := fun v : UInt64 => hexPadded 16 v.toNat
  s!"RAX: {w s.rax} | RBX: {w s.rbx}  | RCX: {w s.rcx} | RDX: {w s.rdx}\n" ++
  s!"RSI: {w s.rsi} | RDI: {w s.rdi}  | RBP: {w s.rbp} | RSP: {w s.rsp}\n" ++
  s!"R8 : {w s.r8} | R9 : {w s.r9}  | R10: {w s.r10} | R11: {w s.r11}\n" ++
  s!"R12: {w s.r12} | R13: {w s.r13}  | R14: {w s.r14} | R15: {w s.r15}\n" ++
  s!"RIP: {w s.rip} | RFLAGS: {w s.rflags} | VECTOR: {s.vector} | ERR: {hex s.errorCode.toNat}\n"

end Registers

end PagedKernel
