import PagedKernel.Machine.Registers

/-!
# Instructions

An instruction is eight bytes: the opcode, two registers `a` and `b`, a zero, and a signed 32-bit
immediate with its lowest byte first. `Instruction.encode` writes them and `Instruction.decode`
reads them; what `decode` refuses is undefined. The target of a branch is relative to the
instruction after it.

Key definitions: `Opcode`, `Instruction`, `Instruction.encode`, `Instruction.decode`.
-/

namespace PagedKernel

/-- The bytes in an instruction. -/
def instructionSize : Nat := 8

/-- What an instruction does. -/
inductive Opcode
  /-- Set `a` to the immediate. -/
  | movi
  /-- Set `a` to `b`. -/
  | mov
  /-- Add the immediate to `a`. -/
  | addi
  /-- Add `b` to `a`. -/
  | add
  /-- Set `a` to the word at `b` plus the immediate. -/
  | load
  /-- Set the word at `a` plus the immediate to `b`. -/
  | store
  /-- Set the byte at `a` plus the immediate to the low byte of `b`. -/
  | storeByte
  /-- Set `a` to the byte at `b` plus the immediate. -/
  | loadByte
  /-- Branch. -/
  | jmp
  /-- Branch if `a` is `b`. -/
  | jeq
  /-- Branch if `a` is not `b`. -/
  | jne
  /-- Branch if `a`, as a signed number, is less than `b`. -/
  | jlt
  /-- Subtract `b` from `a`. -/
  | sub
  /-- Enter the kernel. -/
  | syscall
deriving DecidableEq, Inhabited

namespace Opcode

/-- All opcodes, in the order of their codes. -/
def all : List Opcode :=
  [movi, mov, addi, add, load, store, storeByte, loadByte, jmp, jeq, jne, jlt, sub, syscall]

/-- The code of the opcode. There is none with code 14. -/
def code : Opcode → UInt8
  | movi => 1 | mov => 2 | addi => 3 | add => 4 | load => 5 | store => 6 | storeByte => 7
  | loadByte => 8 | jmp => 9 | jeq => 10 | jne => 11 | jlt => 12 | sub => 13 | syscall => 15

def ofCode? (v : UInt8) : Option Opcode :=
  all.find? fun op => op.code == v

def name : Opcode → String
  | movi => "Movi" | mov => "Mov" | addi => "Addi" | add => "Add" | load => "Load"
  | store => "Store" | storeByte => "StoreByte" | loadByte => "LoadByte" | jmp => "Jmp"
  | jeq => "Jeq" | jne => "Jne" | jlt => "Jlt" | sub => "Sub" | syscall => "Syscall"

/-- The code of an opcode gives the opcode back. -/
theorem ofCode?_code (op : Opcode) : ofCode? op.code = some op := by
  cases op <;> rfl

end Opcode

structure Instruction where
  op : Opcode
  a : Reg
  b : Reg
  imm : Int32
deriving DecidableEq, Inhabited

/-- The signed number `imm` as a word. -/
@[inline] def signExtend (imm : Int32) : UInt64 :=
  imm.toInt64.toUInt64

/-- The four bytes of an immediate, the lowest first. -/
def bytesOfImm (imm : Int32) : List UInt8 :=
  let w := imm.toUInt32
  [w.toUInt8, (w >>> 8).toUInt8, (w >>> 16).toUInt8, (w >>> 24).toUInt8]

/-- The immediate with these bytes, the lowest first. -/
def immOfBytes (b0 b1 b2 b3 : UInt8) : Int32 :=
  (b0.toUInt32 + b1.toUInt32 <<< 8 + b2.toUInt32 <<< 16 + b3.toUInt32 <<< 24).toInt32

namespace Instruction

def encode (i : Instruction) : List UInt8 :=
  [i.op.code, i.a.code, i.b.code, 0] ++ bytesOfImm i.imm

/-- The instruction with these bytes, if they are those of one. -/
def decode : List UInt8 → Option Instruction
  | [op, a, b, zero, b0, b1, b2, b3] =>
    if zero = 0 then do
      let op ← Opcode.ofCode? op
      let a ← Reg.ofCode? a
      let b ← Reg.ofCode? b
      return ⟨op, a, b, immOfBytes b0 b1 b2 b3⟩
    else none
  | _ => none

end Instruction

end PagedKernel
