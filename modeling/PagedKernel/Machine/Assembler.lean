import PagedKernel.Halt
import PagedKernel.Machine.Instruction

/-!
# The assembler

A program text is built instruction by instruction. A branch names a label, which may be bound
before or after it; until the text is finished its immediate is zero, and the assembler keeps a
note of where it stands. `Assembler.finish` goes through the notes and puts the distance from the
instruction after the branch to the place where the label is bound into each immediate. It halts on
the first branch to a label that is bound nowhere.

Key definitions: `Label`, `Assembler`, `Assembler.bind`, `Assembler.finish`.
-/

namespace PagedKernel

/-- The target of a branch. -/
structure Label where
  index : Nat
deriving DecidableEq, Inhabited

/-- A program text under construction. -/
structure Assembler where
  /-- The bytes of the instructions so far. The immediates of branches are still zero. -/
  code : List UInt8 := []
  /-- For each label, the offset at which it is bound. -/
  labels : Array (Option Nat) := #[]
  /-- The offset of each branch so far, and the label that it names. -/
  branches : Array (Nat × Label) := #[]
deriving Inhabited

namespace Assembler

/-- The offset of the next instruction. -/
def here (t : Assembler) : Nat :=
  t.code.length

/-- A new label, which is bound nowhere. -/
def newLabel (t : Assembler) : Label × Assembler :=
  (⟨t.labels.size⟩, { t with labels := t.labels.push none })

/-- A text with `k` labels, none of them bound. -/
def withLabels (k : Nat) : Assembler :=
  { labels := Array.replicate k none }

/-- Bind a label to the next instruction. A label is bound once. -/
def bind (t : Assembler) (l : Label) : Except Halt Assembler :=
  match t.labels[l.index]? with
  | none => .error .badIndex
  | some (some _) => .error .labelBoundTwice
  | some none => .ok { t with labels := t.labels.setIfInBounds l.index (some t.here) }

/-- Append an instruction with an immediate. -/
def emit (t : Assembler) (op : Opcode) (a b : Reg) (imm : Int32) : Assembler :=
  { t with code := t.code ++ Instruction.encode ⟨op, a, b, imm⟩ }

def branch (t : Assembler) (op : Opcode) (a b : Reg) (target : Label) : Assembler :=
  { t with branches := t.branches.push (t.here, target) }.emit op a b 0

/-! ### The instructions -/

def movi (t : Assembler) (dst : Reg) (imm : Int32) : Assembler := t.emit .movi dst .rax imm
def mov (t : Assembler) (dst src : Reg) : Assembler := t.emit .mov dst src 0
def addi (t : Assembler) (dst : Reg) (imm : Int32) : Assembler := t.emit .addi dst .rax imm
def add (t : Assembler) (dst src : Reg) : Assembler := t.emit .add dst src 0
def sub (t : Assembler) (dst src : Reg) : Assembler := t.emit .sub dst src 0

/-- Load the word at `base + off`. -/
def load (t : Assembler) (dst base : Reg) (off : Int32) : Assembler := t.emit .load dst base off

/-- Store a word at `base + off`. -/
def store (t : Assembler) (base : Reg) (off : Int32) (src : Reg) : Assembler :=
  t.emit .store base src off

def loadByte (t : Assembler) (dst base : Reg) (off : Int32) : Assembler :=
  t.emit .loadByte dst base off

def storeByte (t : Assembler) (base : Reg) (off : Int32) (src : Reg) : Assembler :=
  t.emit .storeByte base src off

def jmp (t : Assembler) (target : Label) : Assembler := t.branch .jmp .rax .rax target
def jeq (t : Assembler) (a b : Reg) (target : Label) : Assembler := t.branch .jeq a b target
def jne (t : Assembler) (a b : Reg) (target : Label) : Assembler := t.branch .jne a b target
def jlt (t : Assembler) (a b : Reg) (target : Label) : Assembler := t.branch .jlt a b target
def syscall (t : Assembler) : Assembler := t.emit .syscall .rax .rax 0

/-! ### The finished text -/

/-- The distance from the end of the instruction at `offset` to the offset `target`, cut to the
32 bits of an immediate. -/
def displacement (offset target : Nat) : Int32 :=
  Int32.ofInt ((target : Int) - ((offset : Int) + instructionSize))

/-- The text `code` with `imm` as the immediate of the instruction at `offset`. -/
def putImm (code : List UInt8) (offset : Nat) (imm : Int32) : List UInt8 :=
  code.take (offset + 4) ++ bytesOfImm imm ++ code.drop (offset + instructionSize)

/-- The text `code` with the label of one branch resolved. -/
def resolve (t : Assembler) (code : List UInt8) (branch : Nat × Label) :
    Except Halt (List UInt8) :=
  match t.labels[branch.2.index]? with
  | none => .error .badIndex
  | some none => .error (.unboundLabel branch.2.index)
  | some (some target) => .ok (putImm code branch.1 (displacement branch.1 target))

/-- The bytes of the text, every label resolved. -/
def finish (t : Assembler) : Except Halt (List UInt8) :=
  t.branches.toList.foldlM t.resolve t.code

end Assembler

end PagedKernel
