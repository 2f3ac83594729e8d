import PagedKernel.Layout
import PagedKernel.Machine.Assembler
import PagedKernel.Process.Program
import PagedKernel.Process.SystemCall

/-!
# The bundled programs

The programs that come with the kernel are written for the assembler, and talk to the kernel through
system calls alone. Most of them allocate the memory between their text and the stack page by page.
While they do, `r12` holds the process identifier, `rbx` the next page, `r13` the stack page, `r14`
the size of a page and `r15` zero.

Key definitions: `textStart`, `heapStart`, `allocator`, `programNames`, `bundled`.
-/

namespace PagedKernel

/-- The address of the text of the `n`-th program. They are 256 KiB apart. -/
def textStart (n : UInt64) : Except Halt UInt64 := do
  Word.add (UInt64.ofNat procStart) (← Word.mul n 0x40000)

/-- The address of the first heap page of a program with its text at `text`. -/
def heapStart (text : UInt64) : Except Halt UInt64 :=
  Word.add text (UInt64.ofNat pageSize)

/-- A text under construction. -/
abbrev Text := StateT Assembler (Except Halt)

namespace Text

/-- Append instructions. -/
def put (f : Assembler → Assembler) : Text Unit :=
  modify f

def newLabel : Text Label :=
  modifyGet Assembler.newLabel

def bind (l : Label) : Text Unit := do
  set (← (← get).bind l)

/-- A new label, bound here. -/
def labelHere : Text Label := do
  let l ← newLabel
  bind l
  return l

/-- The word `v` as an immediate, if it is one. -/
def imm (v : UInt64) : Except Halt Int32 :=
  if v.toNat < 1 <<< 31 then .ok v.toUInt32.toInt32 else .error (.immediateTooLarge v)

/-- Set a register to a word. -/
def movi (dst : Reg) (v : UInt64) : Text Unit := do
  let v ← imm v
  put (·.movi dst v)

def call (c : SystemCall) : Text Unit := do
  movi .rax c.number
  put (·.syscall)

/-- A system call with an argument. -/
def callWith (c : SystemCall) (arg : Reg) : Text Unit := do
  put (·.mov .rdi arg)
  call c

/-- The registers of an allocator whose heap starts at `heap`. -/
def allocatorRegisters (heap : UInt64) : Text Unit := do
  call .getpid
  put (·.mov .r12 .rax)
  movi .rbx heap
  movi .r13 (UInt64.ofNat stackPage)
  movi .r14 (UInt64.ofNat pageSize)
  movi .r15 0

/-- Allocate the pages from the top of the heap up to the stack, write the identifier into each, and
yield `yields` times after each. It ends at `done`: at the stack, at the first failure, or after
`limit` pages. -/
def allocatePages (yields : Nat) (limit : Option UInt64) (done : Label) : Text Unit := do
  if let some limit := limit then movi .r11 limit
  let top ← labelHere
  put (·.jeq .rbx .r13 done)
  if limit.isSome then put fun t => (t.jeq .r11 .r15 done).addi .r11 (-1)
  callWith (.pageAlloc 0) .rbx
  put fun t => ((t.jne .rax .r15 done).store .rbx 0 .r12).add .rbx .r14
  (List.range yields).forM fun _ => call .yield
  put (·.jmp top)

/-- Yield for ever. -/
def yieldForever : Text Unit := do
  let top ← labelHere
  call .yield
  put (·.jmp top)

/-- The program whose text, at `text`, is what `x` builds. -/
def program (name : String) (text : UInt64) (x : Text Unit) : Except Halt Program := do
  let (_, t) ← x.run {}
  let data ← t.finish
  if pageSize < data.length then throw (.textTooLong name)
  return ⟨name, text, [⟨text, UInt64.ofNat pageSize, data, false⟩]⟩

end Text

open Text

/-- Allocate the heap, yielding `n` times between two pages, and then yield for ever. The text is
that of program `n - 1`. -/
def allocator (name : String) (n : UInt64) : Except Halt Program := do
  let text ← textStart (← Word.sub n 1)
  let heap ← heapStart text
  program name text do
    let done ← newLabel
    allocatorRegisters heap
    allocatePages n.toNat none done
    bind done
    yieldForever

/-- Fork twice, and allocate in all four processes. -/
def forkProgram : Except Halt Program := do
  let text ← textStart 0
  let heap ← heapStart text
  program "fork" text do
    let done ← newLabel
    call .fork
    call .fork
    allocatorRegisters heap
    allocatePages 1 none done
    bind done
    yieldForever

/-- Fork for ever. Each child allocates a few pages and ends. -/
def forkExit : Except Halt Program := do
  let text ← textStart 0
  let heap ← heapStart text
  program "forkexit" text do
    let top ← newLabel
    let child ← newLabel
    let done ← newLabel
    movi .r15 0
    bind top
    call .fork
    put (·.jeq .rax .r15 child)
    call .yield
    put (·.jmp top)
    bind child
    allocatorRegisters heap
    allocatePages 1 (some 3) done
    bind done
    call .exit

/-- Fork for ever, in every process. -/
def forkBomb : Except Halt Program := do
  program "forkbomb" (← textStart 0) do
    let top ← labelHere
    call .fork
    call .yield
    put (·.jmp top)

/-- Read the null page. -/
def nullDeref : Except Halt Program := do
  program "null_deref" (← textStart 0) do
    movi .rbx 0
    put (·.load .rax .rbx 0)
    yieldForever

/-- Write to the text. -/
def textWrite : Except Halt Program := do
  let text ← textStart 0
  program "text_write" text do
    movi .rbx text
    movi .rcx 0x41
    put (·.storeByte .rbx 0 .rcx)
    yieldForever

/-- Write the identifier to the console, then put a page of its own there and write again. -/
def consoleProgram : Except Halt Program := do
  program "console" (← textStart 0) do
    call .getpid
    put (·.mov .r12 .rax)
    movi .rbx (UInt64.ofNat consoleAddr)
    put (·.store .rbx 0 .r12)
    callWith (.pageAlloc 0) .rbx
    put (·.store .rbx 8 .r12)
    yieldForever

/-- The bundled programs by their names. -/
def bundledPrograms : List (String × Except Halt Program) :=
  [("allocator", allocator "allocator" 1), ("allocator2", allocator "allocator2" 2),
    ("allocator3", allocator "allocator3" 3), ("allocator4", allocator "allocator4" 4),
    ("fork", forkProgram), ("forkexit", forkExit), ("forkbomb", forkBomb),
    ("null_deref", nullDeref), ("text_write", textWrite), ("console", consoleProgram)]

def programNames : List String :=
  bundledPrograms.map (·.1)

/-- The bundled program of a name, if there is one. -/
def bundled : Loader := fun name => do
  let entry ← bundledPrograms.find? fun p => p.1 == name
  entry.2.toOption

end PagedKernel
