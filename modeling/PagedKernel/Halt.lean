import PagedKernel.Failure
import PagedKernel.Machine.Entry

/-!
# Halts

A halt ends everything: the kernel found a state in which nothing it does can be trusted, a user
program asked for it, or the machine met an access it cannot perform. `Halt` has one case for each
cause and `Halt.report` says what is reported. A computation over a state that may halt is a
`HaltM`; it keeps the state in which it halted.

Words are 64 bits wide and the kernel's arithmetic on them is checked: `Word.add`, `Word.sub` and
`Word.mul` halt where the result does not fit, and so do `PhysAddr.add` and its relatives.

Key definitions: `Halt`, `Halt.report`, `HaltM`, `Word.add`, `VirtAddr.ofWord`.
-/

namespace PagedKernel

/-- The causes of a halt. -/
inductive Halt
  /-- A number does not fit its type. -/
  | overflow
  /-- There is no page, slot or label with this number. -/
  | badIndex
  /-- A condition of an operation does not hold. -/
  | assertion
  /-- An address of an address space is not canonical. -/
  | nonCanonical
  /-- `len` bytes from `pa` on are not all in memory. -/
  | machineCheck (pa : PhysAddr) (len : Nat)
  /-- A page with several references was to be forced free. -/
  | freeOfShared (pa : PhysAddr)
  /-- One more reference to a page that is free. -/
  | shareOfFree (pa : PhysAddr)
  /-- One reference less to a page that is free. -/
  | releaseOfFree (pa : PhysAddr)
  /-- A page that the allocator hands out was claimed. -/
  | notReserved (pa : PhysAddr)
  /-- A page was claimed twice. -/
  | alreadyClaimed (pa : PhysAddr)
  /-- A mapping that may not fail did. -/
  | mapFailed (va : VirtAddr) (cause : MapError)
  /-- A label was bound twice. -/
  | labelBoundTwice
  /-- A branch names a label that is bound nowhere. -/
  | unboundLabel (label : Nat)
  /-- A number does not fit the immediate of an instruction. -/
  | immediateTooLarge (value : UInt64)
  /-- The text of a program does not fit a page. -/
  | textTooLong (program : String)
  /-- There is no program of this name. -/
  | unknownProgram (name : String)
  /-- A program was to be loaded into a process that can run. -/
  | loadOverRunnable (pid : Nat)
  /-- A segment lies outside of the user region. -/
  | segmentOutside (program : String) (va size : UInt64)
  /-- No page is left for a segment or the stack. -/
  | loadOutOfMemory (program : String)
  /-- The address space of a program could not be built. -/
  | loadFailed (program : String) (cause : MapError)
  /-- A page of a segment could not be mapped. -/
  | loadFailedAt (program : String) (cause : MapError) (va : VirtAddr)
  /-- The kernel's own page table could not be started. -/
  | kernelTableOutOfMemory
  /-- The kernel's own page table could not be filled. -/
  | kernelMapFailed (cause : MapError) (addr : UInt64)
  /-- The process to duplicate has no address space. -/
  | forkWithoutSpace (pid : Nat)
  /-- The process that asks for a page has no address space. -/
  | callWithoutSpace (pid : Nat)
  /-- The process to run cannot run. -/
  | notRunnable (pid : Nat)
  /-- The process to run has no address space. -/
  | runWithoutSpace (pid : Nat)
  /-- A page of the kernel is mapped differently in a process. -/
  | tableDiffers (va : VirtAddr)
  /-- A process maps an address below the user region that the kernel does not. -/
  | unexpectedMapping (va : VirtAddr)
  /-- A process lacks a mapping of the kernel. -/
  | missingMapping (va : VirtAddr)
  /-- A process maps the null page. -/
  | nullMapped
  /-- A process cannot write the console. -/
  | consoleNotWritable (flags : Flags)
  /-- A page has `count` references on record, but the tables hold `held`. -/
  | countDiffers (pageNumber count held : Nat)
  /-- The kernel itself met a page fault. -/
  | kernelPageFault (addr : UInt64) (write isPresent : Bool) (rip : UInt64)
  /-- An exception that the kernel does not handle. -/
  | unexpectedException (vector : Nat)
  /-- A system call of an unknown number. -/
  | unexpectedSyscall (number : UInt64)
  /-- A process asked the kernel to halt. -/
  | processPanicked (pid : Nat)
deriving DecidableEq

/-- What is reported of a halt: a message, or only of which kind it is. -/
inductive Report
  | message (text : String)
  | assertion
  | overflow
  | index
deriving DecidableEq

/-- How the access of a page fault is described. -/
def faultOperation (write : Bool) : String :=
  if write then "write" else "read"

/-- How the problem of a page fault is described. -/
def faultProblem (isPresent : Bool) : String :=
  if isPresent then "protection problem" else "missing page"

def Halt.report : Halt → Report
  | overflow => .overflow
  | badIndex => .index
  | assertion => .assertion
  | nonCanonical => .message "non-canonical address"
  | machineCheck pa len =>
    .message s!"machine check: physical access {pa.text}+{hex len} out of range"
  | freeOfShared pa => .message s!"free of shared page {pa.text}"
  | shareOfFree pa => .message s!"share of free page {pa.text}"
  | releaseOfFree pa => .message s!"release of free page {pa.text}"
  | notReserved pa => .message s!"{pa.text} is not reserved"
  | alreadyClaimed pa => .message s!"{pa.text} already claimed"
  | mapFailed va cause => .message s!"failed to map {va.text}: {cause.name}"
  | labelBoundTwice => .message "label bound twice"
  | unboundLabel label => .message s!"unbound label Label({label})"
  | immediateTooLarge value => .message s!"immediate {hex value.toNat} does not fit"
  | textTooLong program => .message s!"{program}: text does not fit a page"
  | unknownProgram name => .message s!"process_setup: unknown program {name}"
  | loadOverRunnable pid => .message s!"process_setup: process {pid} is runnable"
  | segmentOutside program va size =>
    let segment := s!"segment {hex va.toNat}+{hex size.toNat}"
    .message s!"process_setup: {program}: {segment} outside of the user region"
  | loadOutOfMemory program => .message s!"process_setup: {program}: out of memory"
  | loadFailed program cause => .message s!"process_setup: {program}: {cause.name}"
  | loadFailedAt program cause va =>
    .message s!"process_setup: {program}: {cause.name} at {va.text}"
  | kernelTableOutOfMemory => .message "kernel_pagetable: out of memory"
  | kernelMapFailed cause addr =>
    .message s!"kernel_pagetable: {cause.name} at {hex addr.toNat}"
  | forkWithoutSpace pid => .message s!"fork: process {pid} has no address space"
  | callWithoutSpace pid => .message s!"syscall: process {pid} has no address space"
  | notRunnable pid => .message s!"run: process {pid} is not runnable"
  | runWithoutSpace pid => .message s!"run: process {pid} has no address space"
  | tableDiffers va => .message s!"check_pagetable: {va.text} differs from the kernel mapping"
  | unexpectedMapping va => .message s!"check_pagetable: unexpected mapping at {va.text}"
  | missingMapping va => .message s!"check_pagetable: kernel mapping {va.text} missing"
  | nullMapped => .message "check_pagetable: null page is mapped"
  | consoleNotWritable flags =>
    .message s!"check_pagetable: console is not user-writable ({flags.text})"
  | countDiffers pageNumber count held =>
    let page := hex (pageNumber * pageSize)
    .message
      s!"check_virtual_memory: page {page} has refcount {count} but {held} references"
  | kernelPageFault addr write isPresent rip =>
    let how := s!"{faultOperation write} {faultProblem isPresent}"
    .message s!"Kernel page fault for {hex addr.toNat} ({how}, rip={hex rip.toNat})!"
  | unexpectedException vector => .message s!"Unexpected exception {vector}!"
  | unexpectedSyscall number => .message s!"Unexpected system call {number.toNat}!"
  | processPanicked pid => .message s!"process {pid} panicked"

/-- A computation on a state `σ` that may halt, and then keeps the state it halted in. -/
abbrev HaltM (σ : Type) := EStateM Halt σ

/-- A computation without a state runs on any state and leaves it alone. -/
instance {σ : Type} : MonadLift (Except Halt) (EStateM Halt σ) where
  monadLift x := fun s =>
    match x with
    | .ok a => .ok a s
    | .error e => .error e s

/-! ### Checked arithmetic -/

namespace Word

/-- The sum of two words, if it is one. -/
@[inline] def add (a b : UInt64) : Except Halt UInt64 :=
  if a.toNat + b.toNat < UInt64.size then .ok (a + b) else .error .overflow

@[inline] def sub (a b : UInt64) : Except Halt UInt64 :=
  if b ≤ a then .ok (a - b) else .error .overflow

@[inline] def mul (a b : UInt64) : Except Halt UInt64 :=
  if a.toNat * b.toNat < UInt64.size then .ok (a * b) else .error .overflow

/-- The least multiple of `align` that is at least `addr`, for `align` a power of two. The sum it
starts from has to fit a word. -/
def alignUp (addr align : UInt64) : Except Halt UInt64 := do
  let last ← sub (← add addr align) 1
  let mask ← sub align 1
  return last &&& ~~~mask

/-- The greatest multiple of `align` that is at most `addr`, for `align` a power of two. -/
def alignDown (addr align : UInt64) : Except Halt UInt64 := do
  let mask ← sub align 1
  return addr &&& ~~~mask

end Word

@[inline] def PhysAddr.add (pa : PhysAddr) (n : UInt64) : Except Halt PhysAddr :=
  (Word.add pa.val n).map (⟨·⟩)

def PhysAddr.sub (pa : PhysAddr) (n : UInt64) : Except Halt PhysAddr :=
  (Word.sub pa.val n).map (⟨·⟩)

@[inline] def VirtAddr.add (va : VirtAddr) (n : UInt64) : Except Halt VirtAddr :=
  (Word.add va.val n).map (⟨·⟩)

def VirtAddr.sub (va : VirtAddr) (n : UInt64) : Except Halt VirtAddr :=
  (Word.sub va.val n).map (⟨·⟩)

/-- The virtual address `a`, which has to be canonical. -/
def VirtAddr.ofWord (a : UInt64) : Except Halt VirtAddr :=
  match VirtAddr.ofWord? a with
  | some va => .ok va
  | none => .error .nonCanonical

/-- The slot of `va` in the table of any level whose bits a word has. -/
def VirtAddr.indexChecked (va : VirtAddr) (level : Nat) : Except Halt Nat :=
  if 12 + 9 * level < 64 then .ok (va.index level) else .error .overflow

end PagedKernel
