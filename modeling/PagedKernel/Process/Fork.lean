import PagedKernel.Process.Load

/-!
# Duplicating a process

The child of a process gets an address space with the same mappings. A page that the user can write
is copied, and so is the console; every other page is shared. The child is a copy of the parent in
all else but what the system call returns. If there is not enough memory nothing is left of the
child.

Key definitions: `isCopied`, `copyMappings`, `Userland.fork`.
-/

namespace PagedKernel

variable {n : Nat}

/-- A page mapped at `va` with `perm` is copied for a child, not shared. -/
def isCopied (va : UInt64) (perm : Permission) : Bool :=
  (perm.write && perm.user) || va.toNat == consoleAddr

/-- A page for a child with what the parent has mapped at `va` by the leaf `e`. -/
def childPage (va : VirtAddr) (e : Entry) : FramesM n (Option FrameRef) := do
  if isCopied va.val (.ofFlags e.flags) then
    match ← Frames.alloc pageSize with
    | some page =>
      Frames.modifyMemory (·.copyPage page.pa e.addr)
      return some page
    | none => return none
  else return some (← Frames.share e.addr)

/-- Fill the page table `t` of a child with the mappings of its parent. False if the memory runs
out. -/
def copyMappings (t : PageTable) : List Mapping → FramesM n Bool
  | [] => return true
  | (va, e) :: rest => do
    match ← childPage va e with
    | none => return false
    | some page =>
      match ← (t.cursor va).install page (.ofFlags e.flags) with
      | .ok _ => copyMappings t rest
      | .error _ => return false

/-- A copy of the address space `parent`, or nothing if the memory runs out. -/
def copySpace (parent : PageTable) : FramesM n (Option PageTable) := do
  let mappings ← Frames.read (parent.mappings · 0 virtualSize)
  match ← PageTable.new? with
  | none => return none
  | some t =>
    if ← copyMappings t mappings then return some t
    else
      t.destroy
      return none

/-- Duplicate process `parent`. The result is the child, which is able to run. -/
def Userland.fork (parent : Pid) : UserlandM n (Except ForkError Pid) := do
  match (← get).procs.firstFree with
  | none => return .error .noFreeSlot
  | some child =>
    let p ← proc parent
    match p.table with
    | none => throw (.forkWithoutSpace parent)
    | some parentTable =>
      match ← onFrames (copySpace parentTable) with
      | none => return .error .outOfMemory
      | some table =>
        setProc child ⟨.runnable, { p.regs with rax := 0 }, some table⟩
        report (.forked parent child)
        return .ok child

end PagedKernel
