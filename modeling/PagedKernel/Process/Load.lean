import PagedKernel.AddressSpace.Contents
import PagedKernel.AddressSpace.Cursor
import PagedKernel.AddressSpace.Listing
import PagedKernel.Process.Basic
import PagedKernel.Process.Program

/-!
# Loading a program

A process gets a new address space in three parts. `sharingKernel` shares every mapping of the
kernel below the user region. `mapSegment` gives each page of a segment a page of zeros of its own,
or widens the permission of a page that an earlier segment has brought, and then writes the data.
Last comes the page of the stack. `Userland.load` does all this for a slot of the process table, and
halts where it cannot.

Key definitions: `sharingKernel`, `segmentPages`, `mapSegment`, `Userland.load`.
-/

namespace PagedKernel

variable {n : Nat}

/-- Map each of the pages in `shared` at its address in `t`, with one more reference to it. The
result is the first failure. -/
def shareMappings (t : PageTable) : List Mapping → FramesM n (Except MapError Unit)
  | [] => return .ok ()
  | (va, e) :: rest => do
    let page ← Frames.share e.addr
    match ← (t.cursor va).install page (.ofFlags e.flags) with
    | .ok _ => shareMappings t rest
    | .error cause => return .error cause

/-- A page table that shares every mapping of the kernel below the user region. On failure nothing
is left of it. -/
def sharingKernel (kernel : PageTable) : FramesM n (Except MapError PageTable) := do
  match ← PageTable.new? with
  | none => return .error .outOfMemory
  | some t =>
    let mappings ← Frames.read (kernel.mappings · 0 procStart)
    match ← shareMappings t mappings with
    | .ok () => return .ok t
    | .error cause =>
      t.destroy
      return .error cause

def Segment.permission (seg : Segment) : Permission :=
  if seg.writable then .userData else .userText

def segmentPages (lo hi : Nat) : List Nat :=
  let first := lo / pageSize
  (List.range ((hi + pageSize - 1) / pageSize - first)).map fun i => (first + i) * pageSize

/-- Give the address `va` a page with at least the permission `perm`. -/
def mapPage (program : String) (t : PageTable) (va : VirtAddr) (perm : Permission) :
    FramesM n Unit := do
  let result ← match ← Frames.read (t.walk · va) with
    | some e =>
      let old := Permission.ofFlags e.flags
      if old.contains perm then pure (.ok ())
      else
        match ← t.unmap va with
        | .ok page => t.map va page (old.union perm)
        | .error cause => pure (.error cause)
    | none =>
      match ← Frames.allocZeros with
      | some page => t.map va page perm
      | none => throw (.loadOutOfMemory program)
  match result with
  | .ok () => return ()
  | .error cause => throw (.loadFailedAt program cause va)

/-- Map the pages of a segment and write its data. -/
def mapSegment (program : String) (t : PageTable) (seg : Segment) : FramesM n Unit := do
  if seg.va.toNat < procStart then throw (.segmentOutside program seg.va seg.size)
  let stop ← Word.add seg.va seg.size
  if stackPage < stop.toNat then throw (.segmentOutside program seg.va seg.size)
  (segmentPages seg.va.toNat stop.toNat).forM fun addr => do
    mapPage program t (← VirtAddr.ofWord (UInt64.ofNat addr)) seg.permission
  let data := seg.data.take seg.size.toNat
  match ← t.writeBytes (← VirtAddr.ofWord seg.va) data with
  | .ok () => return ()
  | .error cause => throw (.loadFailed program cause)

/-- The page table of a new process that runs `program`. -/
def buildSpace (kernel : PageTable) (program : Program) : FramesM n PageTable := do
  match ← sharingKernel kernel with
  | .error cause => throw (.loadFailed program.name cause)
  | .ok t =>
    program.segments.forM (mapSegment program.name t)
    match ← Frames.allocZeros with
    | none => throw (.loadOutOfMemory program.name)
    | some stack =>
      match ← t.map ⟨UInt64.ofNat stackPage⟩ stack .userData with
      | .ok () => return t
      | .error cause => throw (.loadFailed program.name cause)

/-- Load `program` into process `pid`, which may not be able to run. What it had before is given
back. -/
def Userland.load (kernel : PageTable) (pid : Pid) (program : Program) : UserlandM n Unit := do
  if (← proc pid).state = .runnable then throw (.loadOverRunnable pid)
  reclaim pid
  let table ← onFrames (buildSpace kernel program)
  let regs := Registers.starting program.entry (UInt64.ofNat virtualSize)
  setProc pid ⟨.runnable, regs, some table⟩
  report (.loaded pid program.name)

end PagedKernel
