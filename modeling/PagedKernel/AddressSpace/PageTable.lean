import PagedKernel.AddressSpace.Permission
import PagedKernel.Frames

/-!
# Page tables

A `PageTable` owns the page of its root table. Every entry of an inner table that is present owns
the page of the table it points to, and every leaf owns one reference to the page it maps. So a
mapping that is removed or replaced always hands a reference back, and `PageTable.destroy` gives
back all that the table holds.

The entries of the inner tables are present, writable and the user's: the leaf alone decides.

Key definitions: `PageTable`, `Memory.descend`, `PageTable.walk`, `PageTable.install`,
`PageTable.map`, `PageTable.replace`, `PageTable.unmap`, `PageTable.destroy`.
-/

namespace PagedKernel

variable {n : Nat}

/-- Follow the entries of `va` from a table of level `k` down to its leaf table, as far as they are
present. The result is the last table reached and the number of levels missing below it. -/
def Memory.descend (m : Memory n) (va : VirtAddr) : Nat → PhysAddr → Except Halt (PhysAddr × Nat)
  | 0, table => .ok (table, 0)
  | level + 1, table => do
    match (← m.readEntry table (va.index (level + 1))).addr? with
    | some next => m.descend va level next
    | none => return (table, level + 1)

/-- The leaf table of `va` under `root`, if every level above it is present. -/
def Memory.leafTable? (m : Memory n) (root : PhysAddr) (va : VirtAddr) :
    Except Halt (Option PhysAddr) := do
  match ← m.descend va (levels - 1) root with
  | (table, 0) => return some table
  | _ => return none

/-- The leaf of `va` under `root`. It is the empty entry where a level is missing. -/
def Memory.leaf (m : Memory n) (root : PhysAddr) (va : VirtAddr) : Except Halt Entry := do
  match ← m.leafTable? root va with
  | some table => m.readEntry table (va.index 0)
  | none => return .empty

structure PageTable where
  /-- The reference to the page of the root table. -/
  root : FrameRef
deriving DecidableEq

namespace PageTable

/-- The address of the root table. -/
def pa (t : PageTable) : PhysAddr :=
  t.root.pa

/-- An empty page table, if there is a page for its root. -/
def new? : FramesM n (Option PageTable) := do
  return (← Frames.allocZeros).map (⟨·⟩)

/-- The leaf that maps `va`, if there is one. -/
def walk (t : PageTable) (m : Memory n) (va : VirtAddr) : Except Halt (Option Entry) := do
  let e ← m.leaf t.pa va
  return if e.present then some e else none

/-! ### Mapping -/

/-- Take `k` pages of zeros for tables, or none at all. -/
def takeTables : Nat → List FrameRef → FramesM n (Option (List FrameRef))
  | 0, taken => return some taken
  | k + 1, taken => do
    match ← Frames.allocZeros with
    | some ref => takeTables k (taken ++ [ref])
    | none =>
      taken.forM Frames.release
      return none

/-- Hang the tables `fresh` below `table` on the way of `va`, one below the other; the first of them
is for the level below `fresh.length`. The result is the last table. -/
def hangTables (va : VirtAddr) : PhysAddr → List FrameRef → FramesM n PhysAddr
  | table, [] => return table
  | table, ref :: rest => do
    Frames.writeEntry table (va.index (rest.length + 1)) (.link ref.pa .table)
    hangTables va ref.pa rest

/-- Map `page` at `va` under `root`. The tables that are missing on the way are taken first; if
there are not enough pages for them, nothing is changed. The result is the page that was mapped at
`va` before, which is now the caller's; on failure the reference `page` is released. -/
def install (root : PhysAddr) (va : VirtAddr) (page : FrameRef) (perm : Permission) :
    FramesM n (Except MapError (Option FrameRef)) := do
  if !va.isAligned then
    Frames.release page
    return .error .unaligned
  if va.val = 0 then
    Frames.release page
    return .error .invalidAddress
  let (table, missing) ← Frames.read (·.descend va (levels - 1) root)
  match ← takeTables missing [] with
  | none =>
    Frames.release page
    return .error .outOfMemory
  | some fresh =>
    let table ← hangTables va table fresh
    let old ← Frames.readEntry table (va.index 0)
    Frames.writeEntry table (va.index 0) (.link page.pa perm.toFlags)
    return .ok old.frame?

/-- Map `page` at `va`, where another page may be mapped: the result is a reference to that one. -/
def replace (t : PageTable) (va : VirtAddr) (page : FrameRef) (perm : Permission) :
    FramesM n (Except MapError (Option FrameRef)) :=
  install t.pa va page perm

/-- Map `page` at `va`, where nothing may be mapped. -/
def map (t : PageTable) (va : VirtAddr) (page : FrameRef) (perm : Permission) :
    FramesM n (Except MapError Unit) := do
  if !va.isAligned then
    Frames.release page
    return .error .unaligned
  if (← Frames.read (t.walk · va)).isSome then
    Frames.release page
    return .error .duplicated
  return (← install t.pa va page perm).map fun _ => ()

/-- Remove the mapping of `va` under `root`. The result is a reference to the page it mapped. -/
def remove (root : PhysAddr) (va : VirtAddr) : FramesM n (Except MapError FrameRef) := do
  if !va.isAligned then return .error .unaligned
  match ← Frames.read (·.leafTable? root va) with
  | none => return .error .notExist
  | some table =>
    match (← Frames.readEntry table (va.index 0)).frame? with
    | none => return .error .notExist
    | some page =>
      Frames.writeEntry table (va.index 0) .empty
      return .ok page

def unmap (t : PageTable) (va : VirtAddr) : FramesM n (Except MapError FrameRef) :=
  remove t.pa va

/-! ### Destruction -/

/-- Empty the table of level `level` at `table`, and give back every reference that it and the
tables below it hold. -/
def releaseTable : Nat → PhysAddr → FramesM n Unit
  | 0, table => tableSlots.forM fun slot => do
    match (← Frames.readEntry table slot).frame? with
    | none => return ()
    | some page =>
      Frames.writeEntry table slot .empty
      Frames.release page
  | level + 1, table => tableSlots.forM fun slot => do
    match (← Frames.readEntry table slot).frame? with
    | none => return ()
    | some page =>
      releaseTable level page.pa
      Frames.writeEntry table slot .empty
      Frames.release page

/-- Give back every mapped page, every table and the root. -/
def destroy (t : PageTable) : FramesM n Unit := do
  releaseTable (levels - 1) t.pa
  Frames.release t.root

end PageTable

end PagedKernel
