import PagedKernel.Layout
import PagedKernel.Machine.Walk

/-!
# Frames and references to them

The pages of the physical memory are counted: the count of a page is the number of references to
it, and a page with count zero is free. A `FrameRef` stands for one reference. `Frames.alloc` hands
out the first reference to a free page, `Frames.share` one more to a page in use, and
`Frames.release` takes one back. Pages below `allocatableStart` belong to the kernel and the devices
and are never handed out; `Frames.claim` is the way to a first reference to one of them.

The search for a free page starts where the last one ended and goes around the memory once. A page
is filled with `allocFill` when it is handed out, and keeps its contents when it becomes free.

Key definitions: `FrameRef`, `Frames`, `Frames.alloc`, `Frames.share`, `Frames.release`,
`Frames.claim`, `Frames.freePages`.
-/

namespace PagedKernel

/-- One counted reference to the page with this number. -/
structure FrameRef where
  number : Nat
deriving DecidableEq, Inhabited

namespace FrameRef

def pa (ref : FrameRef) : PhysAddr :=
  PhysAddr.ofPageNumber (UInt64.ofNat ref.number)

/-- A reference to the page that holds `pa`. -/
@[inline] def ofAddr (pa : PhysAddr) : FrameRef :=
  ⟨pa.pageNumber⟩

/-- A reference to the page at `pa`, which has to be the first address of one. -/
def ofAligned (pa : PhysAddr) : Except Halt FrameRef :=
  if pa.isAligned then .ok (ofAddr pa) else .error .assertion

end FrameRef

/-- The page that a present entry points to. -/
@[inline] def Entry.frame? (e : Entry) : Option FrameRef :=
  e.addr?.map .ofAddr

/-- The greatest count of a page. -/
def maxCount : Nat := UInt32.size - 1

/-- The physical memory and the counts of its pages. -/
structure Frames (n : Nat) where
  memory : Memory n
  /-- For each page, the references to it. -/
  counts : Vector Nat n
  /-- The page number where the next search starts. -/
  cursor : Nat

/-- A computation on the frames that may halt. -/
abbrev FramesM (n : Nat) := HaltM (Frames n)

namespace Frames

variable {n : Nat}

/-- Take over a fresh memory. Every page is free. -/
def fresh (n : Nat) : Frames n where
  memory := Memory.zeroed n
  counts := Vector.replicate n 0
  cursor := allocatableStart / pageSize

/-- The count of page number `pn`, which has to exist. -/
def countAt (f : Frames n) (pn : Nat) : Except Halt Nat :=
  if h : pn < n then .ok f.counts[pn] else .error .badIndex

/-- The count of page number `pn`; zero if there is none. -/
@[inline] def count (f : Frames n) (pn : Nat) : Nat :=
  if h : pn < n then f.counts[pn] else 0

/-- The page with this number may be handed out. -/
@[inline] def allocatablePage (_ : Frames n) (pn : Nat) : Bool :=
  allocatableStart ≤ pn * pageSize && pn < n

def allocatable (f : Frames n) (pa : PhysAddr) : Bool :=
  f.allocatablePage pa.pageNumber

/-- The page with this number may be handed out, and nobody refers to it. -/
@[inline] def isFree (f : Frames n) (pn : Nat) : Bool :=
  f.allocatablePage pn && f.count pn == 0

def freePages (f : Frames n) : Nat :=
  (List.range n).countP f.isFree

/-- The first free page from the cursor on, once around the memory. -/
def findFree (f : Frames n) : Option Nat :=
  ((List.range n).find? fun i => f.isFree ((f.cursor + i) % n)).map fun i => (f.cursor + i) % n

@[inline] def setCount (f : Frames n) (pn count : Nat) (h : pn < n) : Frames n :=
  { f with counts := f.counts.set pn count h }

/-- The frames with all bytes of one page replaced by `v`. -/
@[inline] def refill (f : Frames n) (pn : Nat) (v : UInt8) (h : pn < n) : Frames n :=
  { f with memory := f.memory.setPage pn (PageData.fill v) h }

/-- Hand out a free page with all bytes `v`, if there is one. -/
def allocFilled (v : UInt8) : FramesM n (Option FrameRef) := fun f =>
  match f.findFree with
  | none => .ok none f
  | some pn =>
    if h : pn < n then
      .ok (some ⟨pn⟩) { (f.setCount pn 1 h).refill pn v h with cursor := (pn + 1) % n }
    else .ok none f

/-- Hand out a free page for `size` bytes, which have to fit it. -/
def alloc (size : Nat) : FramesM n (Option FrameRef) :=
  if pageSize < size then return none else allocFilled allocFill

def allocZeros : FramesM n (Option FrameRef) :=
  allocFilled 0

/-- Make the page that holds `pa` free by force. Nothing happens to pages that are not handed out,
and a page with several references may not be freed like this. -/
def free (pa : PhysAddr) : FramesM n Unit := fun f =>
  if h : pa.pageNumber < n then
    if !f.allocatable pa then .ok () f
    else if 1 < f.counts[pa.pageNumber] then .error (.freeOfShared pa) f
    else .ok () (f.setCount pa.pageNumber 0 h)
  else .ok () f

/-- One more reference to the page that holds `pa`, which has to be in use. -/
def share (pa : PhysAddr) : FramesM n FrameRef := fun f =>
  if h : pa.pageNumber < n then
    let count := f.counts[pa.pageNumber]
    if count = 0 then .error (.shareOfFree pa) f
    else if count = maxCount then .error .overflow f
    else .ok (.ofAddr pa) (f.setCount pa.pageNumber (count + 1) h)
  else .error .badIndex f

/-- Take a reference back. The page is free once the last one is back. -/
def release (ref : FrameRef) : FramesM n Unit := fun f =>
  if h : ref.number < n then
    let count := f.counts[ref.number]
    if count = 0 then .error (.releaseOfFree ref.pa) f
    else .ok () (f.setCount ref.number (count - 1) h)
  else .error .badIndex f

/-- The first reference to a page that is not handed out. -/
def claim (pa : PhysAddr) : FramesM n FrameRef := fun f =>
  if f.allocatable pa then .error (.notReserved pa) f
  else if h : pa.pageNumber < n then
    if f.counts[pa.pageNumber] = 0 then
      .ok (.ofAddr pa) (f.setCount pa.pageNumber 1 h)
    else .error (.alreadyClaimed pa) f
  else .error .badIndex f

/-! ### The memory of the frames -/

@[inline] def read {α : Type} (look : Memory n → Except Halt α) : FramesM n α := fun f =>
  match look f.memory with
  | .ok a => .ok a f
  | .error e => .error e f

@[inline] def modifyMemory (change : Memory n → Except Halt (Memory n)) : FramesM n Unit := fun f =>
  match change f.memory with
  | .ok memory => .ok () { f with memory }
  | .error e => .error e f

def readEntry (table : PhysAddr) (slot : Nat) : FramesM n Entry :=
  read (·.readEntry table slot)

def writeEntry (table : PhysAddr) (slot : Nat) (e : Entry) : FramesM n Unit :=
  modifyMemory (·.writeEntry table slot e)

end Frames

end PagedKernel
