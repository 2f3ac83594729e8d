import PagedKernel.AddressSpace.PageTable

/-!
# The bytes of an address space

The kernel copies bytes into and out of an address space page by page: each step goes up to the end
of a page or of the data. A copy stops at the first page that is not mapped, and what it has copied
by then stays copied. Whether the user could access the pages plays no role.

Key definitions: `PageTable.writeBytes`, `PageTable.readBytes`, `PageTable.readInto`.
-/

namespace PagedKernel

variable {n : Nat}

namespace PageTable

/-- The physical address of the byte at `va`, if that is mapped. -/
def byteAddr? (t : PageTable) (m : Memory n) (va : VirtAddr) : Except Halt (Option PhysAddr) := do
  match ← t.walk m va.pageDown with
  | some e => return some (e.addr.inPage va.pageOffset)
  | none => return none

/-- The bytes from `va` to the end of its page. -/
def roomInPage (va : VirtAddr) : Nat :=
  pageSize - va.pageOffset

theorem roomInPage_pos (va : VirtAddr) : 0 < roomInPage va :=
  Nat.sub_pos_of_lt (mod_pageSize_lt va.toNat)

/-- Copy `data` to the addresses from `done` bytes after `va` on. False if a page is not mapped. -/
def writeFrom (t : PageTable) (va : VirtAddr) (done : Nat) (data : List UInt8) :
    FramesM n Bool := do
  if data.isEmpty then return true
  let place ← va.add (UInt64.ofNat done)
  match ← Frames.read (t.byteAddr? · place) with
  | none => return false
  | some pa =>
    let chunk := data.take (roomInPage place)
    Frames.modifyMemory (·.writeBytes pa chunk)
    t.writeFrom va (done + chunk.length) (data.drop (roomInPage place))
termination_by data.length
decreasing_by
  simp only [List.length_drop]
  have := roomInPage_pos place
  have : data ≠ [] := by simpa using ‹¬ data.isEmpty = true›
  have := List.length_pos_iff.mpr this
  omega

def writeBytes (t : PageTable) (va : VirtAddr) (data : List UInt8) :
    FramesM n (Except MapError Unit) := do
  return if ← t.writeFrom va 0 data then .ok () else .error .notExist

/-- The `len` bytes from `done` bytes after `va` on, as far as their pages are mapped. -/
def readFrom (t : PageTable) (m : Memory n) (va : VirtAddr) (done len : Nat) :
    Except Halt (List UInt8) := do
  if len = 0 then return []
  let place ← va.add (UInt64.ofNat done)
  match ← t.byteAddr? m place with
  | none => return []
  | some pa =>
    let size := min (roomInPage place) len
    let chunk ← m.slice pa size
    return chunk ++ (← t.readFrom m va (done + size) (len - size))
termination_by len
decreasing_by
  have := roomInPage_pos place
  omega

/-- The `len` bytes from `va` on, as far as their pages are mapped. They are fewer than `len` just
if a page is not. -/
def readBytes (t : PageTable) (m : Memory n) (va : VirtAddr) (len : Nat) :
    Except Halt (List UInt8) :=
  t.readFrom m va 0 len

/-- Copy the bytes from `va` on over those of a buffer. Behind what was copied the buffer stays as it
is. -/
def readInto (t : PageTable) (m : Memory n) (va : VirtAddr) (buf : List UInt8) :
    Except Halt (Except MapError Unit × List UInt8) := do
  let bytes ← t.readBytes m va buf.length
  return (if bytes.length = buf.length then .ok () else .error .notExist,
    bytes ++ buf.drop bytes.length)

end PageTable

end PagedKernel
