import PagedKernel.AddressSpace.PageTable

/-!
# Cursors

A cursor stands at an address of an address space. It reads the mapping there, installs or removes
one, moves to any address or on to the next page.

Key definitions: `Cursor`, `Cursor.entry`, `Cursor.permission`, `Cursor.install`, `Cursor.next`.
-/

namespace PagedKernel

variable {n : Nat}

/-- A place in the address space whose root table is at `root`. -/
structure Cursor where
  root : PhysAddr
  va : VirtAddr
deriving DecidableEq

def PageTable.cursor (t : PageTable) (va : VirtAddr) : Cursor :=
  ⟨t.pa, va⟩

/-- What all entries of `va` allow together, from a table of level `k - 1` down: a flag that allows
something is needed in every one, and one that forbids execution does so for all. -/
def Memory.permissionBelow (m : Memory n) (va : VirtAddr) :
    Nat → PhysAddr → Permission → Except Halt Permission
  | 0, _, perm => .ok perm
  | level + 1, table, perm => do
    let e ← m.readEntry table (va.index level)
    match e.addr? with
    | none => return .none
    | some next =>
      m.permissionBelow va level next
        { perm with
          write := perm.write && e.writable
          user := perm.user && e.user
          execute := perm.execute && !e.noExecute }

namespace Cursor

/-- The leaf at the cursor, present or not. -/
def entry (c : Cursor) (m : Memory n) : Except Halt Entry :=
  m.leaf c.root c.va

/-- The physical address that the cursor's address is mapped to. -/
def addr? (c : Cursor) (m : Memory n) : Except Halt (Option PhysAddr) := do
  return (← c.entry m).addr?.map (·.inPage c.va.pageOffset)

/-- The permission of the cursor's address, over all levels. -/
def permission (c : Cursor) (m : Memory n) : Except Halt Permission :=
  m.permissionBelow c.va levels c.root ⟨true, true, true, true⟩

def present (c : Cursor) (m : Memory n) : Except Halt Bool := do
  return (← c.entry m).present

def find (c : Cursor) (va : VirtAddr) : Cursor :=
  { c with va }

/-- The cursor at the first address of the next page. -/
def next (c : Cursor) : Except Halt Cursor := do
  return { c with va := ← c.va.pageDown.add (UInt64.ofNat pageSize) }

/-- Map `page` at the cursor. The result is the page that was mapped there before. -/
def install (c : Cursor) (page : FrameRef) (perm : Permission) :
    FramesM n (Except MapError (Option FrameRef)) :=
  PageTable.install c.root c.va page perm

/-- Map `page` at the cursor. A failure halts. -/
def mapOrHalt (c : Cursor) (page : FrameRef) (perm : Permission) : FramesM n (Option FrameRef) := do
  match ← c.install page perm with
  | .ok old => return old
  | .error cause => throw (.mapFailed c.va cause)

def unmap (c : Cursor) : FramesM n (Except MapError FrameRef) :=
  PageTable.remove c.root c.va

end Cursor

end PagedKernel
