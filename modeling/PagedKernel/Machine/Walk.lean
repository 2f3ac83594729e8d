import PagedKernel.Machine.Memory

/-!
# The walk of the memory management unit

A page table has four levels. A table of any level is a page of 512 entries; the entry of a virtual
address in a table of level 3, 2 or 1 points to the table of the level below, and its entry in the
table of level 0 points to the page. `Memory.locate` follows the entries down, as the unit does on
every access: a write needs every entry on the way to be writable, a user-mode access needs every
one to be a user's. Large pages are not supported, and a present entry that asks for one stops the
walk. An instruction fetch needs no more than a read does.

Key definitions: `Memory.readEntry`, `Memory.writeEntry`, `Memory.resolve`, `Memory.locate`.
-/

namespace PagedKernel

/-- The entries in a table. -/
def slotsPerTable : Nat := 512

/-- The levels of a page table. -/
def levels : Nat := 4

/-- The slots of a table, in order. -/
def tableSlots : List Nat :=
  List.range slotsPerTable

namespace Memory

variable {n : Nat}

@[inline] def readEntry (m : Memory n) (table : PhysAddr) (slot : Nat) : Except Halt Entry :=
  if slot < slotsPerTable then do
    let w ← m.readWord (← table.add (UInt64.ofNat (8 * slot)))
    return ⟨w⟩
  else .error .assertion

def writeEntry (m : Memory n) (table : PhysAddr) (slot : Nat) (e : Entry) :
    Except Halt (Memory n) :=
  if slot < slotsPerTable then do
    m.writeWord (← table.add (UInt64.ofNat (8 * slot))) e.raw
  else .error .assertion

end Memory

inductive Access
  | read
  | write
  | execute
deriving DecidableEq

/-- Bit of a page fault's code: the page was there, but the access was not allowed. -/
def faultPresent : UInt64 := 0x1

/-- Bit of a page fault's code: the access was a write. -/
def faultWrite : UInt64 := 0x2

/-- Bit of a page fault's code: the access was made in user mode. -/
def faultUser : UInt64 := 0x4

/-- The code of a fault that found no page. -/
def missingPageCode (access : Access) (user : Bool) : UInt64 :=
  (if access = .write then faultWrite else 0) ||| (if user then faultUser else 0)

/-- Where a walk has come to, and what every entry so far allows. -/
structure Reached where
  /-- The table or page that the last entry points to. -/
  base : PhysAddr
  writable : Bool
  user : Bool

variable {n : Nat}

/-- Follow the entries of `va` down from a table of level `k - 1`, if all of them are present and
none asks for a large page. -/
def Memory.resolve (m : Memory n) (va : VirtAddr) :
    Nat → Reached → Except Halt (Option Reached)
  | 0, r => .ok (some r)
  | level + 1, r => do
    let e ← m.readEntry r.base (va.index level)
    match e.addr? with
    | some next =>
      if e.large then return none
      else m.resolve va level ⟨next, r.writable && e.writable, r.user && e.user⟩
    | none => return none

/-- The physical address of `va` in the address space with root `cr3`, or the code of the page fault
that the access raises. -/
def Memory.locate (m : Memory n) (cr3 : PhysAddr) (va : VirtAddr) (access : Access) (user : Bool) :
    Except Halt (Except UInt64 PhysAddr) := do
  match ← m.resolve va levels ⟨cr3, true, true⟩ with
  | none => return .error (missingPageCode access user)
  | some r =>
    if (access = .write && !r.writable) || (user && !r.user) then
      return .error (missingPageCode access user ||| faultPresent)
    else return .ok (r.base.inPage va.pageOffset)

end PagedKernel
