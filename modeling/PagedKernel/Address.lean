import PagedKernel.Hexadecimal

/-!
# Physical and virtual addresses

A physical address is a position in the memory of the machine, a virtual address a position in an
address space. Both are 64-bit words. The constructors `PhysAddr.ofWord?` and `VirtAddr.ofWord?`
accept the addresses a page table can hold and the canonical ones; arithmetic may leave those
ranges, so neither type carries the bound.

Every level of a page table splits a virtual address at nine more bits: `VirtAddr.index` is the
slot of the address in the table of a level, level 0 being the one that holds the leaves.

Key definitions: `PhysAddr.ofWord?`, `PhysAddr.pageNumber`, `VirtAddr.ofWord?`, `VirtAddr.index`.
-/

namespace PagedKernel

/-- The bytes in a page. -/
def pageSize : Nat := 4096

structure PhysAddr where
  val : UInt64
deriving DecidableEq, Inhabited

structure VirtAddr where
  val : UInt64
deriving DecidableEq, Inhabited

namespace PhysAddr

/-- The physical address `a`, if a page table entry can hold it: it has at most 52 bits. -/
def ofWord? (a : UInt64) : Option PhysAddr :=
  if a.toNat < 1 <<< 52 then some ⟨a⟩ else none

/-- The first address of page number `pn`. Bits of `pn` above the 52nd are lost. -/
def ofPageNumber (pn : UInt64) : PhysAddr :=
  ⟨pn <<< 12⟩

@[inline] def toNat (pa : PhysAddr) : Nat :=
  pa.val.toNat

/-- The number of the page that holds the address. -/
@[inline] def pageNumber (pa : PhysAddr) : Nat :=
  pa.toNat / pageSize

/-- The address is the first of a page. -/
def isAligned (pa : PhysAddr) : Bool :=
  pa.toNat % pageSize == 0

/-- The first address of the page that holds `pa`. -/
def pageBase (pa : PhysAddr) : PhysAddr :=
  ⟨pa.val / 4096 * 4096⟩

/-- The address `off` bytes into the page at `pa`, for `pa` the first address of a page. -/
@[inline] def inPage (pa : PhysAddr) (off : Nat) : PhysAddr :=
  ⟨pa.val + UInt64.ofNat off⟩

def text (pa : PhysAddr) : String :=
  s!"Pa({hex pa.toNat})"

end PhysAddr

namespace VirtAddr

/-- The virtual address `a`, if it is canonical: bits 47 to 63 are all equal. -/
def ofWord? (a : UInt64) : Option VirtAddr :=
  if a.toNat < 1 <<< 47 ∨ UInt64.size - 1 <<< 47 ≤ a.toNat then some ⟨a⟩ else none

@[inline] def toNat (va : VirtAddr) : Nat :=
  va.val.toNat

def isAligned (va : VirtAddr) : Bool :=
  va.toNat % pageSize == 0

/-- The first address of the page that holds `va`. -/
def pageDown (va : VirtAddr) : VirtAddr :=
  ⟨va.val / 4096 * 4096⟩

/-- How far into its page the address lies. -/
@[inline] def pageOffset (va : VirtAddr) : Nat :=
  va.toNat % pageSize

/-- The slot of `va` in the table of `level`: nine bits, the lowest of them bit `12 + 9 level`. -/
@[inline] def index (va : VirtAddr) (level : Nat) : Nat :=
  (va.toNat >>> (12 + 9 * level)) % 512

def text (va : VirtAddr) : String :=
  s!"Va({hex va.toNat})"

end VirtAddr

end PagedKernel
