import PagedKernel.Address

/-!
# Page table entries

An entry is a word: a page-aligned physical address in bits 12 to 51, and flags in the bits around
it. `Entry.flags` reads the flags, `Entry.addr?` the address of an entry that is present, and
`Entry.link` builds an entry from both. Bits that name no flag are kept by an entry but seen by
nobody.

Key definitions: `Flags`, `Flags.ofWord`, `Flags.toWord`, `Entry`, `Entry.addr?`, `Entry.link`.
-/

namespace PagedKernel

/-- Bit `i` of the word `w`. -/
@[inline] def wordBit (w i : UInt64) : Bool :=
  (w >>> i) &&& 1 == 1

/-- The flags of a page table entry. -/
structure Flags where
  /-- The entry maps a page or points to a table. -/
  present : Bool
  /-- Writes are allowed. -/
  writable : Bool
  /-- User-mode accesses are allowed. -/
  user : Bool
  writeThrough : Bool
  cacheDisable : Bool
  accessed : Bool
  dirty : Bool
  /-- A large page, which this machine does not have. -/
  large : Bool
  shared : Bool
  /-- Instruction fetches are not meant to be allowed. -/
  noExecute : Bool
deriving DecidableEq, Inhabited

namespace Flags

def empty : Flags :=
  ⟨false, false, false, false, false, false, false, false, false, false⟩

/-- The flags in a word. Its other bits are dropped. -/
def ofWord (w : UInt64) : Flags where
  present := wordBit w 0
  writable := wordBit w 1
  user := wordBit w 2
  writeThrough := wordBit w 3
  cacheDisable := wordBit w 4
  accessed := wordBit w 5
  dirty := wordBit w 6
  large := wordBit w 7
  shared := wordBit w 8
  noExecute := wordBit w 63

/-- Each flag with its bit, from the lowest. -/
def bits (f : Flags) : List (Bool × UInt64) :=
  [(f.present, 0x1), (f.writable, 0x2), (f.user, 0x4), (f.writeThrough, 0x8),
    (f.cacheDisable, 0x10), (f.accessed, 0x20), (f.dirty, 0x40), (f.large, 0x80),
    (f.shared, 0x100), (f.noExecute, 0x8000000000000000)]

/-- The word with exactly the bits of the flags. -/
def toWord (f : Flags) : UInt64 :=
  f.bits.foldr (fun p w => if p.1 then p.2 ||| w else w) 0

/-- The names of the flags that are set, from the lowest bit, between bars. -/
def text (f : Flags) : String :=
  let named : List (Bool × String) :=
    [(f.present, "P"), (f.writable, "RW"), (f.user, "US"), (f.writeThrough, "PWT"),
      (f.cacheDisable, "PCD"), (f.accessed, "A"), (f.dirty, "D"), (f.large, "PS"),
      (f.shared, "G"), (f.noExecute, "XD")]
  match named.filterMap fun p => if p.1 then some p.2 else none with
  | [] => "(empty)"
  | names => String.intercalate " | " names

/-- The flags of an entry that points to a table: the leaf alone decides what is allowed. -/
def table : Flags :=
  { empty with present := true, writable := true, user := true }

end Flags

/-- A page table entry. -/
structure Entry where
  raw : UInt64
deriving DecidableEq, Inhabited

namespace Entry

/-- The bits of an entry that hold its address. -/
def addrMask : UInt64 := 0x000ffffffffff000

/-- The entry of a slot that holds nothing. -/
def empty : Entry := ⟨0⟩

def flags (e : Entry) : Flags :=
  Flags.ofWord e.raw

@[inline] def present (e : Entry) : Bool := wordBit e.raw 0
@[inline] def writable (e : Entry) : Bool := wordBit e.raw 1
@[inline] def user (e : Entry) : Bool := wordBit e.raw 2
@[inline] def large (e : Entry) : Bool := wordBit e.raw 7
@[inline] def noExecute (e : Entry) : Bool := wordBit e.raw 63

/-- The address in the entry, present or not. -/
@[inline] def addr (e : Entry) : PhysAddr :=
  ⟨e.raw &&& addrMask⟩

/-- The address the entry points to, if it is present. -/
@[inline] def addr? (e : Entry) : Option PhysAddr :=
  if e.present then some e.addr else none

/-- The entry that points to `pa` with `flags`. -/
def link (pa : PhysAddr) (flags : Flags) : Entry :=
  ⟨pa.val ||| flags.toWord⟩

/-- The entry that points to `pa` with `flags`, if `pa` is page-aligned. -/
def link? (pa : PhysAddr) (flags : Flags) : Option Entry :=
  if pa.isAligned then some (link pa flags) else none

/-- The entry with the same address and the flags `flags`. -/
def withFlags (e : Entry) (flags : Flags) : Entry :=
  ⟨(e.raw &&& addrMask) ||| flags.toWord⟩

/-- The entry as it is shown: its address and its flags. -/
def text (e : Entry) : String :=
  s!"Pte({hex e.addr.toNat}, {e.flags.text})"

end Entry

end PagedKernel
