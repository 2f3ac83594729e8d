import PagedKernel.Halt

/-!
# Physical memory

A memory of `n` pages holds `n * pageSize` bytes. `Memory.byte` is what it holds, one byte at a
time, and `Memory.putByte` the change of one byte; every other operation reads and writes through
these two or exchanges whole pages. The operations that take a `PhysAddr` first test that all their
bytes are installed: an access outside is a machine check and halts.

Words are stored with their lowest byte first.

Key definitions: `Memory`, `Memory.byte`, `Memory.readWord`, `Memory.writeBytes`, `Memory.fillPage`,
`Memory.copyPage`.
-/

namespace PagedKernel

/-- The contents of a page. -/
structure PageData where
  bytes : ByteArray
  size_eq : bytes.size = pageSize

namespace PageData

@[inline] def get (p : PageData) (off : Nat) (h : off < pageSize) : UInt8 :=
  p.bytes.get off (by rw [p.size_eq]; exact h)

@[inline] def set (p : PageData) (off : Nat) (v : UInt8) (h : off < pageSize) : PageData where
  bytes := p.bytes.set off v (by rw [p.size_eq]; exact h)
  size_eq := (Array.size_set _).trans p.size_eq

def fill (v : UInt8) : PageData where
  bytes := ⟨Array.replicate pageSize v⟩
  size_eq := Array.size_replicate

def toList (p : PageData) : List UInt8 :=
  p.bytes.data.toList

theorem get_set (p : PageData) (off i : Nat) (v : UInt8) (h : off < pageSize) (hi : i < pageSize) :
    (p.set off v h).get i hi = if off = i then v else p.get i hi :=
  @Array.getElem_set _ p.bytes.data off (Nat.lt_of_lt_of_eq h p.size_eq.symm) v i _

theorem get_fill (v : UInt8) (i : Nat) (hi : i < pageSize) : (fill v).get i hi = v :=
  Array.getElem_replicate ..

end PageData

theorem mod_pageSize_lt (a : Nat) : a % pageSize < pageSize :=
  Nat.mod_lt _ (by decide)

/-- The word whose bytes are the arguments, the lowest first. -/
@[inline] def wordOfBytes (b0 b1 b2 b3 b4 b5 b6 b7 : UInt8) : UInt64 :=
  b0.toUInt64 + b1.toUInt64 <<< 8 + b2.toUInt64 <<< 16 + b3.toUInt64 <<< 24
    + b4.toUInt64 <<< 32 + b5.toUInt64 <<< 40 + b6.toUInt64 <<< 48 + b7.toUInt64 <<< 56

/-- The eight bytes of a word, the lowest first. -/
def bytesOfWord (w : UInt64) : List UInt8 :=
  [w.toUInt8, (w >>> 8).toUInt8, (w >>> 16).toUInt8, (w >>> 24).toUInt8,
    (w >>> 32).toUInt8, (w >>> 40).toUInt8, (w >>> 48).toUInt8, (w >>> 56).toUInt8]

/-- A physical memory of `n` pages. -/
structure Memory (n : Nat) where
  pages : Vector PageData n

namespace Memory

variable {n : Nat}

/-- A fresh memory holds zeros. -/
def zeroed (n : Nat) : Memory n :=
  ⟨Vector.replicate n (PageData.fill 0)⟩

def size (_ : Memory n) : Nat :=
  n * pageSize

/-- The byte at address `a`; zero where no memory is. -/
@[inline] def byte (m : Memory n) (a : Nat) : UInt8 :=
  if h : a / pageSize < n then
    m.pages[a / pageSize].get (a % pageSize) (mod_pageSize_lt a)
  else 0

/-- The memory with the byte `v` at address `a`, if that is installed. -/
@[inline] def putByte (m : Memory n) (a : Nat) (v : UInt8) : Memory n where
  pages :=
    ⟨m.pages.toArray.modify (a / pageSize) (·.set (a % pageSize) v (mod_pageSize_lt a)), by simp⟩

/-- The memory with the bytes `data` from address `a` on. -/
def putBytes (m : Memory n) (a : Nat) : List UInt8 → Memory n
  | [] => m
  | v :: data => putBytes (m.putByte a v) (a + 1) data

theorem byte_putByte (m : Memory n) (a b : Nat) (v : UInt8) :
    (m.putByte a v).byte b = if a = b ∧ a / pageSize < n then v else m.byte b := by
  unfold byte putByte
  by_cases hb : b / pageSize < n
  · simp only [hb, dite_true, Vector.getElem_mk, Array.getElem_modify, Vector.getElem_toArray]
    by_cases hp : a / pageSize = b / pageSize
    · have ha : a / pageSize < n := hp ▸ hb
      simp only [hp, if_true, PageData.get_set]
      by_cases ho : a % pageSize = b % pageSize
      · have hab : a = b := by
          rw [← Nat.div_add_mod a pageSize, ← Nat.div_add_mod b pageSize, hp, ho]
        subst hab
        simp [ha]
      · have hab : a ≠ b := fun h => ho (h ▸ rfl)
        simp [ho, hab]
    · have hab : a ≠ b := fun h => hp (h ▸ rfl)
      simp [hp, hab]
  · have : ¬ (a = b ∧ a / pageSize < n) := fun h => hb (h.1 ▸ h.2)
    simp [hb, this]

/-! ### Checked accesses -/

/-- The `len` bytes from `pa` on are installed. -/
@[inline] def installed (_ : Memory n) (pa : PhysAddr) (len : Nat) : Bool :=
  pa.toNat + len ≤ n * pageSize

/-- The `len` bytes from `pa` on. -/
def slice (m : Memory n) (pa : PhysAddr) (len : Nat) : Except Halt (List UInt8) :=
  if m.installed pa len then
    .ok ((List.range len).map fun i => m.byte (pa.toNat + i))
  else .error (.machineCheck pa len)

/-- Write the bytes `data` from `pa` on. -/
def writeBytes (m : Memory n) (pa : PhysAddr) (data : List UInt8) : Except Halt (Memory n) :=
  if m.installed pa data.length then .ok (m.putBytes pa.toNat data)
  else .error (.machineCheck pa data.length)

/-- The byte at `pa`. -/
@[inline] def readByte (m : Memory n) (pa : PhysAddr) : Except Halt UInt8 :=
  if m.installed pa 1 then .ok (m.byte pa.toNat) else .error (.machineCheck pa 1)

@[inline] def writeByte (m : Memory n) (pa : PhysAddr) (v : UInt8) : Except Halt (Memory n) :=
  if m.installed pa 1 then .ok (m.putByte pa.toNat v) else .error (.machineCheck pa 1)

@[inline] def word (m : Memory n) (a : Nat) : UInt64 :=
  wordOfBytes (m.byte a) (m.byte (a + 1)) (m.byte (a + 2)) (m.byte (a + 3))
    (m.byte (a + 4)) (m.byte (a + 5)) (m.byte (a + 6)) (m.byte (a + 7))

/-- The word at `pa`. -/
@[inline] def readWord (m : Memory n) (pa : PhysAddr) : Except Halt UInt64 :=
  if m.installed pa 8 then .ok (m.word pa.toNat) else .error (.machineCheck pa 8)

def writeWord (m : Memory n) (pa : PhysAddr) (w : UInt64) : Except Halt (Memory n) :=
  if m.installed pa 8 then .ok (m.putBytes pa.toNat (bytesOfWord w))
  else .error (.machineCheck pa 8)

/-! ### Whole pages -/

def page (m : Memory n) (pa : PhysAddr) : Except Halt PageData :=
  if h : pa.pageNumber < n then .ok m.pages[pa.pageNumber]
  else .error (.machineCheck pa.pageBase pageSize)

/-- The memory with `p` as its page number `pn`. -/
@[inline] def setPage (m : Memory n) (pn : Nat) (p : PageData) (h : pn < n) : Memory n :=
  ⟨m.pages.set pn p h⟩

/-- Fill the page that holds `pa` with the byte `v`. -/
def fillPage (m : Memory n) (pa : PhysAddr) (v : UInt8) : Except Halt (Memory n) :=
  if h : pa.pageNumber < n then .ok (m.setPage pa.pageNumber (PageData.fill v) h)
  else .error (.machineCheck pa.pageBase pageSize)

/-- Change the byte at offset `off` of the page that holds `pa`. -/
def setInPage (m : Memory n) (pa : PhysAddr) (off : Nat) (v : UInt8) : Except Halt (Memory n) :=
  if h : pa.pageNumber < n then
    if ho : off < pageSize then
      .ok (m.setPage pa.pageNumber (m.pages[pa.pageNumber].set off v ho) h)
    else .error .badIndex
  else .error (.machineCheck pa.pageBase pageSize)

/-- Copy the page that holds `src` over the page that holds `dst`. -/
def copyPage (m : Memory n) (dst src : PhysAddr) : Except Halt (Memory n) :=
  if h : dst.pageNumber < n ∧ src.pageNumber < n then
    .ok (m.setPage dst.pageNumber m.pages[src.pageNumber] h.1)
  else .error .assertion

end Memory

end PagedKernel
