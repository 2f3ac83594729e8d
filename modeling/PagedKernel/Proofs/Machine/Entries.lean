import Mathlib.Data.Nat.Bitwise
import PagedKernel.AddressSpace.Permission
import PagedKernel.Frames

/-!
# What an entry says

An entry holds the address of a page and flags, in bits of their own: what `Entry.link` puts in,
`Entry.addr` and `Entry.flags` give back. So an entry can be spoken of by the number of the page it
points to (`Entry.page?`), and an address of a table by the number of its page (`pageAt`), as long
as the memory has no more pages than an entry can name (`Addressable`).

Key definitions: `Addressable`, `pageAt`, `Entry.page?`.
Key theorems: `Entry.addr_link`, `Entry.flags_link`, `Entry.addr_eq_pageAt`.
-/

namespace PagedKernel

/-- A memory of `n` pages is one whose pages an entry can name: it has 40 bits for the number. -/
class Addressable (n : Nat) : Prop where
  le : n ≤ 2 ^ 40

instance : Addressable physicalPages := ⟨by decide⟩

/-- The first address of page number `q`. -/
def pageAt (q : Nat) : PhysAddr :=
  PhysAddr.ofPageNumber (UInt64.ofNat q)

/-- The number of the page that the entry points to, if it is present. -/
def Entry.page? (e : Entry) : Option Nat :=
  if e.present then some e.addr.pageNumber else none

/-! ### Addresses of pages -/

theorem pageAt_toNat {q : Nat} (h : q < 2 ^ 52) : (pageAt q).toNat = q * pageSize := by
  unfold pageAt PhysAddr.ofPageNumber PhysAddr.toNat
  simp only [UInt64.toNat_shiftLeft, UInt64.toNat_ofNat']
  have h12 : (12 : UInt64).toNat % 64 = 12 := rfl
  rw [h12, Nat.shiftLeft_eq, pageSize]
  omega

theorem pageAt_pageNumber {q : Nat} (h : q < 2 ^ 52) : (pageAt q).pageNumber = q := by
  unfold PhysAddr.pageNumber
  rw [pageAt_toNat h]
  exact Nat.mul_div_cancel _ (by decide)

theorem inPage_toNat {q off : Nat} (hq : q < 2 ^ 40) (ho : off < pageSize) :
    ((pageAt q).inPage off).toNat = q * pageSize + off := by
  have hpage : (pageAt q).val.toNat = q * pageSize := pageAt_toNat (by omega)
  unfold PhysAddr.inPage PhysAddr.toNat
  rw [UInt64.toNat_add, hpage, UInt64.toNat_ofNat']
  unfold pageSize at *
  omega

theorem inPage_pageNumber {q off : Nat} (hq : q < 2 ^ 40) (ho : off < pageSize) :
    ((pageAt q).inPage off).pageNumber = q := by
  unfold PhysAddr.pageNumber
  rw [inPage_toNat hq ho]
  unfold pageSize at *
  omega

theorem FrameRef.pa_eq_pageAt (ref : FrameRef) : ref.pa = pageAt ref.number := rfl

/-- An aligned address is that of its page. -/
theorem eq_pageAt_pageNumber {pa : PhysAddr} (h : pa.toNat % pageSize = 0) :
    pa = pageAt pa.pageNumber := by
  have hlt : pa.pageNumber < 2 ^ 52 := by
    have := pa.val.toNat_lt
    unfold PhysAddr.pageNumber PhysAddr.toNat pageSize
    omega
  have hval : pa.val = (pageAt pa.pageNumber).val := by
    rw [← UInt64.toNat_inj]
    show pa.toNat = (pageAt pa.pageNumber).toNat
    rw [pageAt_toNat hlt, PhysAddr.pageNumber]
    exact (Nat.div_mul_cancel (Nat.dvd_of_mod_eq_zero h)).symm
  cases pa
  exact congrArg PhysAddr.mk hval

theorem ofNat_eq_pageAt {q : Nat} : (⟨UInt64.ofNat (q * pageSize)⟩ : PhysAddr) = pageAt q := by
  have h : UInt64.ofNat (q * pageSize) = (UInt64.ofNat q) <<< 12 := by
    rw [← UInt64.toNat_inj]
    simp only [UInt64.toNat_shiftLeft, UInt64.toNat_ofNat']
    have h12 : (12 : UInt64).toNat % 64 = 12 := rfl
    rw [h12, Nat.shiftLeft_eq, pageSize]
    omega
  exact congrArg PhysAddr.mk h

/-! ### Bits -/

theorem wordBit_eq (w i : UInt64) (h : i.toNat < 64) : wordBit w i = w.toNat.testBit i.toNat := by
  unfold wordBit
  rw [Nat.testBit_eq_decide_div_mod_eq]
  have hbit : (w >>> i &&& 1).toNat = w.toNat / 2 ^ i.toNat % 2 := by
    rw [UInt64.toNat_and, UInt64.toNat_shiftRight, Nat.mod_eq_of_lt h, Nat.shiftRight_eq_div_pow]
    exact Nat.and_one_is_mod _
  rw [Bool.eq_iff_iff]
  simp only [beq_iff_eq, decide_eq_true_eq, ← UInt64.toNat_inj, hbit]
  rfl

theorem Entry.testBit_addrMask (i : Nat) :
    addrMask.toNat.testBit i = (decide (12 ≤ i) && decide (i < 52)) := by
  have h : addrMask.toNat = (2 ^ 40 - 1) <<< 12 := by decide
  rw [h, Nat.testBit_shiftLeft, Nat.testBit_two_pow_sub_one]
  by_cases hi : 12 ≤ i
  · simp only [ge_iff_le, hi, decide_true, Bool.true_and, decide_eq_decide]
    omega
  · simp [hi]

theorem testBit_pageAt {q : Nat} (h : q < 2 ^ 40) {i : Nat} (hi : i < 12 ∨ 52 ≤ i) :
    (pageAt q).val.toNat.testBit i = false := by
  have hq : (pageAt q).val.toNat = q <<< 12 := by
    rw [Nat.shiftLeft_eq]
    exact pageAt_toNat (by omega)
  rw [hq, Nat.testBit_shiftLeft]
  rcases hi with hi | hi
  · simp [hi]
  · have hlt : q < 2 ^ (i - 12) := lt_of_lt_of_le h (Nat.pow_le_pow_right (by decide) (by omega))
    rw [Nat.testBit_lt_two_pow hlt, Bool.and_false]

theorem testBit_foldr_or (i : Nat) : ∀ l : List (Bool × UInt64),
    (l.foldr (fun (p : Bool × UInt64) w => if p.1 then p.2 ||| w else w) 0).toNat.testBit i =
      l.any fun p => p.1 && p.2.toNat.testBit i
  | [] => by simp
  | (b, w) :: l => by
    rw [List.foldr_cons, List.any_cons, ← testBit_foldr_or i l]
    cases b
    · simp
    · simp [UInt64.toNat_or, Nat.testBit_or]

theorem Flags.testBit_toWord (f : Flags) (i : Nat) :
    f.toWord.toNat.testBit i = f.bits.any fun p => p.1 && p.2.toNat.testBit i :=
  testBit_foldr_or i f.bits

/-- No flag is in a bit of the address. -/
theorem Flags.testBit_toWord_addr (f : Flags) {i : Nat} (h1 : 12 ≤ i) (h2 : i < 52) :
    f.toWord.toNat.testBit i = false := by
  have low : ∀ w : UInt64, w.toNat < 2 ^ 12 → w.toNat.testBit i = false := fun w hw =>
    Nat.testBit_lt_two_pow (lt_of_lt_of_le hw (Nat.pow_le_pow_right (by decide) h1))
  have high : (0x8000000000000000 : UInt64).toNat.testBit i = false := by
    have h63 : (0x8000000000000000 : UInt64).toNat = 2 ^ 63 := by decide
    rw [h63, Nat.testBit_two_pow, decide_eq_false_iff_not]
    omega
  rw [f.testBit_toWord, List.any_eq_false]
  intro p hp
  simp only [Flags.bits, List.mem_cons, List.not_mem_nil, or_false] at hp
  rcases hp with rfl | rfl | rfl | rfl | rfl | rfl | rfl | rfl | rfl | rfl <;>
    simp only [Bool.and_eq_true, not_and, Bool.not_eq_true] <;> intro _ <;>
    first | exact low _ (by decide) | exact high

/-- The flags in a word are those it was made of. -/
theorem Flags.ofWord_toWord (f : Flags) : Flags.ofWord f.toWord = f := by
  have bit : ∀ i : UInt64, i.toNat < 64 →
      wordBit f.toWord i = f.bits.any fun p => p.1 && p.2.toNat.testBit i.toNat :=
    fun i h => by rw [wordBit_eq _ _ h, f.testBit_toWord]
  unfold Flags.ofWord
  rw [bit 0 (by decide), bit 1 (by decide), bit 2 (by decide), bit 3 (by decide),
    bit 4 (by decide), bit 5 (by decide), bit 6 (by decide), bit 7 (by decide),
    bit 8 (by decide), bit 63 (by decide)]
  simp [Flags.bits, Nat.testBit]

namespace Entry

/-! ### Linked entries -/

theorem addr_link {q : Nat} (h : q < 2 ^ 40) (f : Flags) : (link (pageAt q) f).addr = pageAt q := by
  have hword : ((pageAt q).val ||| f.toWord) &&& addrMask = (pageAt q).val := by
    rw [← UInt64.toNat_inj]
    refine Nat.eq_of_testBit_eq fun i => ?_
    rw [UInt64.toNat_and, UInt64.toNat_or, Nat.testBit_and, Nat.testBit_or, testBit_addrMask]
    by_cases hi : 12 ≤ i ∧ i < 52
    · rw [f.testBit_toWord_addr hi.1 hi.2]
      simp [hi.1, hi.2]
    · rw [testBit_pageAt h (by omega)]
      have : (decide (12 ≤ i) && decide (i < 52)) = false := by simpa using hi
      rw [this, Bool.and_false]
  exact congrArg PhysAddr.mk hword

theorem pageNumber_link {q : Nat} (h : q < 2 ^ 40) (f : Flags) :
    (link (pageAt q) f).addr.pageNumber = q := by
  rw [addr_link h, pageAt_pageNumber (by omega)]

theorem flags_link {q : Nat} (h : q < 2 ^ 40) (f : Flags) : (link (pageAt q) f).flags = f := by
  have bit : ∀ i : UInt64, i.toNat < 64 → (i.toNat < 12 ∨ 52 ≤ i.toNat) →
      wordBit ((pageAt q).val ||| f.toWord) i = wordBit f.toWord i := by
    intro i h1 h2
    rw [wordBit_eq _ _ h1, wordBit_eq _ _ h1, UInt64.toNat_or, Nat.testBit_or,
      testBit_pageAt h h2, Bool.false_or]
  refine Eq.trans ?_ f.ofWord_toWord
  unfold flags link Flags.ofWord
  simp only [bit 0 (by decide) (by decide), bit 1 (by decide) (by decide),
    bit 2 (by decide) (by decide), bit 3 (by decide) (by decide), bit 4 (by decide) (by decide),
    bit 5 (by decide) (by decide), bit 6 (by decide) (by decide), bit 7 (by decide) (by decide),
    bit 8 (by decide) (by decide), bit 63 (by decide) (by decide)]

theorem present_link {q : Nat} (h : q < 2 ^ 40) (f : Flags) :
    (link (pageAt q) f).present = f.present :=
  congrArg Flags.present (flags_link h f)

theorem writable_link {q : Nat} (h : q < 2 ^ 40) (f : Flags) :
    (link (pageAt q) f).writable = f.writable :=
  congrArg Flags.writable (flags_link h f)

theorem user_link {q : Nat} (h : q < 2 ^ 40) (f : Flags) : (link (pageAt q) f).user = f.user :=
  congrArg Flags.user (flags_link h f)

theorem large_link {q : Nat} (h : q < 2 ^ 40) (f : Flags) : (link (pageAt q) f).large = f.large :=
  congrArg Flags.large (flags_link h f)

theorem noExecute_link {q : Nat} (h : q < 2 ^ 40) (f : Flags) :
    (link (pageAt q) f).noExecute = f.noExecute :=
  congrArg Flags.noExecute (flags_link h f)

theorem page?_link {q : Nat} (h : q < 2 ^ 40) {f : Flags} (hf : f.present = true) :
    (link (pageAt q) f).page? = some q := by
  unfold page?
  rw [present_link h, hf, if_pos rfl, addr_link h, pageAt_pageNumber (by omega)]

theorem page?_link_table {n c : Nat} [Addressable n] (h : c < n) :
    (link (pageAt c) .table).page? = some c :=
  page?_link (lt_of_lt_of_le h Addressable.le) rfl

/-! ### Any entry -/

theorem addr_toNat_mod (e : Entry) : e.addr.toNat % pageSize = 0 := by
  unfold addr PhysAddr.toNat pageSize
  have h12 : (4096 : Nat) = 2 ^ 12 := rfl
  have hmask : addrMask.toNat % 2 ^ 12 = 0 := by decide
  rw [UInt64.toNat_and, h12, Nat.and_mod_two_pow, hmask, Nat.and_zero]

theorem addr_toNat_lt (e : Entry) : e.addr.toNat < 2 ^ 52 := by
  unfold addr PhysAddr.toNat
  rw [UInt64.toNat_and]
  exact lt_of_le_of_lt Nat.and_le_right (by decide : addrMask.toNat < 2 ^ 52)

/-- The address in an entry is that of a page. -/
theorem addr_eq_pageAt (e : Entry) : e.addr = pageAt e.addr.pageNumber :=
  eq_pageAt_pageNumber e.addr_toNat_mod

theorem present_of_page? {e : Entry} {q : Nat} (h : e.page? = some q) : e.present = true := by
  unfold page? at h
  split at h
  · assumption
  · cases h

theorem addr_of_page? {e : Entry} {q : Nat} (h : e.page? = some q) : e.addr = pageAt q := by
  unfold page? at h
  split at h
  · cases h
    exact e.addr_eq_pageAt
  · cases h

theorem addr?_of_page? {e : Entry} {q : Nat} (h : e.page? = some q) :
    e.addr? = some (pageAt q) := by
  rw [addr?, if_pos (present_of_page? h), addr_of_page? h]

theorem frame?_of_page? {e : Entry} {q : Nat} (h : e.page? = some q) (hq : q < 2 ^ 52) :
    e.frame? = some ⟨q⟩ := by
  rw [frame?, addr?_of_page? h, Option.map_some, FrameRef.ofAddr, pageAt_pageNumber hq]

theorem page?_eq_none {e : Entry} : e.page? = none ↔ e.present = false := by
  unfold page?
  split <;> simp_all

theorem addr?_of_page?_none {e : Entry} (h : e.page? = none) : e.addr? = none := by
  rw [addr?, page?_eq_none.mp h]
  rfl

theorem frame?_of_page?_none {e : Entry} (h : e.page? = none) : e.frame? = none := by
  rw [frame?, addr?_of_page?_none h]
  rfl

theorem frame?_numbers (e : Entry) : e.frame?.toList.map (·.number) = e.page?.toList := by
  unfold frame? addr? page?
  cases e.present <;> rfl

theorem page?_lt {e : Entry} {q : Nat} (h : e.page? = some q) : q < 2 ^ 40 := by
  unfold page? at h
  split at h
  · cases h
    have := e.addr_toNat_lt
    unfold PhysAddr.pageNumber pageSize
    omega
  · cases h

theorem page?_empty : Entry.empty.page? = none := rfl

end Entry

end PagedKernel
