import PagedKernel.Proofs.Machine.Entries

/-!
# The slots of a table

A table is a page, and its slots are the 512 words of the page. `Memory.slot` is the entry in a slot
and `Memory.setSlot` the memory with another entry there; for tables that are installed they are
what `Memory.readEntry` and `Memory.writeEntry` do. A slot depends on the bytes of its page alone.

Key definitions: `Memory.slot`, `Memory.setSlot`.
Key theorems: `Memory.readEntry_pageAt`, `Memory.writeEntry_pageAt`, `Memory.slot_setSlot`.
-/

namespace PagedKernel

/-- The bytes of a word make it up again. -/
theorem wordOfBytes_bytes (w : UInt64) :
    wordOfBytes w.toUInt8 (w >>> 8).toUInt8 (w >>> 16).toUInt8 (w >>> 24).toUInt8
      (w >>> 32).toUInt8 (w >>> 40).toUInt8 (w >>> 48).toUInt8 (w >>> 56).toUInt8 = w := by
  rw [← UInt64.toNat_inj]
  have hw := w.toNat_lt
  simp only [wordOfBytes, UInt64.toNat_add, UInt64.toNat_shiftLeft, UInt8.toNat_toUInt64,
    UInt64.toNat_toUInt8, UInt64.toNat_shiftRight, Nat.shiftRight_eq_div_pow, Nat.shiftLeft_eq]
  simp only [UInt64.reduceToNat, Nat.reduceMod, Nat.reducePow]
  omega

theorem mod_slots_lt (a : Nat) : a % 512 < 512 :=
  Nat.mod_lt _ (by decide)

theorem page_add_div (q : Nat) {o : Nat} (h : o < pageSize) : (q * pageSize + o) / pageSize = q := by
  rw [Nat.mul_comm, Nat.mul_add_div (by decide), Nat.div_eq_of_lt h, Nat.add_zero]

theorem page_add_mod (q : Nat) {o : Nat} (h : o < pageSize) : (q * pageSize + o) % pageSize = o := by
  rw [Nat.mul_comm, Nat.mul_add_mod, Nat.mod_eq_of_lt h]

namespace Memory

variable {n : Nat}

/-! ### Single bytes -/

theorem installed_one {m : Memory n} {pa : PhysAddr} : m.installed pa 1 = true ↔ pa.pageNumber < n := by
  unfold installed PhysAddr.pageNumber pageSize
  rw [decide_eq_true_eq]
  omega

theorem readByte_of_lt (m : Memory n) {pa : PhysAddr} (h : pa.pageNumber < n) :
    m.readByte pa = .ok (m.byte pa.toNat) :=
  if_pos (installed_one.mpr h)

theorem lt_of_readByte {m : Memory n} {pa : PhysAddr} {b : UInt8} (h : m.readByte pa = .ok b) :
    pa.pageNumber < n := by
  by_contra hge
  unfold readByte at h
  rw [if_neg fun hin => hge (installed_one.mp hin)] at h
  cases h

theorem writeByte_of_lt (m : Memory n) {pa : PhysAddr} (v : UInt8) (h : pa.pageNumber < n) :
    m.writeByte pa v = .ok (m.putByte pa.toNat v) :=
  if_pos (installed_one.mpr h)

/-! ### Slots -/

/-- The entry in slot `s` of the table in page number `q`. -/
def slot (m : Memory n) (q s : Nat) : Entry :=
  ⟨m.word (q * pageSize + 8 * s)⟩

/-- The memory with the entry `e` in slot `s` of the table in page number `q`. -/
def setSlot (m : Memory n) (q s : Nat) (e : Entry) : Memory n :=
  m.putBytes (q * pageSize + 8 * s) (bytesOfWord e.raw)

/-! ### Bytes -/

theorem byte_putBytes_of_lt {a b : Nat} : ∀ (m : Memory n) (data : List UInt8),
    b < a ∨ a + data.length ≤ b → (m.putBytes a data).byte b = m.byte b
  | _, [], _ => rfl
  | m, v :: data, h => by
    rw [List.length_cons] at h
    rw [putBytes, byte_putBytes_of_lt _ data (by omega), byte_putByte, if_neg (by omega)]

theorem byte_putBytes {a : Nat} : ∀ (m : Memory n) (data : List UInt8) (i : Nat)
    (h : i < data.length), (a + i) / pageSize < n → (m.putBytes a data).byte (a + i) = data[i]
  | m, v :: data, 0, _, hn => by
    rw [putBytes, byte_putBytes_of_lt _ data (by omega), byte_putByte, if_pos ⟨rfl, hn⟩]
    rfl
  | m, v :: data, i + 1, h, hn => by
    have ih := byte_putBytes (a := a + 1) (m.putByte a v) data i (by simpa using h)
      (by rwa [show a + 1 + i = a + (i + 1) by omega])
    rw [putBytes, ← show a + 1 + i = a + (i + 1) by omega, ih]
    rfl

/-- A byte that two memories have in common is still so when both are written alike. -/
theorem byte_putBytes_congr {b : Nat} : ∀ (data : List UInt8) {m m' : Memory n},
    m'.byte b = m.byte b → ∀ a, (m'.putBytes a data).byte b = (m.putBytes a data).byte b
  | [], _, _, h, _ => h
  | v :: data, m, m', h, a => by
    refine byte_putBytes_congr data ?_ (a + 1)
    rw [byte_putByte, byte_putByte, h]

theorem installed_inPage (m : Memory n) {q off len : Nat} (h40 : q < 2 ^ 40) (hq : q < n)
    (ho : off < pageSize) (hd : off + len ≤ pageSize) :
    m.installed ((pageAt q).inPage off) len = true := by
  have hend : (q + 1) * pageSize ≤ n * pageSize := Nat.mul_le_mul_right _ hq
  rw [Nat.add_mul, Nat.one_mul] at hend
  unfold installed
  rw [inPage_toNat h40 ho, decide_eq_true_eq]
  omega

theorem writeBytes_eq_putBytes [Addressable n] (m : Memory n) {q off : Nat} (data : List UInt8)
    (hq : q < n) (ho : off < pageSize) (hd : off + data.length ≤ pageSize) :
    m.writeBytes ((pageAt q).inPage off) data = .ok (m.putBytes (q * pageSize + off) data) := by
  have h40 := lt_of_lt_of_le hq (Addressable.le (n := n))
  unfold writeBytes
  rw [if_pos (m.installed_inPage h40 hq ho hd), inPage_toNat h40 ho]

/-- Bytes that fit into an installed page are written there, and all other pages are left alone. -/
theorem writeBytes_inPage [Addressable n] (m : Memory n) {q off : Nat} (data : List UInt8)
    (hq : q < n) (ho : off < pageSize) (hd : off + data.length ≤ pageSize) :
    ∃ m', m.writeBytes ((pageAt q).inPage off) data = .ok m' ∧
      ∀ a, a / pageSize ≠ q → m'.byte a = m.byte a := by
  refine ⟨_, m.writeBytes_eq_putBytes data hq ho hd, fun a ha => ?_⟩
  apply byte_putBytes_of_lt
  unfold pageSize at *
  omega

theorem byte_writeBytes [Addressable n] {m m' : Memory n} {q off i : Nat} {data : List UInt8}
    (hq : q < n) (hd : off + data.length ≤ pageSize)
    (hok : m.writeBytes ((pageAt q).inPage off) data = .ok m') (hi : i < data.length) :
    m'.byte (q * pageSize + (off + i)) = data[i] := by
  rw [m.writeBytes_eq_putBytes data hq (by omega) hd] at hok
  obtain rfl := Except.ok.inj hok
  rw [← Nat.add_assoc]
  refine byte_putBytes m data i hi ?_
  rwa [Nat.add_assoc, page_add_div q (by omega)]

theorem byte_setPage (m : Memory n) (pn a : Nat) (p : PageData) (h : pn < n) :
    (m.setPage pn p h).byte a =
      if a / pageSize = pn then p.get (a % pageSize) (mod_pageSize_lt a) else m.byte a := by
  unfold byte setPage
  by_cases ha : a / pageSize = pn
  · subst ha
    simp [h]
  · rw [if_neg ha]
    split
    · rw [Vector.getElem_set_ne _ _ (fun h => ha h.symm)]
    · rfl

theorem byte_fillPage (m : Memory n) (pn a : Nat) (v : UInt8) (h : pn < n) :
    (m.setPage pn (PageData.fill v) h).byte a = if a / pageSize = pn then v else m.byte a := by
  rw [byte_setPage, PageData.get_fill]

/-! ### Slots -/

theorem slot_div {q s : Nat} (hs : s < slotsPerTable) {i : Nat} (hi : i < 8) :
    (q * pageSize + 8 * s + i) / pageSize = q := by
  unfold slotsPerTable at hs
  unfold pageSize
  omega

theorem word_of_bytes {m : Memory n} {a : Nat} {b : Nat → UInt8}
    (h : ∀ i < 8, m.byte (a + i) = b i) :
    m.word a = wordOfBytes (b 0) (b 1) (b 2) (b 3) (b 4) (b 5) (b 6) (b 7) := by
  have h0 := h 0 (by decide)
  rw [Nat.add_zero] at h0
  unfold word
  rw [h0, h 1 (by decide), h 2 (by decide), h 3 (by decide), h 4 (by decide), h 5 (by decide),
    h 6 (by decide), h 7 (by decide)]

theorem slot_of_bytes {m : Memory n} {q s : Nat} {b : Nat → UInt8}
    (h : ∀ i < 8, m.byte (q * pageSize + 8 * s + i) = b i) :
    m.slot q s = ⟨wordOfBytes (b 0) (b 1) (b 2) (b 3) (b 4) (b 5) (b 6) (b 7)⟩ :=
  congrArg Entry.mk (word_of_bytes h)

/-- A slot depends on the bytes of its page alone. -/
theorem slot_congr {m m' : Memory n} {q s : Nat} (hs : s < slotsPerTable)
    (h : ∀ a, a / pageSize = q → m'.byte a = m.byte a) : m'.slot q s = m.slot q s := by
  rw [slot_of_bytes fun i hi => h _ (slot_div hs hi)]
  exact (slot_of_bytes fun _ _ => rfl).symm

/-- The slots of a page of zeros are empty. -/
theorem slot_of_zeros {m : Memory n} {q s : Nat} (hs : s < slotsPerTable)
    (h : ∀ a, a / pageSize = q → m.byte a = 0) : m.slot q s = .empty :=
  slot_of_bytes (b := fun _ => 0) fun _ hi => h _ (slot_div hs hi)

theorem slot_zeroed {n q s : Nat} (hs : s < slotsPerTable) : (zeroed n).slot q s = .empty := by
  refine slot_of_zeros hs fun a _ => ?_
  unfold byte zeroed
  split
  · rw [Vector.getElem_replicate, PageData.get_fill]
  · rfl

theorem byte_setSlot {m : Memory n} {q s a : Nat} {e : Entry} (hs : s < slotsPerTable)
    (ha : a / pageSize ≠ q) : (m.setSlot q s e).byte a = m.byte a := by
  apply byte_putBytes_of_lt
  rw [show (bytesOfWord e.raw).length = 8 from rfl]
  by_contra hc
  have hq := slot_div (q := q) hs (i := a - (q * pageSize + 8 * s)) (by omega)
  rw [Nat.add_sub_cancel' (by omega)] at hq
  exact ha hq

/-- Only the word of the slot is written. -/
theorem byte_setSlot_of_ne {m : Memory n} {q s a : Nat} {e : Entry} (ha : a / 8 ≠ 512 * q + s) :
    (m.setSlot q s e).byte a = m.byte a := by
  apply byte_putBytes_of_lt
  rw [show (bytesOfWord e.raw).length = 8 from rfl]
  unfold pageSize
  omega

theorem slot_setSlot_self {m : Memory n} {q s : Nat} {e : Entry} (hq : q < n)
    (hs : s < slotsPerTable) : (m.setSlot q s e).slot q s = e := by
  have hb : ∀ i < 8, (m.setSlot q s e).byte (q * pageSize + 8 * s + i) =
      (bytesOfWord e.raw).getD i 0 := fun i hi => by
    rw [setSlot, byte_putBytes m (bytesOfWord e.raw) i hi (by rwa [slot_div hs hi])]
    exact List.getElem_eq_getD 0
  rw [slot_of_bytes hb]
  exact congrArg Entry.mk (wordOfBytes_bytes e.raw)

theorem slot_setSlot_ne {m : Memory n} {q s q' s' : Nat} {e : Entry} (hs : s < slotsPerTable)
    (hs' : s' < slotsPerTable) (h : ¬ (q' = q ∧ s' = s)) :
    (m.setSlot q s e).slot q' s' = m.slot q' s' := by
  by_cases hq : q' = q
  · -- another slot of the same page: its eight bytes lie beside those written
    subst hq
    have hne : s' ≠ s := fun hs => h ⟨rfl, hs⟩
    refine (slot_of_bytes fun i hi => byte_putBytes_of_lt _ _ ?_).trans
      (slot_of_bytes fun _ _ => rfl).symm
    rw [show (bytesOfWord e.raw).length = 8 from rfl]
    omega
  · exact slot_congr hs' fun a ha => byte_setSlot hs (ha ▸ hq)

theorem slot_setSlot {m : Memory n} {q s q' s' : Nat} {e : Entry} (hq : q < n)
    (hs : s < slotsPerTable) (hs' : s' < slotsPerTable) :
    (m.setSlot q s e).slot q' s' = if q' = q ∧ s' = s then e else m.slot q' s' := by
  split
  · next h =>
    obtain ⟨rfl, rfl⟩ := h
    exact slot_setSlot_self hq hs
  · next h => exact slot_setSlot_ne hs hs' h

/-! ### Checked accesses to slots -/

theorem slot_addr {q s : Nat} (hq : q < 2 ^ 52) (hs : s < slotsPerTable) :
    (pageAt q).add (UInt64.ofNat (8 * s)) = .ok ⟨(pageAt q).val + UInt64.ofNat (8 * s)⟩ ∧
      ((pageAt q).val + UInt64.ofNat (8 * s)).toNat = q * pageSize + 8 * s := by
  have hpa : (pageAt q).val.toNat = q * pageSize := pageAt_toNat hq
  have h8 : (UInt64.ofNat (8 * s)).toNat = 8 * s := by
    rw [UInt64.toNat_ofNat']
    unfold slotsPerTable at hs
    omega
  have hsum : (pageAt q).val.toNat + (UInt64.ofNat (8 * s)).toNat < UInt64.size := by
    rw [hpa, h8]
    unfold slotsPerTable at hs
    unfold pageSize UInt64.size
    omega
  constructor
  · unfold PhysAddr.add Word.add
    rw [if_pos hsum]
    rfl
  · rw [UInt64.toNat_add, Nat.mod_eq_of_lt hsum, hpa, h8]

theorem slot_installed {q s : Nat} (m : Memory n) (h52 : q < 2 ^ 52) (hq : q < n)
    (hs : s < slotsPerTable) :
    m.installed ⟨(pageAt q).val + UInt64.ofNat (8 * s)⟩ 8 = true := by
  unfold installed PhysAddr.toNat
  rw [(slot_addr h52 hs).2, decide_eq_true_eq]
  unfold slotsPerTable at hs
  unfold pageSize
  omega

/-- A table is read slot by slot, wherever its page is installed. -/
theorem readEntry_of_lt (m : Memory n) {q s : Nat} (h52 : q < 2 ^ 52) (hq : q < n)
    (hs : s < slotsPerTable) : m.readEntry (pageAt q) s = .ok (m.slot q s) := by
  have ha := slot_addr h52 hs
  have hr : m.readWord ⟨(pageAt q).val + UInt64.ofNat (8 * s)⟩ = .ok (m.slot q s).raw := by
    unfold readWord
    rw [if_pos (slot_installed m h52 hq hs)]
    unfold slot PhysAddr.toNat
    rw [ha.2]
  unfold readEntry
  rw [if_pos hs, ha.1]
  show (m.readWord _ >>= fun w => _) = _
  rw [hr]
  rfl

section
variable [Addressable n]

theorem lt_of_installed {q : Nat} (hq : q < n) : q < 2 ^ 52 :=
  lt_of_lt_of_le hq (Addressable.le.trans (by decide))

theorem readEntry_pageAt (m : Memory n) {q s : Nat} (hq : q < n) (hs : s < slotsPerTable) :
    m.readEntry (pageAt q) s = .ok (m.slot q s) :=
  m.readEntry_of_lt (lt_of_installed hq) hq hs

theorem writeEntry_pageAt (m : Memory n) {q s : Nat} {e : Entry} (hq : q < n)
    (hs : s < slotsPerTable) : m.writeEntry (pageAt q) s e = .ok (m.setSlot q s e) := by
  have ha := slot_addr (lt_of_installed hq) hs
  unfold writeEntry
  rw [if_pos hs, ha.1]
  show m.writeWord _ _ = _
  unfold writeWord
  rw [if_pos (slot_installed m (lt_of_installed hq) hq hs)]
  unfold setSlot PhysAddr.toNat
  rw [ha.2]

/-- A copied page holds what its source does. -/
theorem copyPage_pageAt (m : Memory n) {dst src : Nat} (hd : dst < n) (hs : src < n) :
    ∃ m', m.copyPage (pageAt dst) (pageAt src) = .ok m' ∧ ∀ a, m'.byte a =
      if a / pageSize = dst then m.byte (src * pageSize + a % pageSize) else m.byte a := by
  have hn := Addressable.le (n := n)
  have hdst : (pageAt dst).pageNumber = dst := pageAt_pageNumber (by omega)
  have hsrc : (pageAt src).pageNumber = src := pageAt_pageNumber (by omega)
  have hlt : (pageAt dst).pageNumber < n ∧ (pageAt src).pageNumber < n :=
    ⟨hdst.symm ▸ hd, hsrc.symm ▸ hs⟩
  unfold copyPage
  rw [dif_pos hlt]
  refine ⟨_, rfl, fun a => ?_⟩
  rw [byte_setPage, hdst]
  split
  · have hdiv : (src * pageSize + a % pageSize) / pageSize = src := by
      rw [Nat.mul_comm, Nat.mul_add_div (by decide), Nat.div_eq_of_lt (mod_pageSize_lt a),
        Nat.add_zero]
    have hmod : (src * pageSize + a % pageSize) % pageSize = a % pageSize := by
      rw [Nat.mul_comm, Nat.mul_add_mod, Nat.mod_mod]
    unfold byte
    simp only [hdiv, hs, dite_true, hmod, hsrc]
  · rfl

end

end Memory

attribute [irreducible] Memory.slot Memory.setSlot

end PagedKernel
