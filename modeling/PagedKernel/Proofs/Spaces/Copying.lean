import PagedKernel.Proofs.Spaces.Chunks
import PagedKernel.Proofs.Spaces.Consistency

/-!
# Copying into an address space and out of it

How far a copy goes is decided by the page table: up to the first byte whose page is not mapped
(`PageTable.Extent`). Both copies go so far, and the one into the space puts each byte where it
belongs, if none that comes later belongs to the same place, and changes nothing else
(`PageTable.Copied`). What was copied into pages that are all different is read back.

Key definitions: `PageTable.Extent`, `PageTable.Copied`, `PageTable.Apart`.
Key theorems: `PageTable.exists_extent`, `PageTable.copies_exact`.
-/

namespace PagedKernel

variable {n : Nat} {g : Shape} {f : Frames n} {m : Memory n} {t : PageTable} {va : VirtAddr}
  {tables : Set PageTable}

namespace Memory

variable {place : Nat → Option Nat} {a k len : Nat}

/-- The first addresses that are somewhere: all of them, or those before one that is nowhere. -/
theorem exists_reach (place : Nat → Option Nat) (a : Nat) : ∀ len, ∃ k ≤ len,
    (∀ i < k, place (a + i) ≠ none) ∧ (k < len → place (a + k) = none)
  | 0 => ⟨0, le_rfl, nofun, nofun⟩
  | len + 1 => by
    obtain ⟨k, hk, hmapped, hnone⟩ := exists_reach place a len
    by_cases hlt : k < len
    · exact ⟨k, by omega, hmapped, fun _ => hnone hlt⟩
    obtain rfl : k = len := by omega
    cases hp : place (a + k) with
    | none => exact ⟨k, by omega, hmapped, fun _ => hp⟩
    | some p =>
      refine ⟨k + 1, le_rfl, fun i hi => ?_, fun h => absurd h (lt_irrefl _)⟩
      rcases Nat.lt_succ_iff_lt_or_eq.mp hi with hi | rfl
      · exact hmapped i hi
      · exact hp ▸ Option.some_ne_none _

theorem copyIn_reach {data : List UInt8} (hk : k ≤ data.length)
    (hmapped : ∀ i < k, place (a + i) ≠ none) (hnone : k < data.length → place (a + k) = none) :
    m.copyIn place a data = m.copyIn place a (data.take k) := by
  have hlen : (data.take k).length = k := List.length_take_of_le hk
  rcases hk.eq_or_lt with rfl | hlt
  · rw [List.take_length]
  · conv_lhs => rw [← List.take_append_drop k data]
    rw [copyIn_append _ _ _ _ (by rwa [hlen]), hlen, copyIn_none (hnone hlt)]

theorem copyOut_reach : ∀ {k len a : Nat}, k ≤ len → (∀ i < k, place (a + i) ≠ none) →
    (k < len → place (a + k) = none) → (m.copyOut place a len).length = k ∧
      ∀ i (h : i < (m.copyOut place a len).length), ∃ p, place (a + i) = some p ∧
        (m.copyOut place a len)[i] = m.byte p
  | 0, len, a, _, _, hnone => by
    have hempty : m.copyOut place a len = [] := by
      cases len with
      | zero => rfl
      | succ len => exact copyOut_none (hnone (Nat.succ_pos len)) _
    rw [hempty]
    exact ⟨rfl, nofun⟩
  | k + 1, len + 1, a, hk, hmapped, hnone => by
    obtain ⟨p, hp⟩ : ∃ p, place a = some p :=
      Option.ne_none_iff_exists'.mp (hmapped 0 (Nat.succ_pos k))
    have hrest := copyOut_reach (a := a + 1) (Nat.le_of_succ_le_succ hk)
      (fun i hi => by rw [Nat.add_right_comm]; exact hmapped (i + 1) (Nat.succ_lt_succ hi))
      (fun h => by rw [Nat.add_right_comm]; exact hnone (Nat.succ_lt_succ h))
    rw [copyOut_succ hp]
    refine ⟨congrArg Nat.succ hrest.1, fun i hi => ?_⟩
    cases i with
    | zero => exact ⟨p, hp, rfl⟩
    | succ i =>
      obtain ⟨p', hp', hbyte⟩ := hrest.2 i (Nat.lt_of_succ_lt_succ hi)
      rw [Nat.add_right_comm] at hp'
      exact ⟨p', hp', hbyte⟩

end Memory

namespace PageTable

/-! ### How far a copy goes -/

/-- The page of the byte at address `a` is mapped. -/
def MapsByte (t : PageTable) (m : Memory n) (a : Nat) : Prop :=
  ∃ e, t.walk m (.pageOf a) = .ok (some e)

/-- A copy of `len` bytes at the addresses from `va` on transfers the first `k`, whose pages are
mapped. These are all, or the page of the next is not mapped, and they are those before that page. -/
structure Extent (t : PageTable) (m : Memory n) (va : VirtAddr) (len k : Nat)
    (res : Except MapError Unit) : Prop where
  le : k ≤ len
  mapped : ∀ i < k, t.MapsByte m (va.toNat + i)
  whole : k = len → res = .ok ()
  stopped : k < len → res = .error .notExist ∧
    t.walk m (.pageOf (va.toNat + k)) = .ok none ∧
    k = (VirtAddr.pageOf (va.toNat + k)).toNat - va.toNat

/-- The bytes `bytes` are put one after the other where the addresses from `va` on are, and nothing
else changes. -/
structure Copied (t : PageTable) (va : VirtAddr) (bytes : List UInt8) (f f' : Frames n) : Prop where
  counts : f'.counts = f.counts
  cursor : f'.cursor = f.cursor
  byte : ∀ i (h : i < bytes.length) p, t.place? f.memory (va.toNat + i) = some p →
    (∀ j, i < j → j < bytes.length → t.place? f.memory (va.toNat + j) ≠ some p) →
      f'.memory.byte p = bytes[i]
  rest : ∀ p, (∀ i < bytes.length, t.place? f.memory (va.toNat + i) ≠ some p) →
    f'.memory.byte p = f.memory.byte p

/-- The bytes `bytes` are those at the addresses from `va` on. -/
def Holds (t : PageTable) (m : Memory n) (va : VirtAddr) (bytes : List UInt8) : Prop :=
  ∀ i (h : i < bytes.length), ∃ p, t.place? m (va.toNat + i) = some p ∧ bytes[i] = m.byte p

/-- The pages of `len` bytes from `va` on are mapped to different pages. -/
def Apart (t : PageTable) (m : Memory n) (va : VirtAddr) (len : Nat) : Prop :=
  ∀ i < len, ∀ j < len, ∀ e e', t.walk m (.pageOf (va.toNat + i)) = .ok (some e) →
    t.walk m (.pageOf (va.toNat + j)) = .ok (some e') →
      VirtAddr.pageOf (va.toNat + i) ≠ VirtAddr.pageOf (va.toNat + j) → e.addr ≠ e'.addr

theorem Extent.congr {m' : Memory n} {len k : Nat} {res : Except MapError Unit}
    (h : t.Extent m va len k res) (hwalk : ∀ va', t.walk m' va' = t.walk m va') :
    t.Extent m' va len k res where
  le := h.le
  mapped i hi := by
    obtain ⟨e, he⟩ := h.mapped i hi
    exact ⟨e, (hwalk _).trans he⟩
  whole := h.whole
  stopped hlt := by
    rw [hwalk]
    exact h.stopped hlt

section
variable {a : Nat}

theorem place?_of_walk {e : Entry} (h : t.walk m (.pageOf a) = .ok (some e)) :
    t.place? m a = some (e.addr.toNat + a % pageSize) := by
  unfold place?
  rw [h]

theorem place?_ne_none : t.place? m a ≠ none ↔ t.MapsByte m a := by
  constructor
  · intro h
    unfold place? at h
    split at h
    · next e he => exact ⟨e, he⟩
    · exact absurd rfl h
  · rintro ⟨e, he⟩
    rw [place?_of_walk he]
    exact Option.some_ne_none _

/-- No walk halts, so a byte is nowhere only if its page is not mapped. -/
theorem walk_of_place?_none (h : g.Trees m) (hn : n ≤ 2 ^ 52) (hr : g.IsRoot t.root.number)
    (hnone : t.place? m a = none) : t.walk m (.pageOf a) = .ok none := by
  unfold place? at hnone
  rw [h.walk_eq_of_le hn t _ hr] at hnone ⊢
  cases hm : m.mapped t.root.number (VirtAddr.pageOf a).page with
  | none => rfl
  | some e =>
    rw [hm] at hnone
    cases hnone

end

/-- **A copy goes as far as the pages are mapped.** -/
theorem exists_extent (h : g.Trees m) (hn : n ≤ 2 ^ 52) (hr : g.IsRoot t.root.number)
    {len : Nat} (hend : va.toNat + len ≤ 2 ^ 64) : ∃ k res, t.Extent m va len k res ∧
      (k < len → t.place? m (va.toNat + k) = none) := by
  obtain ⟨k, hk, hmapped, hnone⟩ := Memory.exists_reach (t.place? m) va.toNat len
  refine ⟨k, if k = len then .ok () else .error .notExist,
    ⟨hk, fun i hi => place?_ne_none.mp (hmapped i hi), fun heq => if_pos heq, fun hlt => ?_⟩, hnone⟩
  refine ⟨if_neg hlt.ne, walk_of_place?_none h hn hr (hnone hlt), ?_⟩
  rw [VirtAddr.toNat_pageOf (by omega)]
  rcases Nat.eq_zero_or_pos k with rfl | hpos
  · unfold pageSize
    omega
  · -- the byte before is mapped, so it is in another page
    have hother : (va.toNat + (k - 1)) / pageSize ≠ (va.toNat + k) / pageSize := fun hsame => by
      obtain ⟨e, he⟩ := place?_ne_none.mp (hmapped (k - 1) (by omega))
      rw [(VirtAddr.pageOf_eq_iff (by omega) (by omega)).mpr hsame,
        walk_of_place?_none h hn hr (hnone hlt)] at he
      cases he
    unfold pageSize at *
    omega

/-- Bytes in pages that are mapped to different pages are in different places. -/
theorem Apart.injective {len : Nat} (h : t.Apart m va len) (hend : va.toNat + len ≤ 2 ^ 64)
    {i j p : Nat} (hi : i < len) (hj : j < len) (hpi : t.place? m (va.toNat + i) = some p)
    (hpj : t.place? m (va.toNat + j) = some p) : i = j := by
  obtain ⟨e, he⟩ := place?_ne_none.mp (hpi ▸ Option.some_ne_none p)
  obtain ⟨e', he'⟩ := place?_ne_none.mp (hpj ▸ Option.some_ne_none p)
  rw [place?_of_walk he, Option.some.injEq] at hpi
  rw [place?_of_walk he', ← hpi, Option.some.injEq] at hpj
  have hmod := e.addr_toNat_mod
  have hmod' := e'.addr_toNat_mod
  by_cases hpage : (va.toNat + i) / pageSize = (va.toNat + j) / pageSize
  · rw [(VirtAddr.pageOf_eq_iff (by omega) (by omega)).mpr hpage, he'] at he
    cases he
    unfold pageSize at *
    omega
  · have hne := h i hi j hj e e' he he'
      fun heq => hpage ((VirtAddr.pageOf_eq_iff (by omega) (by omega)).mp heq)
    refine absurd (congrArg PhysAddr.mk (UInt64.toNat_inj.mp ?_)) hne
    show e.addr.toNat = e'.addr.toNat
    unfold pageSize at *
    omega

/-! ### The copies -/

theorem writeBytes_copied (h : g.Fits f.memory) (hn : n ≤ 2 ^ 52) (hr : g.IsRoot t.root.number)
    {data : List UInt8} {k : Nat} {res : Except MapError Unit}
    (hend : va.toNat + data.length ≤ 2 ^ 64) (hx : t.Extent f.memory va data.length k res)
    (hnone : k < data.length → t.place? f.memory (va.toNat + k) = none) :
    t.writeBytes va data f = .ok res { f with
        memory := f.memory.copyIn (t.place? f.memory) va.toNat data } ∧
      t.Copied va (data.take k) f { f with
        memory := f.memory.copyIn (t.place? f.memory) va.toNat data } := by
  have hmapped : ∀ i < k, t.place? f.memory (va.toNat + i) ≠ none := fun i hi =>
    place?_ne_none.mpr (hx.mapped i hi)
  constructor
  · obtain ⟨all, f', hdone, hall, rfl⟩ := (writeFrom_ends_copyIn h hn hr hend).ok
    unfold writeBytes
    show EStateM.bind _ _ _ = _
    unfold EStateM.bind
    rw [hdone]
    refine congrArg (EStateM.Result.ok · _) ?_
    rcases hx.le.eq_or_lt with heq | hlt
    · rw [if_pos (hall.mpr (heq ▸ hmapped)), hx.whole heq]
    · rw [if_neg fun htrue => hall.mp htrue k hlt (hnone hlt), (hx.stopped hlt).1]
  · rw [Memory.copyIn_reach hx.le hmapped hnone]
    have hlen : (data.take k).length = k := List.length_take_of_le hx.le
    refine ⟨rfl, rfl, fun i hi p hp hlast => ?_, fun p hp => Memory.byte_copyIn_of_ne _ _ _ hp⟩
    have htarget := (h.place?_target hn hr hp).2
    exact Memory.byte_copyIn_last hi (fun j hj => hmapped j (by omega)) hp htarget hlast

theorem readInto_holds (h : g.Fits m) (hn : n ≤ 2 ^ 52) (hr : g.IsRoot t.root.number)
    {buf : List UInt8} {k : Nat} {res : Except MapError Unit}
    (hend : va.toNat + buf.length ≤ 2 ^ 64) (hx : t.Extent m va buf.length k res)
    (hnone : k < buf.length → t.place? m (va.toNat + k) = none) : ∃ bytes, bytes.length = k ∧
      t.Holds m va bytes ∧ t.readInto m va buf = .ok (res, bytes ++ buf.drop k) := by
  have hmapped : ∀ i < k, t.place? m (va.toNat + i) ≠ none := fun i hi =>
    place?_ne_none.mpr (hx.mapped i hi)
  obtain ⟨hlen, hholds⟩ := Memory.copyOut_reach hx.le hmapped hnone (m := m)
  have hread : t.readBytes m va buf.length = .ok (m.copyOut (t.place? m) va.toNat buf.length) :=
    readFrom_eq h hn hr 0 buf.length hend
  refine ⟨_, hlen, hholds, ?_⟩
  unfold readInto
  rw [hread]
  show Except.ok _ = _
  rw [hlen]
  refine congrArg (fun res => Except.ok (res, _)) ?_
  rcases hx.le.eq_or_lt with heq | hlt
  · rw [if_pos heq, hx.whole heq]
  · rw [if_neg hlt.ne, (hx.stopped hlt).1]

/-- Bytes that were put in pages that are all different are read back. -/
theorem readInto_copied {f' : Frames n} {data buf : List UInt8} {k : Nat}
    {res : Except MapError Unit} (h : g.Fits f'.memory) (hn : n ≤ 2 ^ 52)
    (hr : g.IsRoot t.root.number) (hlen : buf.length = data.length)
    (hend : va.toNat + data.length ≤ 2 ^ 64)
    (hwalk : ∀ va', t.walk f'.memory va' = t.walk f.memory va')
    (hx : t.Extent f.memory va data.length k res)
    (hnone : k < data.length → t.place? f.memory (va.toNat + k) = none)
    (hcopied : t.Copied va (data.take k) f f') (hapart : t.Apart f.memory va data.length) :
    t.readInto f'.memory va buf = .ok (res, data.take k ++ buf.drop k) := by
  have hplace : t.place? f'.memory = t.place? f.memory := by
    funext a
    unfold place?
    rw [hwalk]
  have hle := hx.le
  have htake : (data.take k).length = k := List.length_take_of_le hle
  rw [← hlen] at hx
  obtain ⟨bytes, hk, hholds, hread⟩ := readInto_holds h hn hr (by omega) (hx.congr hwalk)
    fun hlt => by
      rw [hplace]
      exact hnone (by omega)
  have hbytes : bytes = data.take k := by
    refine List.ext_getElem (hk.trans htake.symm) fun i hi hi' => ?_
    obtain ⟨p, hp, hbyte⟩ := hholds i hi
    rw [hplace] at hp
    rw [hbyte]
    refine hcopied.byte i hi' p hp fun j hij hj hpj => ?_
    have heq := hapart.injective hend (by omega) (by omega) hp hpj
    omega
  rw [hread, hbytes]

/-- **The copies are copies byte by byte.** In any memory that words can address and whose page
tables are coherent, for any data and any addresses: both copies transfer the bytes before the first
page that is not mapped, or all if there is none, which is when they succeed. The one into the space
puts each byte where it belongs and changes nothing else, no page table, no count and no other byte;
that out of it leaves the rest of the buffer. What was copied into pages that are all different is
read back. -/
theorem copies_exact (hn : n ≤ 2 ^ 52) (h : f.memory.Coherent tables) (ht : t ∈ tables)
    (va : VirtAddr) (data : List UInt8) (hend : va.toNat + data.length ≤ 2 ^ 64) :
    ∃ k res f', t.Extent f.memory va data.length k res ∧
      (res = .ok () ↔ ∀ i < data.length, t.MapsByte f.memory (va.toNat + i)) ∧
      t.writeBytes va data f = .ok res f' ∧ t.Copied va (data.take k) f f' ∧
      (∀ t' ∈ tables, ∀ va', t'.walk f'.memory va' = t'.walk f.memory va') ∧
      (∀ buf, buf.length = data.length → ∃ bytes, bytes.length = k ∧ t.Holds f.memory va bytes ∧
        t.readInto f.memory va buf = .ok (res, bytes ++ buf.drop k)) ∧
      (t.Apart f.memory va data.length → res = .ok () → ∀ buf, buf.length = data.length →
        t.readInto f'.memory va buf = .ok (.ok (), data)) := by
  have hfits := h.fits
  have hroot : ∀ t' ∈ tables, (f.memory.shape tables).IsRoot t'.root.number := fun t' ht' =>
    (Memory.isRoot_shape h.distinct).mpr ht'
  have hr := hroot t ht
  obtain ⟨k, res, hx, hnone⟩ := exists_extent hfits.toTrees hn hr hend
  obtain ⟨hwrite, hcopied⟩ := writeBytes_copied hfits hn hr hend hx hnone
  have hw := hfits.copyIn_wrote hn hr va.toNat data
  have hfits' := hw.fits (fun _ hq => hq) hfits
  have hwalk : ∀ t' ∈ tables, ∀ va', t'.walk _ va' = t'.walk f.memory va' := fun t' ht' va' => by
    rw [hfits'.walk_eq_of_le hn t' va' (hroot t' ht'), hfits.walk_eq_of_le hn t' va' (hroot t' ht'),
      hw.mapped (fun _ hq => hq) hfits (hroot t' ht')]
  have hwhole : res = .ok () ↔ k = data.length := by
    refine ⟨fun hres => ?_, hx.whole⟩
    by_contra hne
    have herror := (hx.stopped (lt_of_le_of_ne hx.le hne)).1
    rw [hres] at herror
    cases herror
  refine ⟨k, res, _, hx, ⟨fun hres => hwhole.mp hres ▸ hx.mapped, fun hall => ?_⟩, hwrite, hcopied,
    hwalk, fun buf hbuf => ?_, fun hapart hres buf hbuf => ?_⟩
  · by_contra hres
    have hlt := lt_of_le_of_ne hx.le fun heq => hres (hwhole.mpr heq)
    exact place?_ne_none.mpr (hall k hlt) (hnone hlt)
  · exact readInto_holds hfits hn hr (hbuf ▸ hend) (hbuf ▸ hx) (hbuf ▸ hnone)
  · have hread := readInto_copied hfits' hn hr hbuf hend (hwalk t ht) hx hnone hcopied hapart
    rwa [hres, hwhole.mp hres, List.take_length, ← hbuf, List.drop_length, List.append_nil] at hread

/-- Two bytes at the end of the only page that is mapped are written and read back. Of three the
third is in the next page, so two are copied. -/
theorem copies_exact_one_page : ∃ (f f₁ f₂ : Frames physicalPages) (t : PageTable)
    (bytes : List UInt8), f.memory.Coherent {t' | t' ∈ [t]} ∧
      t.writeBytes ⟨0x1ffe⟩ [1, 2] f = .ok (.ok ()) f₁ ∧
      t.readInto f₁.memory ⟨0x1ffe⟩ [0, 0] = .ok (.ok (), [1, 2]) ∧
      t.writeBytes ⟨0x1ffe⟩ [1, 2, 3] f = .ok (.error .notExist) f₂ ∧
      t.readInto f.memory ⟨0x1ffe⟩ [7, 8, 9] = .ok (.error .notExist, bytes ++ [9]) ∧
      bytes.length = 2 := by
  obtain ⟨g, f, r, c, hone, hacc, hall, hconsistent, -⟩ := OnePage.exists_consistent
  have ht : (⟨⟨r⟩⟩ : PageTable) ∈ [⟨⟨r⟩⟩] := List.mem_singleton_self _
  have hwalk : ∀ a, PageTable.walk ⟨⟨r⟩⟩ f.memory (.pageOf a) = .ok (f.memory.mapped r
      (VirtAddr.pageOf a).page) := fun a => hall.walk_eq hacc.fits ht _
  have hpage : (VirtAddr.pageOf 0x1ffe).page = 1 ∧ (VirtAddr.pageOf 0x1fff).page = 1 ∧
      (VirtAddr.pageOf 0x2000).page = 2 := by
    unfold VirtAddr.page pagesPerSpace
    decide
  have hnext : PageTable.walk ⟨⟨r⟩⟩ f.memory (.pageOf 0x2000) = .ok none := by
    rw [hwalk, hpage.2.2, hone.mapped]
    rfl
  have hmaps : ∀ i < 2, PageTable.MapsByte ⟨⟨r⟩⟩ f.memory (0x1ffe + i) := fun i hi => by
    have hlast : (VirtAddr.pageOf (0x1ffe + i)).page = 1 := by
      interval_cases i
      · exact hpage.1
      · exact hpage.2.1
    refine ⟨.link (pageAt c) Permission.userData.toFlags, (hwalk _).trans ?_⟩
    rw [hlast, hone.mapped_one]
  obtain ⟨k, res, f₁, -, hok, hwrite, -, -, -, hback⟩ :=
    copies_exact (by decide) hconsistent.coherent ht ⟨0x1ffe⟩ [1, 2] (by decide)
  obtain rfl : res = .ok () := hok.mpr hmaps
  have hapart : PageTable.Apart ⟨⟨r⟩⟩ f.memory ⟨0x1ffe⟩ 2 := fun i hi j hj _ _ _ _ hne => by
    refine absurd ?_ hne
    interval_cases i <;> interval_cases j <;> rfl
  obtain ⟨k', res', f₂, hx, -, hwrite', -, -, hread, -⟩ :=
    copies_exact (by decide) hconsistent.coherent ht ⟨0x1ffe⟩ [1, 2, 3] (by decide)
  obtain rfl : k' = 2 := by
    have hle : k' ≤ 3 := hx.le
    by_contra hne
    by_cases hlt : k' < 2
    · obtain ⟨e, he⟩ := hmaps k' hlt
      cases he.symm.trans (hx.stopped (show k' < 3 by omega)).2.1
    · obtain ⟨e, he⟩ := hx.mapped 2 (by omega)
      cases he.symm.trans hnext
  obtain ⟨bytes, hlen, -, hread⟩ := hread [7, 8, 9] rfl
  rw [(hx.stopped (by decide)).1] at hwrite' hread
  exact ⟨f, f₁, f₂, ⟨⟨r⟩⟩, bytes, hconsistent.coherent, hwrite, hback hapart rfl [0, 0] rfl, hwrite',
    hread, hlen⟩

end PageTable

end PagedKernel
