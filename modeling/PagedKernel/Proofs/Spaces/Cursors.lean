import PagedKernel.Proofs.Spaces.FiniteMaps

/-!
# Where cursors stand

A cursor starts at a canonical address, is moved to canonical addresses, and goes on to the next
page by adding the size of a page to its address. That sum is not checked again: behind the last
page of the lower half come addresses that are not canonical, and the tables are read for them as
for the canonical addresses of the upper half. Everywhere else the next address, if there is one, is
canonical. As long as no cursor goes on from the end of the lower half, each page has one leaf slot
of its own, and what is mapped at a cursor is found at the address that the cursor shows.

Key definitions: `Cursor.AtLowEnd`, `PageTable.HasCursor`.
Key theorems: `Cursor.canonical_next_iff`, `VirtAddr.exists_index_ne`,
`PageTable.HasCursor.names_slot`, `PageTable.next_leaves_canonical`.
-/

namespace PagedKernel

variable {n : Nat} {f f' : Frames n} {tables : Set PageTable} {t : PageTable}

/-! ### Addresses and slots -/

/-- The slots of the four levels make up the number of the page. -/
theorem VirtAddr.page_eq_of_index {va va' : VirtAddr}
    (h : ∀ level < levels, va.index level = va'.index level) : va.page = va'.page := by
  have hlt := va.page_lt
  have hlt' := va'.page_lt
  have hlevel : ∀ l ≤ 3, va.page / 512 ^ l % 512 = va'.page / 512 ^ l % 512 := by
    intro l hl
    rw [← va.index_eq hl, ← va'.index_eq hl]
    exact h l (Nat.lt_succ_of_le hl)
  have h0 := hlevel 0 (by decide)
  have h1 := hlevel 1 (by decide)
  have h2 := hlevel 2 (by decide)
  have h3 := hlevel 3 (by decide)
  unfold pagesPerSpace at hlt hlt'
  omega

/-- Pages of an address space are told apart by a slot on some level. -/
theorem VirtAddr.exists_index_ne {va va' : VirtAddr} (hva : va.Canonical) (hva' : va'.Canonical)
    (ha : va.isAligned = true) (ha' : va'.isAligned = true) (hne : va' ≠ va) :
    ∃ level < levels, va'.index level ≠ va.index level := by
  by_contra hsame
  push Not at hsame
  have hbase : (⟨va', hva', ha'⟩ : PageBase) = ⟨va, hva, ha⟩ :=
    PageBase.page_injective (VirtAddr.page_eq_of_index hsame)
  exact hne (congrArg Subtype.val hbase)

/-! ### The next page -/

namespace Cursor

/-- The cursor is in the last page of the lower half of the canonical addresses. -/
def AtLowEnd (c : Cursor) : Prop :=
  c.va.pageDown = ⟨0x7ffffffff000⟩

theorem atLowEnd_iff {c : Cursor} :
    c.AtLowEnd ↔ c.va.toNat / pageSize * pageSize = 0x7ffffffff000 := by
  rw [← c.va.toNat_pageDown, AtLowEnd]
  refine ⟨fun heq => by rw [heq]; rfl, fun heq => ?_⟩
  exact congrArg VirtAddr.mk (UInt64.toNat_inj.mp heq)

/-- The cursor goes on by one page, unless there is no further address. -/
theorem next_eq_ok {c c' : Cursor} (h : c.next = .ok c') :
    c'.root = c.root ∧ c'.va.toNat = c.va.toNat / pageSize * pageSize + pageSize := by
  have hsize : (UInt64.ofNat pageSize).toNat = pageSize := rfl
  unfold next VirtAddr.add Word.add at h
  by_cases hfits : c.va.pageDown.val.toNat + (UInt64.ofNat pageSize).toNat < UInt64.size
  · rw [if_pos hfits] at h
    cases h
    refine ⟨rfl, ?_⟩
    show (c.va.pageDown.val + UInt64.ofNat pageSize).toNat = _
    rw [UInt64.toNat_add, Nat.mod_eq_of_lt hfits, hsize, ← c.va.toNat_pageDown]
    rfl
  · rw [if_neg hfits] at h
    cases h

/-- The next address is canonical but behind the lower half. -/
theorem canonical_next_iff {c c' : Cursor} (hva : c.va.Canonical) (h : c.next = .ok c') :
    c'.va.Canonical ↔ ¬ c.AtLowEnd := by
  have hnext := (next_eq_ok h).2
  have hlt : c'.va.toNat < 2 ^ 64 := c'.va.val.toNat_lt
  rw [VirtAddr.canonical_iff] at hva ⊢
  rw [atLowEnd_iff]
  unfold pageSize at *
  omega

end Cursor

namespace PageTable

/-- The cursors of a page table: one starts at any canonical address, is moved to any other, and
goes on to the next page, here only from where `p` allows it. -/
inductive HasCursor (t : PageTable) (p : Cursor → Prop) : Cursor → Prop
  | iter {va : VirtAddr} (hva : va.Canonical) : HasCursor t p (t.cursor va)
  | find {c : Cursor} {va : VirtAddr} (hc : HasCursor t p c) (hva : va.Canonical) :
      HasCursor t p (c.find va)
  | next {c c' : Cursor} (hc : HasCursor t p c) (hp : p c) (hnext : c.next = .ok c') :
      HasCursor t p c'

namespace HasCursor

variable {c : Cursor}

theorem root_eq {p : Cursor → Prop} (hc : t.HasCursor p c) : c.root = t.pa := by
  induction hc with
  | iter => rfl
  | find _ _ ih => exact ih
  | next _ _ hnext ih => exact (Cursor.next_eq_ok hnext).1.trans ih

/-- A cursor that does not go on from the end of the lower half stays at canonical addresses. -/
theorem canonical (hc : t.HasCursor (¬ ·.AtLowEnd) c) : c.va.Canonical := by
  induction hc with
  | iter hva => exact hva
  | find _ hva _ => exact hva
  | next _ hend hnext ih => exact (Cursor.canonical_next_iff ih hnext).mpr hend

/-- What is mapped at a cursor is what walks find at its address. -/
theorem walk_install [Addressable n] {p : Cursor → Prop} (hc : t.HasCursor p c)
    (hsep : f.Separate tables) (ht : t ∈ tables) {page : FrameRef} {perm : Permission}
    {old : Option FrameRef} (h0 : f.count page.number ≠ 0)
    (hinstall : c.install page perm f = .ok (.ok old) f') :
    c.va.isAligned = true ∧ f'.Separate tables ∧
      t.walk f'.memory c.va = .ok (some (.link page.pa perm.toFlags)) := by
  have hplanted := hsep.planted
  have hr := hplanted.isRoot.mpr ht
  unfold Cursor.install at hinstall
  rw [hc.root_eq] at hinstall
  obtain ⟨⟨g', -, hmap, -⟩, -, ha, -⟩ :=
    (install_planted c.va hplanted.toPlanted hr h0 (E := fun _ => True)).eq_ok hinstall
  have hplanted' := hplanted.replanted hmap
  refine ⟨ha, hplanted'.separate, ?_⟩
  rw [hplanted'.trees.walk_eq t c.va (hplanted'.isRoot.mpr ht), hmap.mapped hr,
    Function.update_self, Function.update_self]
  rfl

/-- **A cursor names one leaf slot**, if it does not go on from the end of the lower half. Its
address is canonical. Other such cursors at other pages differ from it in the slot on some level. A
page that is mapped at it is found at its address by walks and, in the lower half, by listings.
The next address of such a cursor is canonical but at the end of the lower half. -/
theorem names_slot [Addressable n] (hsep : f.Separate tables) (ht : t ∈ tables)
    (hc : t.HasCursor (¬ ·.AtLowEnd) c) :
    c.va.Canonical ∧
      (∀ c', c.next = .ok c' → (c'.va.Canonical ↔ ¬ c.AtLowEnd)) ∧
      (∀ c', t.HasCursor (¬ ·.AtLowEnd) c' → c.va.isAligned = true → c'.va.isAligned = true →
        c'.va ≠ c.va → ∃ level < levels, c'.va.index level ≠ c.va.index level) ∧
      ∀ page perm old f', f.count page.number ≠ 0 → c.install page perm f = .ok (.ok old) f' →
        t.walk f'.memory c.va = .ok (some (.link page.pa perm.toFlags)) ∧
          ∀ lo hi, hi ≤ 2 ^ 47 → lo ≤ c.va.toNat → c.va.toNat < hi →
            ∃ l, t.mappings f'.memory lo hi = .ok l ∧
              (c.va, .link page.pa perm.toFlags) ∈ l := by
  have hva := hc.canonical
  refine ⟨hva, fun c' => Cursor.canonical_next_iff hva, fun c' hc' ha ha' hne => ?_, ?_⟩
  · exact VirtAddr.exists_index_ne hva hc'.canonical ha ha' hne
  intro page perm old f' h0 hinstall
  obtain ⟨ha, hsep', hwalk⟩ := hc.walk_install hsep ht h0 hinstall
  refine ⟨hwalk, fun lo hi hhi hlo hlt => ?_⟩
  have hplanted' := hsep'.planted
  have hr' := hplanted'.isRoot.mpr ht
  refine ⟨_, (hplanted'.trees.listingInside hr' lo hi).mappings_eq hhi, ?_⟩
  rw [Memory.mem_listing hhi, hplanted'.trees.pa_pageNumber t hr']
  rw [hplanted'.trees.walk_eq t c.va hr', Except.ok.injEq] at hwalk
  have hmeets : lo < c.va.toNat + pageSize := by
    unfold pageSize
    omega
  exact ⟨ha, hlt, hmeets, hwalk⟩

end HasCursor

/-- With enough free pages for the tables, a page can be mapped at any page but the null page. -/
theorem exists_install [Addressable n] (hsep : f.Separate tables) (ht : t ∈ tables) {va : VirtAddr}
    {page : FrameRef} (perm : Permission) (hva : va.Canonical) (ha : va.isAligned = true)
    (hnull : va.val ≠ 0) (hcount : f.count page.number ≠ 0)
    (hnone : ¬ f.memory.HoldsTable tables page.number) (hfree : levels - 1 ≤ f.freePages) :
    ∃ old f', (t.cursor va).install page perm f = .ok (.ok old) f' := by
  have hcall : Call.Permitted (.cursorMap va page perm) tables f := by
    refine ⟨hva, fun page' hpage => ?_⟩
    cases hpage
    exact ⟨hcount, hnone⟩
  obtain ⟨answer, f', hperform, hserved⟩ := (hsep.perform_ends ⟨t, ht⟩ hcall).ok
  obtain ⟨F, hmeets, -⟩ := hserved.meets
  cases answer with
  | ok old => exact ⟨old, f', hperform⟩
  | error cause =>
    refine absurd (hmeets.fails cause rfl) (hmeets.hasPlace ha hnull (fun hmem => ?_) rfl)
    exact Nat.not_lt.mpr hfree (hserved.freePages hmem)

/-- In a new page table, a cursor goes on from the first page, and a page is mapped there. -/
theorem names_slot_second_page : ∃ (t : PageTable) (f f' : Frames physicalPages) (c : Cursor)
    (page : FrameRef) (old : Option FrameRef), f.Separate {t} ∧ t.HasCursor (¬ ·.AtLowEnd) c ∧
      c.va = ⟨4096⟩ ∧ f.count page.number ≠ 0 ∧
      c.install page .userData f = .ok (.ok old) f' ∧
      t.walk f'.memory c.va = .ok (some (.link page.pa Permission.userData.toFlags)) := by
  obtain ⟨t, f, page, ⟨hsep, -, -, hcount, hnone⟩, hfree⟩ := exists_newTable
  have hfirst : t.HasCursor (¬ ·.AtLowEnd) (t.cursor ⟨0⟩) :=
    .iter (by unfold VirtAddr.Canonical; decide)
  have hend : ¬ (t.cursor ⟨0⟩).AtLowEnd := by
    have hzero : (t.cursor ⟨0⟩).va.toNat = 0 := rfl
    rw [Cursor.atLowEnd_iff, hzero]
    decide
  have hnext : (t.cursor ⟨0⟩).next = .ok (t.cursor ⟨4096⟩) := by
    have hadd : (VirtAddr.mk 0).pageDown.add (UInt64.ofNat pageSize) = .ok ⟨4096⟩ := rfl
    unfold Cursor.next cursor
    dsimp only
    rw [hadd]
    rfl
  have hsecond : t.HasCursor (¬ ·.AtLowEnd) (t.cursor ⟨4096⟩) := .next hfirst hend hnext
  obtain ⟨hva, -, -, hmapped⟩ := hsecond.names_slot hsep rfl
  obtain ⟨old, f', hinstall⟩ :
      ∃ old f', (t.cursor ⟨4096⟩).install page .userData f = .ok (.ok old) f' :=
    exists_install hsep rfl .userData hva rfl nofun hcount hnone hfree
  exact ⟨t, f, f', _, page, old, hsep, hsecond, rfl, hcount, hinstall,
    (hmapped page .userData old f' hcount hinstall).1⟩

/-! ### Behind the lower half -/

theorem mem_of_flatMapM_eq_ok {α β : Type} {f : α → Except Halt (List β)} {b : β} :
    ∀ {l : List α} {bs : List β}, l.flatMapM f = .ok bs → b ∈ bs →
      ∃ a ∈ l, ∃ bs', f a = .ok bs' ∧ b ∈ bs'
  | [], bs, h, hb => by
    cases h
    cases hb
  | a :: l, bs, h, hb => by
    rw [List.flatMapM_cons] at h
    cases ha : f a with
    | error e => rw [ha] at h; cases h
    | ok bs₁ =>
      cases hl : l.flatMapM f with
      | error e => rw [ha, hl] at h; cases h
      | ok bs₂ =>
        rw [ha, hl] at h
        cases h
        rcases List.mem_append.mp hb with hb | hb
        · exact ⟨a, List.mem_cons_self, bs₁, ha, hb⟩
        · obtain ⟨a', ha', bs', hf, hb'⟩ := mem_of_flatMapM_eq_ok hl hb
          exact ⟨a', List.mem_cons_of_mem _ ha', bs', hf, hb'⟩

theorem toNat_lt_of_mem_mappingAt {addr : ℕ} {e e' : Entry} {va : VirtAddr} (haddr : addr < 2 ^ 48)
    (h : (va, e') ∈ mappingAt addr e) : va.toNat < 2 ^ 47 := by
  have hval : (UInt64.ofNat addr).toNat = addr := by
    rw [UInt64.toNat_ofNat']
    omega
  unfold mappingAt VirtAddr.ofWord? at h
  rw [hval] at h
  by_cases hcanonical : addr < 1 <<< 47 ∨ UInt64.size - 1 <<< 47 ≤ addr
  · rw [if_pos hcanonical] at h
    obtain ⟨rfl, -⟩ := Prod.mk.inj (List.mem_singleton.mp h)
    show (UInt64.ofNat addr).toNat < 2 ^ 47
    have hhigh : UInt64.size - 1 <<< 47 = 2 ^ 64 - 2 ^ 47 := rfl
    have hlow : 1 <<< 47 = 2 ^ 47 := rfl
    omega
  · rw [if_neg hcanonical] at h
    cases h

theorem slot_end_le {l base lo hi slot : ℕ} (h : slot ∈ slotsMeeting l base lo hi) :
    base + slot * slotSpan l + slotSpan l ≤ base + slotSpan (l + 1) := by
  have hslot : slot + 1 ≤ 512 := (mem_slotsMeeting.mp h).1
  have hspan : slotSpan (l + 1) = 512 * slotSpan l := by
    rw [slotSpan_eq, slotSpan_eq, Nat.pow_succ']
    exact Nat.mul_assoc _ _ _
  calc base + slot * slotSpan l + slotSpan l
      = base + (slot + 1) * slotSpan l := by rw [Nat.succ_mul, Nat.add_assoc]
    _ ≤ base + slotSpan (l + 1) := by
      rw [hspan]
      exact Nat.add_le_add_left (Nat.mul_le_mul_right _ hslot) _

/-- Nothing is ever listed at an address behind the lower half. -/
theorem toNat_lt_of_mem_leaves {m : Memory n} {lo hi : ℕ} {va : VirtAddr} {e : Entry} :
    ∀ {l : ℕ} {table : PhysAddr} {base : ℕ} {ms : List Mapping},
      base + slotSpan (l + 1) ≤ 2 ^ 48 → m.leaves lo hi l table base = .ok ms →
      (va, e) ∈ ms → va.toNat < 2 ^ 47
  | 0, table, base, ms, hbase, h, hmem => by
    obtain ⟨slot, hslot, bs, hround, hmem⟩ := mem_of_flatMapM_eq_ok h hmem
    have hend := slot_end_le hslot
    have hpos := slotSpan_pos 0
    cases he : m.readEntry table slot with
    | error cause => rw [he] at hround; cases hround
    | ok e' =>
      rw [he] at hround
      cases hround
      split at hmem
      · exact toNat_lt_of_mem_mappingAt (by omega) hmem
      · cases hmem
  | l + 1, table, base, ms, hbase, h, hmem => by
    obtain ⟨slot, hslot, bs, hround, hmem⟩ := mem_of_flatMapM_eq_ok h hmem
    have hend := slot_end_le hslot
    cases he : m.readEntry table slot with
    | error cause => rw [he] at hround; cases hround
    | ok e' =>
      rw [he] at hround
      dsimp only [bind, Except.bind] at hround
      cases hnext : e'.addr? with
      | none =>
        rw [hnext] at hround
        cases hround
        cases hmem
      | some next =>
        rw [hnext] at hround
        exact toNat_lt_of_mem_leaves (hend.trans hbase) hround hmem

theorem toNat_lt_of_mem_mappings {m : Memory n} {lo hi : ℕ} {ms : List Mapping} {va : VirtAddr}
    {e : Entry} (h : t.mappings m lo hi = .ok ms) (hmem : (va, e) ∈ ms) : va.toNat < 2 ^ 47 :=
  toNat_lt_of_mem_leaves (by decide) h hmem

/-- **A cursor can leave the canonical addresses.** Going on from the last page of the lower half,
it stands at an address that is not canonical. The first page of the upper half has the same slots
on all levels, and what is mapped at the cursor is never listed at its address. -/
theorem next_leaves_canonical : ∃ (t : PageTable) (c : Cursor) (va : VirtAddr),
    t.HasCursor (fun _ => True) c ∧ ¬ c.va.Canonical ∧ c.va.isAligned = true ∧ va.Canonical ∧
      va.isAligned = true ∧ va ≠ c.va ∧ (∀ level < levels, va.index level = c.va.index level) ∧
      ∀ {n : ℕ} (m : Memory n) lo hi ms, t.mappings m lo hi = .ok ms → ∀ e, (c.va, e) ∉ ms := by
  refine ⟨⟨⟨0⟩⟩, ⟨⟨0⟩, ⟨0x800000000000⟩⟩, ⟨0xffff800000000000⟩, ?_, ?_, by decide, ?_, by decide,
    by decide, by decide, fun m lo hi ms h e hmem => ?_⟩
  · have hlast : HasCursor ⟨⟨0⟩⟩ (fun _ => True) (PageTable.cursor ⟨⟨0⟩⟩ ⟨0x7ffffffff000⟩) :=
      .iter (by unfold VirtAddr.Canonical; decide)
    exact .next hlast trivial rfl
  · unfold VirtAddr.Canonical
    decide
  · unfold VirtAddr.Canonical
    decide
  · exact absurd (toNat_lt_of_mem_mappings h hmem) (by decide)

end PageTable
end PagedKernel
