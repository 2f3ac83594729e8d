import PagedKernel.Proofs.Spaces.Enumeration
import PagedKernel.Proofs.Spaces.Mapping

/-!
# The leaves and the tables of a space

`PageTable.leaves` lists what a page table maps, and `Memory.tablesBelow` its tables; together they
are all that it refers to. Where the tables are trees the kernel's own listings never leave the
installed memory: that of a range gives the leaves of its pages (`Shape.Trees.mappings_eq`), and
that of the tables those whose place is below the root, each once.

Key definitions: `PageTable.leaves`, `Memory.tablesBelow`, `PageTable.references`.
Key theorems: `PageTable.mem_leaves`, `Shape.Trees.mappings_eq`, `Shape.Trees.tableNumbers_eq`.
-/

namespace PagedKernel

variable {n : Nat} {g : Shape} {m : Memory n}

namespace Memory

/-- The pages of the table of level `l` in page `q` and of all tables below it. -/
def tablesBelow (m : Memory n) : Nat → Nat → List Nat
  | 0, q => [q]
  | l + 1, q => q :: tableSlots.flatMap fun s =>
    match (m.slot q s).page? with
    | some c => m.tablesBelow l c
    | none => []

end Memory

/-- The leaves of a page table, with their page numbers. -/
def PageTable.leaves (t : PageTable) (m : Memory n) : List (Nat × Entry) :=
  m.leavesBelow 3 t.root.number 0

/-- The pages that a page table refers to, once for each of its tables and each of its leaves. -/
def PageTable.references (t : PageTable) (m : Memory n) : List Nat :=
  m.tablesBelow 3 t.root.number ++ (t.leaves m).map (·.2.addr.pageNumber)

theorem Memory.mem_tablesBelow_self (m : Memory n) (l q : Nat) : q ∈ m.tablesBelow l q := by
  cases l <;> rw [tablesBelow] <;> exact List.mem_cons_self

theorem Memory.tablesBelow_child {l q s c : Nat} (hs : s < 512) (hc : (m.slot q s).page? = some c) :
    m.tablesBelow l c ⊆ m.tablesBelow (l + 1) q := by
  intro c' hc'
  rw [tablesBelow]
  refine List.mem_cons_of_mem _ (List.mem_flatMap.mpr ⟨s, mem_tableSlots.mpr hs, ?_⟩)
  rw [hc]
  exact hc'

/-! ### The leaves -/

/-- **The leaves of a page table are what its space maps.** -/
theorem PageTable.mem_leaves {t : PageTable} {v : Nat} {e : Entry} :
    (v, e) ∈ t.leaves m ↔ m.mapped t.root.number v = some e :=
  Memory.mem_leavesBelow_root

/-- At a page number but zero, a mapping is refused for lack of memory only. -/
theorem PageTable.refused_ofPage {f : Frames n} {r v : Nat} {cause : MapError} (h1 : 1 ≤ v)
    (hv : v < 2 ^ 36) (h : Refused f r (VirtAddr.ofPage v) cause) :
    cause = .outOfMemory ∧ f.freePages < (f.memory.reach v 3 r).2 := by
  have hne : (VirtAddr.ofPage v).val ≠ 0 := by
    intro h0
    have hto : (VirtAddr.ofPage v).val.toNat = v * pageSize := VirtAddr.toNat_ofPage (by omega)
    rw [h0, UInt64.toNat_zero] at hto
    unfold pageSize at hto
    omega
  rw [← VirtAddr.page_ofPage hv]
  exact h.outOfMemory (VirtAddr.isAligned_ofPage (by omega)) hne

namespace Shape.Trees

variable [Addressable n]

/-- A listing of a space reads tables of the space only. -/
theorem listingInside (h : g.Trees m) {t : PageTable} (hr : g.IsRoot t.root.number)
    (lo hi : Nat) : t.ListingInside m lo hi := by
  unfold PageTable.ListingInside
  rw [h.pa_pageNumber t hr]
  exact Memory.ListingInside.of_closed (S := fun l q => ∃ i, g q = some ⟨t.root.number, l, i⟩)
    (fun _ _ ⟨_, hq⟩ => h.installed hq) (fun _ _ _ _ ⟨_, hq⟩ hs hc => ⟨_, h.child hq hs hc⟩)
    ⟨0, hr⟩

/-- **The listing of a range of addresses**: the leaves of the pages that meet it. -/
theorem mappings_eq (h : g.Trees m) {t : PageTable} (hr : g.IsRoot t.root.number) {lo hi : Nat}
    (hhi : hi ≤ 2 ^ 47) :
    t.mappings m lo hi =
      .ok (((t.leaves m).filter fun p => pageMeets lo hi p.1).map mappingOf) := by
  rw [(h.listingInside hr lo hi).mappings_eq hhi, h.pa_pageNumber t hr]
  rfl

/-! ### The tables -/

theorem tables_eq (h : g.Trees m) {r l : Nat} : ∀ {q i : Nat}, g q = some ⟨r, l, i⟩ →
    m.tables l (pageAt q) = .ok ((m.tablesBelow l q).map pageAt) := by
  induction l with
  | zero =>
    intro q i _
    rfl
  | succ l ih =>
    intro q i hq
    rw [Memory.tables, List.flatMapM_ok (k := fun s => (m.slot q s).page?.elim [] fun c =>
      (m.tablesBelow l c).map pageAt)]
    · rw [Memory.tablesBelow, List.map_cons, List.map_flatMap]
      refine congrArg (fun l => Except.ok (pageAt q :: l)) (List.flatMap_congr fun s _ => ?_)
      cases (m.slot q s).page? <;> rfl
    · intro s hs
      have hs := mem_tableSlots.mp hs
      rw [Memory.readEntry_pageAt m (h.installed hq) hs]
      dsimp only [bind, Except.bind]
      cases hc : (m.slot q s).page? with
      | none => rw [Entry.addr?_of_page?_none hc]; rfl
      | some c =>
        rw [Entry.addr?_of_page? hc]
        exact ih (h.child hq hs hc)

omit [Addressable n] in
/-- The tables below a table are those of the space whose range lies in its own. -/
theorem mem_tablesBelow (h : g.Trees m) {r c l : Nat} : ∀ {q i : Nat}, g q = some ⟨r, l, i⟩ →
    (c ∈ m.tablesBelow l q ↔
      ∃ l1 i1, g c = some ⟨r, l1, i1⟩ ∧ l1 ≤ l ∧ i1 / 512 ^ (l - l1) = i) := by
  induction l with
  | zero =>
    intro q i hq
    rw [Memory.tablesBelow, List.mem_singleton]
    constructor
    · rintro rfl
      exact ⟨0, i, hq, le_rfl, by simp⟩
    · intro hx
      obtain ⟨l1, i1, hc, hl1, hi⟩ := hx
      obtain rfl := Nat.le_zero.mp hl1
      rw [Nat.sub_self, Nat.pow_zero, Nat.div_one] at hi
      subst hi
      exact h.injective hc hq
  | succ l ih =>
    intro q i hq
    rw [Memory.tablesBelow, List.mem_cons, List.mem_flatMap]
    constructor
    · intro hx
      rcases hx with rfl | ⟨s, hs, hc⟩
      · exact ⟨l + 1, i, hq, le_rfl, by simp⟩
      · have hs := mem_tableSlots.mp hs
        split at hc
        · next d hd =>
          obtain ⟨l1, i1, hc, hl1, hi⟩ := (ih (h.child hq hs hd)).mp hc
          refine ⟨l1, i1, hc, Nat.le_succ_of_le hl1, ?_⟩
          rw [Nat.succ_sub hl1, Nat.pow_succ, ← Nat.div_div_eq_div_mul, hi]
          omega
        · cases hc
    · intro hx
      obtain ⟨l1, i1, hc, hl1, hi⟩ := hx
      by_cases hll : l1 = l + 1
      · subst hll
        rw [Nat.sub_self, Nat.pow_zero, Nat.div_one] at hi
        subst hi
        exact .inl (h.injective hc hq)
      · have hle : l1 ≤ l := by omega
        have hl : l + 1 ≤ 3 := h.level_le hq
        obtain ⟨d, hd⟩ := h.ancestor hc (k := l - l1) (by omega)
        rw [Nat.add_sub_cancel' hle] at hd
        -- the table of level `l` above `c` hangs in this one
        have hi' : i1 / 512 ^ (l - l1) / 512 = i := by
          rw [Nat.div_div_eq_div_mul, ← Nat.pow_succ, ← Nat.succ_sub hle]
          exact hi
        have hslot := h.slot_of_child (c := d) hq (mod_slots_lt (i1 / 512 ^ (l - l1))) (by
          rw [← hi', Nat.div_add_mod]
          exact hd)
        refine .inr ⟨i1 / 512 ^ (l - l1) % 512, mem_tableSlots.mpr (mod_slots_lt _), ?_⟩
        rw [hslot]
        exact (ih hd).mpr ⟨l1, i1, hc, hle, rfl⟩

omit [Addressable n] in
theorem nodup_tablesBelow (h : g.Trees m) {r l : Nat} : ∀ {q i : Nat}, g q = some ⟨r, l, i⟩ →
    (m.tablesBelow l q).Nodup := by
  induction l with
  | zero =>
    intro q i _
    exact List.nodup_singleton q
  | succ l ih =>
    intro q i hq
    rw [Memory.tablesBelow, List.nodup_cons]
    constructor
    · intro hmem
      obtain ⟨s, hs, hc⟩ := List.mem_flatMap.mp hmem
      have hs := mem_tableSlots.mp hs
      split at hc
      · next d hd =>
        obtain ⟨l1, i1, hq1, hl1, -⟩ := (h.mem_tablesBelow (h.child hq hs hd)).mp hc
        simp only [hq, Option.some.injEq, Place.mk.injEq] at hq1
        omega
      · cases hc
    · refine List.nodup_flatMap.mpr ⟨fun s hs => ?_, ?_⟩
      · have hs := mem_tableSlots.mp hs
        split
        · next d hd => exact ih (h.child hq hs hd)
        · exact List.nodup_nil
      · refine List.Pairwise.imp_of_mem ?_ List.pairwise_lt_range
        intro s1 s2 hs1 hs2 hlt c hc1 hc2
        have hs1 := mem_tableSlots.mp hs1
        have hs2 := mem_tableSlots.mp hs2
        dsimp only at hc1 hc2
        split at hc1
        · next d1 hd1 =>
          split at hc2
          · next d2 hd2 =>
            obtain ⟨l1, i1, hg1, -, hi1⟩ := (h.mem_tablesBelow (h.child hq hs1 hd1)).mp hc1
            obtain ⟨l2, i2, hg2, -, hi2⟩ := (h.mem_tablesBelow (h.child hq hs2 hd2)).mp hc2
            simp only [hg1, Option.some.injEq, Place.mk.injEq] at hg2
            obtain ⟨-, rfl, rfl⟩ := hg2
            omega
          · cases hc2
        · cases hc1

omit [Addressable n] in
theorem mem_tables (h : g.Trees m) {r c : Nat} (hr : g.IsRoot r) :
    c ∈ m.tablesBelow 3 r ↔ ∃ l i, g c = some ⟨r, l, i⟩ := by
  rw [h.mem_tablesBelow hr]
  constructor
  · intro hx
    obtain ⟨l, i, hc, -, -⟩ := hx
    exact ⟨l, i, hc⟩
  · intro hx
    obtain ⟨l, i, hc⟩ := hx
    exact ⟨l, i, hc, h.level_le hc, (Nat.div_eq_zero_iff_lt (Nat.pow_pos (by decide))).mpr
      (h.index_lt hc)⟩

/-- The pages of the tables, as the kernel lists them. -/
theorem tableNumbers_eq (h : g.Trees m) {t : PageTable} (hr : g.IsRoot t.root.number) :
    t.tableNumbers m = .ok (m.tablesBelow 3 t.root.number) := by
  have hn := Addressable.le (n := n)
  have hnumber : ∀ c ∈ m.tablesBelow 3 t.root.number, (pageAt c).pageNumber = c := by
    intro c hc
    obtain ⟨l, i, hc⟩ := (h.mem_tables hr).mp hc
    have := h.installed hc
    exact pageAt_pageNumber (by omega)
  unfold PageTable.tableNumbers PageTable.tablePages
  rw [show levels - 1 = 3 from rfl, show t.pa = pageAt t.root.number from rfl, h.tables_eq hr]
  refine congrArg Except.ok ?_
  calc ((m.tablesBelow 3 t.root.number).map pageAt).map PhysAddr.pageNumber
      = (m.tablesBelow 3 t.root.number).map (PhysAddr.pageNumber ∘ pageAt) := List.map_map
    _ = (m.tablesBelow 3 t.root.number).map id := List.map_congr_left hnumber
    _ = m.tablesBelow 3 t.root.number := List.map_id _

end Shape.Trees

end PagedKernel
