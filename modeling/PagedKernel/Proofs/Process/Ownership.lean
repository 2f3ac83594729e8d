import Mathlib.Data.Nat.Digits.Defs
import PagedKernel.Proofs.Process.Maps

/-!
# The physical map shows the owners

The physical map is drawn from the owners that the page tables have left on record, one after the
other. A page that nobody refers to stays without an owner, one that has one owner alone shows that
owner however often it is referred to, and with two different owners it is shared
(`Owner.foldl_join_cases`). A mapping that no user may access is not recorded for a process; in a
sound userland such a mapping never leads to a page that can be handed out. The tables of the kernel
are referred to by the kernel alone, and the counts tell whether a page is referred to at all. So
what the map shows of a page that can be handed out is who refers to it.

Key definitions: `glyphAt`, `PageTable.RefersTo`, `Userland.Refers`, `Userland.Shows`.
Key theorems: `Owner.foldl_join_cases`, `glyphAt_rowsFrom`, `Userland.Sound.shows`,
`Userland.Shows.glyph_iff`.
-/

namespace PagedKernel

variable {n : ℕ}

/-! ### Owners -/

namespace Owner

theorem nobody_join (b : Owner) : nobody.join b = b :=
  rfl

theorem join_self (a : Owner) : a.join a = a := by
  cases a <;> simp [join]

theorem join_of_ne {a b : Owner} (ha : a ≠ nobody) (h : a ≠ b) : a.join b = several := by
  cases a <;> simp_all [join]

theorem several_join (b : Owner) : several.join b = several := by
  by_cases h : several = b
  · rw [← h, join_self]
  · exact join_of_ne (by decide) h

theorem foldl_join_several : ∀ l : List Owner, l.foldl join several = several
  | [] => rfl
  | b :: l => by
    rw [List.foldl_cons, several_join]
    exact foldl_join_several l

theorem foldl_join_cases_of_ne {a : Owner} (ha : a ≠ nobody) : ∀ l : List Owner,
    (∀ x ∈ l, x = a) ∧ l.foldl join a = a ∨ (∃ b ∈ l, b ≠ a) ∧ l.foldl join a = several
  | [] => .inl ⟨nofun, rfl⟩
  | b :: l => by
    by_cases hb : b = a
    · subst hb
      rw [List.foldl_cons, join_self]
      rcases foldl_join_cases_of_ne ha l with ⟨hall, hfold⟩ | ⟨⟨c, hc, hne⟩, hfold⟩
      · exact .inl ⟨List.forall_mem_cons.mpr ⟨rfl, hall⟩, hfold⟩
      · exact .inr ⟨⟨c, List.mem_cons_of_mem _ hc, hne⟩, hfold⟩
    · rw [List.foldl_cons, join_of_ne ha (Ne.symm hb), foldl_join_several]
      exact .inr ⟨⟨b, List.mem_cons_self, hb⟩, rfl⟩

/-- **What owners come to**: nobody, the only one there is, or several. -/
theorem foldl_join_cases {l : List Owner} (hl : ∀ a ∈ l, a ≠ nobody) :
    l = [] ∧ l.foldl join nobody = nobody ∨
      (∃ a ∈ l, (∀ x ∈ l, x = a) ∧ l.foldl join nobody = a) ∨
      ∃ a ∈ l, ∃ b ∈ l, b ≠ a ∧ l.foldl join nobody = several := by
  cases l with
  | nil => exact .inl ⟨rfl, rfl⟩
  | cons a l =>
    rw [List.foldl_cons, nobody_join]
    rcases foldl_join_cases_of_ne (hl a List.mem_cons_self) l with
      ⟨hall, hfold⟩ | ⟨⟨b, hb, hne⟩, hfold⟩
    · exact .inr (.inl ⟨a, List.mem_cons_self, List.forall_mem_cons.mpr ⟨rfl, hall⟩, hfold⟩)
    · exact .inr (.inr ⟨a, List.mem_cons_self, b, List.mem_cons_of_mem _ hb, hne, hfold⟩)

end Owner

/-! ### Rows -/

/-- The glyph that rows of a map show for page number `pn`, behind the address of its row. -/
def glyphAt (rows : List String) (pn : ℕ) : Option Char :=
  rows[pn / pagesPerRow]?.bind fun row => row.toList[7 + pn % pagesPerRow]?

theorem getElem?_rowsFrom (i : ℕ) : ∀ (first : ℕ) (glyphs : List Char),
    pagesPerRow * i < glyphs.length → (rowsFrom first glyphs)[i]? =
      some (hexPadded 6 ((first + pagesPerRow * i) * pageSize) ++ " " ++
        String.ofList ((glyphs.drop (pagesPerRow * i)).take pagesPerRow)) := by
  induction i with
  | zero =>
    intro first glyphs h
    have hne : glyphs.isEmpty = false := by cases glyphs <;> simp_all
    rw [rowsFrom, hne]
    rfl
  | succ i ih =>
    intro first glyphs h
    have hne : glyphs.isEmpty = false := by cases glyphs <;> simp_all
    have hrest : pagesPerRow * i < (glyphs.drop pagesPerRow).length := by
      rw [List.length_drop]
      rw [Nat.mul_succ] at h
      omega
    have hnext : first + pagesPerRow + pagesPerRow * i = first + pagesPerRow * (i + 1) := by
      rw [Nat.mul_succ]
      omega
    rw [rowsFrom, hne]
    show (rowsFrom (first + pagesPerRow) (glyphs.drop pagesPerRow))[i]? = _
    rw [ih _ _ hrest, hnext, List.drop_drop, Nat.add_comm pagesPerRow, ← Nat.mul_succ]

theorem length_hexPadded {a : ℕ} (h : a < 16 ^ 6) : (hexPadded 6 a).toList.length = 6 := by
  have hdigits := Nat.toDigits_length 16 a 6 (by decide) h
  rw [hexPadded, String.toList_ofList, List.length_append, List.length_replicate]
  omega

/-- **Every glyph is drawn at the place of its page**, if the addresses of the rows have six
digits. -/
theorem glyphAt_rowsFrom {glyphs : List Char} {pn : ℕ} (hpn : pn < glyphs.length)
    (haddr : pn * pageSize < 16 ^ 6) : glyphAt (rowsFrom 0 glyphs) pn = glyphs[pn]? := by
  have hcut : pagesPerRow * (pn / pagesPerRow) + pn % pagesPerRow = pn := Nat.div_add_mod _ _
  have hcol : pn % pagesPerRow < pagesPerRow := Nat.mod_lt _ (by decide)
  have hrow : (pagesPerRow * (pn / pagesPerRow)) * pageSize < 16 ^ 6 :=
    lt_of_le_of_lt (Nat.mul_le_mul_right _ (Nat.mul_div_le _ _)) haddr
  unfold glyphAt
  rw [getElem?_rowsFrom _ _ _ (by omega), Option.bind_some, Nat.zero_add]
  have hlen :
      (hexPadded 6 (pagesPerRow * (pn / pagesPerRow) * pageSize) ++ " ").toList.length = 7 := by
    rw [String.toList_append, List.length_append, length_hexPadded hrow]
    rfl
  rw [String.toList_append, List.getElem?_append_right (by omega), hlen, Nat.add_sub_cancel_left,
    String.toList_ofList, List.getElem?_take_of_lt hcol, List.getElem?_drop, hcut]

/-- What is shown of a page that can be handed out: whether it is free, and else its owner. -/
theorem pageGlyph_of_allocatablePage {f : Frames n} {o : Vector Owner n} {pn : ℕ}
    (ha : f.allocatablePage pn = true) (hpn : pn < n) :
    pageGlyph f o pn = if f.count pn = 0 then '.' else o[pn].glyph := by
  unfold pageGlyph
  rw [if_pos ha]
  simp [hpn]

/-! ### References -/

namespace PageTable

/-- Page number `pn` is one of the tables of the page table. -/
def HasTable (t : PageTable) (m : Memory n) (pn : ℕ) : Prop :=
  ∃ l, t.tableNumbers m = .ok l ∧ pn ∈ l

/-- The page table refers to page number `pn`: by one of its tables, or by a mapping. -/
def RefersTo (t : PageTable) (m : Memory n) (pn : ℕ) : Prop :=
  t.HasTable m pn ∨ ∃ va e, t.walk m va = .ok (some e) ∧ e.addr.pageNumber = pn

end PageTable

section
variable [Addressable n] {g : Shape} {m : Memory n} {t : PageTable} {pn : ℕ}

theorem Shape.Fits.hasTable_iff (h : g.Fits m) (hr : g.IsRoot t.root.number) :
    t.HasTable m pn ↔ pn ∈ m.tablesBelow 3 t.root.number := by
  unfold PageTable.HasTable
  rw [h.tableNumbers_eq hr]
  simp

/-- What a page table refers to are its references. -/
theorem Shape.Fits.refersTo_iff (h : g.Fits m) (hr : g.IsRoot t.root.number) :
    t.RefersTo m pn ↔ pn ∈ t.references m := by
  unfold PageTable.RefersTo PageTable.references
  rw [h.hasTable_iff hr, List.mem_append, List.mem_map]
  refine or_congr_right ⟨?_, ?_⟩
  · rintro ⟨va, e, hwalk, rfl⟩
    rw [h.walk_eq t va hr, Except.ok.injEq] at hwalk
    exact ⟨(va.page, e), PageTable.mem_leaves.mpr hwalk, rfl⟩
  · rintro ⟨⟨v, e⟩, hleaf, rfl⟩
    have hm := PageTable.mem_leaves.mp hleaf
    have hv : v < 2 ^ 36 := by
      have hlt := Shape.Trees.mapped_lt hm
      unfold pagesPerSpace at hlt
      omega
    refine ⟨VirtAddr.ofPage v, e, ?_, rfl⟩
    rw [h.walk_eq t _ hr, VirtAddr.page_ofPage hv, hm]

end

/-- A process maps a page that can be handed out for the user. -/
theorem LeafAllowed.user_of_allocatable {v : ℕ} {e : Entry} (h : LeafAllowed v e)
    (ha : Allocatable e.addr.pageNumber) : e.user = true := by
  obtain ⟨c, perm, hc, rfl, hleaf⟩ := h
  rw [Entry.addr_link hc, pageAt_pageNumber (by omega), allocatable_iff] at ha
  rw [Entry.user_link hc]
  cases hleaf with
  | kernel _ hv _ =>
    rw [userFirst_eq] at hv
    omega
  | console _ => rfl
  | user _ _ huser _ => exact huser

namespace Userland

/-- The address space of process `pid` refers to page number `pn`. -/
def Refers (s : Userland n) (pid : Pid) (pn : ℕ) : Prop :=
  ∃ t, s.procs.table? pid = some t ∧ t.RefersTo s.frames.memory pn

theorem Refers.lt {s : Userland n} {pid : Pid} {pn : ℕ} (h : s.Refers pid pn) :
    pid < procCount := by
  obtain ⟨t, ht, -⟩ := h
  exact ProcessTable.lt_of_table? ht

/-- What the physical map shows for page number `pn`, which can be handed out, by who refers to
it. -/
inductive Shows (kernel : PageTable) (s : Userland n) (pn : ℕ) : Char → Prop
  | free : s.frames.count pn = 0 → ¬ kernel.RefersTo s.frames.memory pn →
      (∀ pid, ¬ s.Refers pid pn) → Shows kernel s pn '.'
  | kernel : s.frames.count pn ≠ 0 → kernel.HasTable s.frames.memory pn →
      (∀ pid, ¬ s.Refers pid pn) → Shows kernel s pn 'K'
  | process {pid : Pid} : s.frames.count pn ≠ 0 → ¬ kernel.RefersTo s.frames.memory pn →
      s.Refers pid pn → (∀ pid', s.Refers pid' pn → pid' = pid) →
      Shows kernel s pn (Nat.digitChar pid)
  | several {pid pid' : Pid} : s.frames.count pn ≠ 0 → ¬ kernel.RefersTo s.frames.memory pn →
      pid' ≠ pid → s.Refers pid pn → s.Refers pid' pn → Shows kernel s pn 'S'

namespace Sound

variable [Addressable n] {kernel : PageTable} {g : Shape} {s : Userland n} {pn : ℕ}

/-- The kernel maps no page that can be handed out, so it refers to its tables only. -/
theorem kernel_refersTo_iff (h : Sound kernel g s) (ha : Allocatable pn) :
    kernel.RefersTo s.frames.memory pn ↔ kernel.HasTable s.frames.memory pn := by
  refine ⟨fun href => href.resolve_right ?_, .inl⟩
  rintro ⟨va, e, hwalk, rfl⟩
  rw [h.accounted.fits.walk_eq kernel va h.spaces.kernelRoot, Except.ok.injEq,
    h.spaces.kernelMapped] at hwalk
  obtain ⟨-, hv, rfl, -⟩ := LeafAllowed.of_kernelLeaf hwalk
  rw [userFirst_eq] at hv
  rw [Entry.addr_link (by omega), pageAt_pageNumber (by omega), allocatable_iff] at ha
  omega

theorem not_refers_of_hasTable (h : Sound kernel g s)
    (htable : kernel.HasTable s.frames.memory pn) (pid : Pid) : ¬ s.Refers pid pn := by
  rintro ⟨t, ht, href⟩
  have hfits := h.accounted.fits
  have hr := h.owns.isRoot ht
  rw [hfits.hasTable_iff h.spaces.kernelRoot, hfits.mem_tables h.spaces.kernelRoot] at htable
  obtain ⟨l, i, hplace⟩ := htable
  rcases href with htable' | ⟨va, e, hwalk, rfl⟩
  · rw [hfits.hasTable_iff hr, hfits.mem_tables hr] at htable'
    obtain ⟨l', i', hplace'⟩ := htable'
    rw [hplace, Option.some.injEq, Place.mk.injEq] at hplace'
    exact h.owns.ne ht hplace'.1.symm
  · rw [hfits.walk_eq t va hr, Except.ok.injEq] at hwalk
    rw [(hfits.mapped_target hr hwalk).1] at hplace
    cases hplace

/-- A process maps pages that can be handed out for the user only, so they count as its own. -/
theorem mem_marked_iff (h : Sound kernel g s) (ha : Allocatable pn) {pid : Pid} {t : PageTable}
    (ht : s.procs.table? pid = some t) :
    pn ∈ t.marked s.frames.memory (.process pid) ↔ t.RefersTo s.frames.memory pn := by
  have hr := h.owns.isRoot ht
  rw [h.accounted.fits.refersTo_iff hr, PageTable.marked, PageTable.references, List.mem_append,
    List.mem_append, List.mem_map, List.mem_map]
  refine or_congr_right ⟨?_, ?_⟩
  · rintro ⟨leaf, hleaf, rfl⟩
    exact ⟨leaf, (List.mem_filter.mp hleaf).1, rfl⟩
  · rintro ⟨⟨v, e⟩, hleaf, rfl⟩
    refine ⟨(v, e), List.mem_filter.mpr ⟨hleaf, ?_⟩, rfl⟩
    have hmaps : g.Maps s.frames.memory t.root.number v e := ⟨hr, PageTable.mem_leaves.mp hleaf⟩
    have huser := (h.spaces.leaf (h.owns.ne ht) hmaps).user_of_allocatable ha
    simp [Owner.counts, huser]

/-- **Who marks a page** that can be handed out is who refers to it. -/
theorem mem_markers_iff (h : Sound kernel g s) (ha : Allocatable pn) {owner : Owner} :
    owner ∈ markers s.frames.memory (tableOwners kernel s.procs) pn ↔
      owner = .kernel ∧ kernel.HasTable s.frames.memory pn ∨
        ∃ pid, owner = .process pid ∧ s.Refers pid pn := by
  have hkernel : pn ∈ kernel.marked s.frames.memory .kernel ↔
      kernel.HasTable s.frames.memory pn := by
    rw [← h.kernel_refersTo_iff ha, h.accounted.fits.refersTo_iff h.spaces.kernelRoot]
    simp [PageTable.marked, PageTable.references, Owner.counts]
  unfold markers
  simp only [List.mem_map, List.mem_filter, decide_eq_true_eq]
  constructor
  · rintro ⟨⟨owner, t⟩, ⟨hmem, hmarked⟩, rfl⟩
    rcases List.mem_cons.mp hmem with heq | hmem
    · cases heq
      exact .inl ⟨rfl, hkernel.mp hmarked⟩
    · obtain ⟨⟨pid, t⟩, hlive, heq⟩ := List.mem_map.mp hmem
      cases heq
      have ht := (ProcessTable.mem_liveTables.mp hlive).2
      exact .inr ⟨pid, rfl, t, ht, (h.mem_marked_iff ha ht).mp hmarked⟩
  · rintro (⟨rfl, htable⟩ | ⟨pid, rfl, t, ht, href⟩)
    · exact ⟨(.kernel, kernel), ⟨List.mem_cons_self, hkernel.mpr htable⟩, rfl⟩
    · have hlive := ProcessTable.mem_liveTables.mpr ⟨h.owns.live ht, ht⟩
      have hmem : (Owner.process pid, t) ∈ tableOwners kernel s.procs :=
        List.mem_cons_of_mem _ (List.mem_map.mpr ⟨(pid, t), hlive, rfl⟩)
      exact ⟨(.process pid, t), ⟨hmem, (h.mem_marked_iff ha ht).mpr href⟩, rfl⟩

/-- A page is free just if nobody refers to it. -/
theorem count_eq_zero_iff (h : Sound kernel g s) :
    s.frames.count pn = 0 ↔
      ¬ kernel.RefersTo s.frames.memory pn ∧ ∀ pid, ¬ s.Refers pid pn := by
  have hall := h.allOf
  rw [h.count_eq, List.count_eq_zero, List.mem_flatMap]
  have href : ∀ t ∈ kernel :: s.procs.liveTables.map (·.2),
      (pn ∈ t.references s.frames.memory ↔ t.RefersTo s.frames.memory pn) :=
    fun t ht => (h.accounted.fits.refersTo_iff (hall.isRoot t ht)).symm
  have hlive : ∀ {pid t}, s.procs.table? pid = some t →
      t ∈ kernel :: s.procs.liveTables.map (·.2) := fun {pid t} ht =>
    List.mem_cons_of_mem _ (List.mem_map.mpr
      ⟨(pid, t), ProcessTable.mem_liveTables.mpr ⟨h.owns.live ht, ht⟩, rfl⟩)
  constructor
  · refine fun hnone => ⟨fun hk => ?_, fun pid ⟨t, ht, hp⟩ => ?_⟩
    · exact hnone ⟨kernel, List.mem_cons_self, (href _ List.mem_cons_self).mpr hk⟩
    · exact hnone ⟨t, hlive ht, (href _ (hlive ht)).mpr hp⟩
  · rintro ⟨hk, hp⟩ ⟨t, ht, hmem⟩
    have hrefers := (href t ht).mp hmem
    rcases List.mem_cons.mp ht with rfl | ht
    · exact hk hrefers
    · obtain ⟨⟨pid, t⟩, hproc, rfl⟩ := List.mem_map.mp ht
      exact hp pid ⟨t, (ProcessTable.mem_liveTables.mp hproc).2, hrefers⟩

theorem not_kernel_refersTo (h : Sound kernel g s) (ha : Allocatable pn) {pid : Pid}
    (hpid : s.Refers pid pn) : ¬ kernel.RefersTo s.frames.memory pn := by
  rw [h.kernel_refersTo_iff ha]
  exact fun htable => h.not_refers_of_hasTable htable pid hpid

theorem markers_ne_nil (h : Sound kernel g s) (ha : Allocatable pn)
    (hcount : s.frames.count pn ≠ 0) :
    markers s.frames.memory (tableOwners kernel s.procs) pn ≠ [] := by
  intro hnil
  refine hcount (h.count_eq_zero_iff.mpr ⟨?_, fun pid hpid => ?_⟩)
  · rw [h.kernel_refersTo_iff ha]
    exact fun htable => List.not_mem_nil (hnil ▸ (h.mem_markers_iff ha).mpr (.inl ⟨rfl, htable⟩))
  · exact List.not_mem_nil (hnil ▸ (h.mem_markers_iff ha).mpr (.inr ⟨pid, rfl, hpid⟩))

theorem ne_nobody_of_mem_markers (h : Sound kernel g s) (ha : Allocatable pn) {a : Owner}
    (hmem : a ∈ markers s.frames.memory (tableOwners kernel s.procs) pn) : a ≠ .nobody := by
  rcases (h.mem_markers_iff ha).mp hmem with ⟨rfl, -⟩ | ⟨pid, rfl, -⟩ <;> nofun

/-- **The physical map shows who refers to a page.** -/
theorem shows (h : Sound kernel g s) {o : Vector Owner n}
    (ho : ∀ q (hq : q < n),
      o[q] = (markers s.frames.memory (tableOwners kernel s.procs) q).foldl Owner.join .nobody)
    (ha : s.frames.allocatablePage pn = true) :
    s.Shows kernel pn (pageGlyph s.frames o pn) := by
  obtain ⟨hstart, hlt⟩ : Allocatable pn ∧ pn < n := Frames.allocatablePage_iff.mp ha
  have hmarkers := @mem_markers_iff _ _ _ _ _ _ h hstart
  rw [pageGlyph_of_allocatablePage ha hlt, ho pn hlt]
  by_cases hcount : s.frames.count pn = 0
  · obtain ⟨hk, hp⟩ := h.count_eq_zero_iff.mp hcount
    rw [if_pos hcount]
    exact .free hcount hk hp
  rw [if_neg hcount]
  rcases Owner.foldl_join_cases fun a hmem => h.ne_nobody_of_mem_markers hstart hmem with
    ⟨hnil, -⟩ | ⟨a, hmem, hall, hfold⟩ | ⟨a, hmem, b, hmem', hne, hfold⟩
  · exact absurd hnil (h.markers_ne_nil hstart hcount)
  · rw [hfold]
    rcases hmarkers.mp hmem with ⟨rfl, htable⟩ | ⟨pid, rfl, hpid⟩
    · exact .kernel hcount htable (h.not_refers_of_hasTable htable)
    · have hlow : pid < 16 := hpid.lt
      show s.Shows kernel pn (if pid < 16 then Nat.digitChar pid else 'S')
      rw [if_pos hlow]
      refine .process hcount (h.not_kernel_refersTo hstart hpid) hpid fun pid' hpid' => ?_
      cases hall _ (hmarkers.mpr (.inr ⟨pid', rfl, hpid'⟩))
      rfl
  · rw [hfold]
    rcases hmarkers.mp hmem with ⟨rfl, htable⟩ | ⟨pid, rfl, hpid⟩ <;>
      rcases hmarkers.mp hmem' with ⟨rfl, htable'⟩ | ⟨pid', rfl, hpid'⟩
    · exact absurd rfl hne
    · exact absurd hpid' (h.not_refers_of_hasTable htable pid')
    · exact absurd hpid (h.not_refers_of_hasTable htable' pid)
    · have hpids : pid' ≠ pid := fun heq => hne (congrArg Owner.process heq)
      exact .several hcount (h.not_kernel_refersTo hstart hpid) hpids hpid hpid'

/-- **The physical map can be drawn.** It shows who refers to the pages that can be handed out, and
the others as the machine's or the kernel's. -/
theorem physicalMap_shows (h : Sound kernel g s) :
    ∃ rows, physicalMap s.frames kernel s.procs = .ok rows ∧
      ∀ pn < n, pn * pageSize < 16 ^ 6 → ∃ c, glyphAt rows pn = some c ∧
        if s.frames.allocatablePage pn then s.Shows kernel pn c else c = 'R' ∨ c = 'K' := by
  obtain ⟨o, hok, ho⟩ := h.owners_ok
  refine ⟨rowsFrom 0 ((List.range n).map (pageGlyph s.frames o)), ?_, fun pn hpn haddr =>
    ⟨pageGlyph s.frames o pn, ?_, ?_⟩⟩
  · unfold physicalMap
    rw [hok]
    rfl
  · rw [glyphAt_rowsFrom (by simpa using hpn) haddr]
    simp [hpn]
  · by_cases ha : s.frames.allocatablePage pn = true
    · rw [if_pos ha]
      exact h.shows ho ha
    · rw [if_neg ha]
      unfold pageGlyph
      rw [if_neg ha]
      by_cases hlow : pn * pageSize < kernelStart ∨ ioHoleStart ≤ pn * pageSize
      · exact .inl (by simp [hlow])
      · exact .inr (by simp [hlow])

end Sound

theorem digitChar_ne {pid : Pid} (h : pid < procCount) :
    Nat.digitChar pid ≠ '?' ∧ Nat.digitChar pid ≠ '.' ∧ Nat.digitChar pid ≠ 'K' ∧
      Nat.digitChar pid ≠ 'S' ∧
      ∀ pid' < procCount, Nat.digitChar pid = Nat.digitChar pid' → pid = pid' := by
  revert pid
  decide

/-- **What is shown tells who refers to the page.** -/
theorem Shows.glyph_iff {kernel : PageTable} {s : Userland n} {pn : ℕ} {c : Char}
    (h : s.Shows kernel pn c) :
    c ≠ '?' ∧ (c = '.' ↔ s.frames.count pn = 0) ∧
      (c = 'K' ↔ kernel.HasTable s.frames.memory pn) ∧
      (∀ pid < procCount, c = Nat.digitChar pid ↔ s.Refers pid pn ∧
        (∀ pid', s.Refers pid' pn → pid' = pid) ∧ ¬ kernel.RefersTo s.frames.memory pn) ∧
      (c = 'S' ↔ ∃ pid pid', pid' ≠ pid ∧ s.Refers pid pn ∧ s.Refers pid' pn) := by
  cases h with
  | free hcount hk hp =>
    refine ⟨by decide, iff_of_true rfl hcount, iff_of_false (by decide) fun ht => hk (.inl ht),
      fun pid hpid => iff_of_false ?_ fun href => hp pid href.1, iff_of_false (by decide) ?_⟩
    · exact (digitChar_ne hpid).2.1.symm
    · rintro ⟨pid, pid', -, hpid, -⟩
      exact hp pid hpid
  | kernel hcount htable hp =>
    refine ⟨by decide, iff_of_false (by decide) hcount, iff_of_true rfl htable,
      fun pid hpid => iff_of_false ?_ fun href => hp pid href.1, iff_of_false (by decide) ?_⟩
    · exact (digitChar_ne hpid).2.2.1.symm
    · rintro ⟨pid, pid', -, hpid, -⟩
      exact hp pid hpid
  | @process pid hcount hk hpid hall =>
    obtain ⟨hunknown, hfree, hkernel, hseveral, hinj⟩ := digitChar_ne hpid.lt
    refine ⟨hunknown, iff_of_false hfree hcount, iff_of_false hkernel fun ht => hk (.inl ht),
      fun pid' hpid' => ⟨fun heq => ?_, fun ⟨href, _⟩ => ?_⟩, iff_of_false hseveral ?_⟩
    · obtain rfl := hinj pid' hpid' heq
      exact ⟨hpid, hall, hk⟩
    · rw [hall pid' href]
    · rintro ⟨pid₁, pid₂, hne, h₁, h₂⟩
      exact hne ((hall pid₂ h₂).trans (hall pid₁ h₁).symm)
  | @several pid pid' hcount hk hne hpid hpid' =>
    refine ⟨by decide, iff_of_false (by decide) hcount,
      iff_of_false (by decide) fun ht => hk (.inl ht), fun pid₁ hlt => iff_of_false ?_ ?_,
      iff_of_true rfl ⟨pid, pid', hne, hpid, hpid'⟩⟩
    · exact (digitChar_ne hlt).2.2.2.1.symm
    · rintro ⟨-, hall, -⟩
      exact hne ((hall pid' hpid').trans (hall pid hpid).symm)

end Userland

end PagedKernel
