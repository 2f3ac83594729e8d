import PagedKernel.Proofs.Spaces.References
import PagedKernel.Proofs.Spaces.Separation
import PagedKernel.Proofs.Spaces.Untouched

/-!
# Consistent frames

Frames are consistent with a list of page tables and the handles that are outstanding if the count
of each page is the number of references that these make up, no page holds two tables, and no leaf
points to a table. A handle may be to any page, a table too.

Consistency is read off the memory and the counts. It makes the page tables trees with all their
pages installed (`Frames.Consistent.fits`), and where no handle is to a table it says that every
reference is accounted for (`Frames.Consistent.accounted`, `Accounted.consistent`).

Key definitions: `Memory.Coherent`, `Frames.Consistent`.
Key theorems: `Memory.Coherent.fits`, `Frames.Consistent.fits`, `Frames.Consistent.of_sameSpace`,
`Frames.Consistent.accounted`, `Accounted.consistent`.
-/

namespace PagedKernel

variable {n : Nat} {g : Shape} {f f' : Frames n} {ts ts' : List PageTable}
  {handles handles' : List FrameRef}

/-- The tables of the page tables are in pages that there are, one in each, and the leaves point to
pages that hold none. -/
structure Memory.Coherent (m : Memory n) (tables : Set PageTable) : Prop where
  installed : ∀ {q p}, m.TableAt tables q p → q < n
  distinct : ∀ {q p p'}, m.TableAt tables q p → m.TableAt tables q p' → p' = p
  leaf : ∀ t ∈ tables, ∀ leaf ∈ t.leaves m,
    leaf.2.addr.pageNumber < n ∧ ¬ m.HoldsTable tables leaf.2.addr.pageNumber

/-- **Coherent page tables are trees**, and their leaves point to pages that hold no table. -/
theorem Memory.Coherent.fits {m : Memory n} {tables : Set PageTable} (h : m.Coherent tables) :
    (m.shape tables).Fits m where
  toTrees := Memory.trees_shape h.installed h.distinct
  leaf := by
    intro q r i s c hq hs hc
    have htrees := Memory.trees_shape h.installed h.distinct
    have ht := (Memory.isRoot_shape h.distinct).mp (htrees.isRoot hq)
    have hmapped := htrees.mapped_of_slot hq hs (Entry.present_of_page? hc)
    have hpage : (m.slot q s).addr.pageNumber = c := by
      rw [Entry.addr_of_page? hc]
      exact pageAt_pageNumber (lt_trans (Entry.page?_lt hc) (by decide))
    obtain ⟨hlt, hnone⟩ := h.leaf _ ht _ (PageTable.mem_leaves.mpr hmapped)
    rw [hpage] at hlt hnone
    refine ⟨Option.eq_none_iff_forall_ne_some.mpr fun p hp => hnone ⟨p, ?_⟩, hlt⟩
    exact (Memory.shape_iff h.distinct).mp hp

/-- The page tables `ts` and the handles `handles` are all that refers to pages, each page holds one
table at most, and no leaf points to one. -/
structure Frames.Consistent (f : Frames n) (ts : List PageTable) (handles : List FrameRef) :
    Prop where
  nodup : ts.Nodup
  count : ∀ q, f.count q =
    (ts.flatMap (·.references f.memory)).count q + (handles.map (·.number)).count q
  distinct : ∀ {q p p'}, f.memory.TableAt {t | t ∈ ts} q p → f.memory.TableAt {t | t ∈ ts} q p' →
    p' = p
  leaf : ∀ t ∈ ts, ∀ leaf ∈ t.leaves f.memory,
    ¬ f.memory.HoldsTable {t | t ∈ ts} leaf.2.addr.pageNumber

/-- A table lies below the root of its place. -/
theorem Memory.TableAt.tablesBelow_subset {m : Memory n} {tables : Set PageTable} {c : Nat}
    {p : Place} (h : m.TableAt tables c p) : ∃ t ∈ tables, t.root.number = p.root ∧
      m.tablesBelow p.level c ⊆ m.tablesBelow 3 t.root.number := by
  induction h with
  | root ht => exact ⟨_, ht, rfl, List.Subset.refl _⟩
  | child hq hs hc ih =>
    obtain ⟨t, ht, hr, hsub⟩ := ih
    exact ⟨t, ht, hr, fun c' hc' => hsub (Memory.tablesBelow_child hs hc hc')⟩

namespace PageTable.AllOf

theorem isRoot_iff (h : AllOf g ts) {r : Nat} :
    g.IsRoot r ↔ (⟨⟨r⟩⟩ : PageTable) ∈ {t | t ∈ ts} := by
  constructor
  · intro hr
    obtain ⟨t, ht, rfl⟩ := h.complete r hr
    exact ht
  · exact fun ht => h.isRoot _ ht

theorem congr {g' : Shape} (h : AllOf g ts) (hroot : ∀ {r}, g'.IsRoot r ↔ g.IsRoot r) :
    AllOf g' ts where
  isRoot t ht := hroot.mpr (h.isRoot t ht)
  nodup := h.nodup
  complete r hr := h.complete r (hroot.mp hr)

theorem plantedAt {held : List Nat} (h : AllOf g ts) (ha : Accounted g held f) :
    PlantedAt {t | t ∈ ts} g f :=
  ⟨ha.planted, h.isRoot_iff⟩

theorem count_holdsTable {held : List Nat} (h : AllOf g ts) (ha : Accounted g held f) {q : Nat}
    (hq : f.memory.HoldsTable {t | t ∈ ts} q) : f.count q = 1 := by
  rw [(h.plantedAt ha).holdsTable] at hq
  obtain ⟨p, hp⟩ := Option.ne_none_iff_exists'.mp hq
  exact ha.count_table hp

theorem walk_eq [Addressable n] {t : PageTable} (h : AllOf g ts) (hf : g.Fits f.memory)
    (ht : t ∈ ts) (va : VirtAddr) :
    t.walk f.memory va = .ok (f.memory.mapped t.root.number va.page) :=
  hf.walk_eq t va (h.isRoot t ht)

end PageTable.AllOf

namespace Frames.Consistent

theorem in_use_of_reference (h : f.Consistent ts handles) {t : PageTable} (ht : t ∈ ts) {q : Nat}
    (hq : q ∈ t.references f.memory) : f.count q ≠ 0 := by
  have hmem : q ∈ ts.flatMap (·.references f.memory) := List.mem_flatMap.mpr ⟨t, ht, hq⟩
  have hpos := List.count_pos_iff.mpr hmem
  rw [h.count q]
  omega

theorem installed_of_reference (h : f.Consistent ts handles) {t : PageTable} (ht : t ∈ ts) {q : Nat}
    (hq : q ∈ t.references f.memory) : q < n := by
  by_contra hge
  exact h.in_use_of_reference ht hq (f.count_of_ge (Nat.not_lt.mp hge))

theorem installed (h : f.Consistent ts handles) {q : Nat} {p : Place}
    (hq : f.memory.TableAt {t | t ∈ ts} q p) : q < n := by
  obtain ⟨t, ht, -, hsub⟩ := hq.tablesBelow_subset
  refine h.installed_of_reference ht (List.mem_append_left _ (hsub ?_))
  exact f.memory.mem_tablesBelow_self _ _

/-- The shape of the page tables. -/
noncomputable abbrev shape (_ : f.Consistent ts handles) : Shape :=
  f.memory.shape {t | t ∈ ts}

theorem tableAt_iff (h : f.Consistent ts handles) {q : Nat} {p : Place} :
    f.memory.TableAt {t | t ∈ ts} q p ↔ h.shape q = some p :=
  (Memory.shape_iff h.distinct).symm

theorem holdsTable_iff (h : f.Consistent ts handles) {q : Nat} :
    f.memory.HoldsTable {t | t ∈ ts} q ↔ h.shape q ≠ none := by
  unfold Memory.HoldsTable
  simp only [h.tableAt_iff, ← Option.ne_none_iff_exists']

theorem isRoot (h : f.Consistent ts handles) {t : PageTable} (ht : t ∈ ts) :
    h.shape.IsRoot t.root.number :=
  (Memory.isRoot_shape h.distinct).mpr ht

theorem allOf (h : f.Consistent ts handles) : PageTable.AllOf h.shape ts where
  isRoot _ ht := h.isRoot ht
  nodup := h.nodup.map fun {t t'} heq => by
    obtain ⟨⟨r⟩⟩ := t
    obtain ⟨⟨r'⟩⟩ := t'
    exact congrArg (fun r => PageTable.mk ⟨r⟩) heq
  complete r hr := ⟨⟨⟨r⟩⟩, (Memory.isRoot_shape h.distinct).mp hr, rfl⟩

/-- The pages that leaves point to are counted too, so they are installed. -/
theorem coherent (h : f.Consistent ts handles) : f.memory.Coherent {t | t ∈ ts} where
  installed := h.installed
  distinct := h.distinct
  leaf t ht leaf hleaf := by
    refine ⟨h.installed_of_reference ht (List.mem_append_right _ ?_), h.leaf t ht leaf hleaf⟩
    exact List.mem_map.mpr ⟨leaf, hleaf, rfl⟩

/-- **The page tables are trees**, and their leaves point to pages that hold no table. -/
theorem fits (h : f.Consistent ts handles) : h.shape.Fits f.memory :=
  h.coherent.fits

theorem sameSpace_of_in_use (h : f.Consistent ts handles)
    (hb : ∀ a, f.count (a / pageSize) ≠ 0 → f'.memory.byte a = f.memory.byte a) {t : PageTable}
    (ht : t ∈ ts) : Memory.SameSpace t.root.number f.memory f'.memory := by
  intro q hq s hs
  have hused := h.in_use_of_reference ht (List.mem_append_left _ hq)
  exact Memory.slot_congr hs fun a ha => hb a (ha ▸ hused)

/-- Page tables that stay the same are consistent if the counts fit them. -/
theorem of_sameSpace (h : f.Consistent ts handles) (hsub : ∀ t ∈ ts', t ∈ ts) (hnodup : ts'.Nodup)
    (hsame : ∀ t ∈ ts', Memory.SameSpace t.root.number f.memory f'.memory)
    (hcount : ∀ q, f'.count q =
      (ts'.flatMap (·.references f.memory)).count q + (handles'.map (·.number)).count q) :
    f'.Consistent ts' handles' := by
  have htables : ∀ {q p}, f'.memory.TableAt {t | t ∈ ts'} q p →
      f.memory.TableAt {t | t ∈ ts'} q p := by
    intro q p hq
    induction hq with
    | root ht => exact .root ht
    | child hq hs hc ih =>
      obtain ⟨t, ht, -, hsub⟩ := ih.tablesBelow_subset
      rw [hsame t ht _ (hsub (f.memory.mem_tablesBelow_self _ _)) _ hs] at hc
      exact .child ih hs hc
  have hold : ∀ {q p}, f'.memory.TableAt {t | t ∈ ts'} q p → f.memory.TableAt {t | t ∈ ts} q p :=
    fun hq => (htables hq).mono hsub
  refine ⟨hnodup, fun q => ?_, fun hq hq' => h.distinct (hold hq) (hold hq'), ?_⟩
  · rw [hcount, List.flatMap_congr fun t ht => (hsame t ht).references]
  · intro t ht leaf hleaf hholds
    obtain ⟨p, hp⟩ := hholds
    rw [(hsame t ht).leaves] at hleaf
    exact h.leaf t (hsub t ht) leaf hleaf ⟨p, hold hp⟩

theorem sameUse (h : f.Consistent ts handles) (hu : Frames.SameUse f f') :
    f'.Consistent ts handles :=
  h.of_sameSpace (fun _ ht => ht) h.nodup (fun _ => h.sameSpace_of_in_use hu.byte) fun q =>
    (hu.count q).trans (h.count q)

/-- Where no handle is to a table, every reference is accounted for. -/
theorem accounted (h : f.Consistent ts handles)
    (hh : ∀ ref ∈ handles, ¬ f.memory.HoldsTable {t | t ∈ ts} ref.number) :
    Accounted h.shape (handles.map (·.number)) f where
  fits := h.fits
  handle := by
    intro q hq
    obtain ⟨ref, href, rfl⟩ := List.mem_map.mp hq
    have hnone := hh ref href
    rw [h.holdsTable_iff] at hnone
    refine ⟨?_, not_not.mp hnone⟩
    by_contra hge
    have hcount := h.count ref.number
    rw [f.count_of_ge (Nat.not_lt.mp hge)] at hcount
    have hpos := List.count_pos_iff.mpr hq
    omega
  count q _ := by
    rw [h.count q, h.allOf.count_references h.fits]

/-- Where one reference only is to each table, no handle is. -/
theorem accounted_of_count (h : f.Consistent ts handles)
    (hone : ∀ q, f.memory.HoldsTable {t | t ∈ ts} q → f.count q = 1) :
    Accounted h.shape (handles.map (·.number)) f := by
  refine h.accounted fun ref href hq => ?_
  have hcount := h.count ref.number
  have hsome : (h.shape ref.number).isSome = true :=
    Option.isSome_iff_ne_none.mpr (h.holdsTable_iff.mp hq)
  have hmem : ref.number ∈ handles.map (·.number) := List.mem_map.mpr ⟨ref, href, rfl⟩
  have hpos := List.count_pos_iff.mpr hmem
  rw [hone _ hq, h.allOf.count_references h.fits, hsome, Bool.toNat_true] at hcount
  omega

end Frames.Consistent

/-- Frames that account for every reference are consistent. -/
theorem Accounted.consistent (h : Accounted g (handles.map (·.number)) f)
    (hts : PageTable.AllOf g ts) : f.Consistent ts handles where
  nodup := hts.nodup.of_map
  count := h.count_eq hts
  distinct hq hq' := by
    rw [h.fits.tableAt_iff hts.isRoot_iff] at hq hq'
    exact Option.some.inj (hq'.symm.trans hq)
  leaf t ht leaf hleaf hholds := by
    obtain ⟨p, hp⟩ := hholds
    rw [h.fits.tableAt_iff hts.isRoot_iff] at hp
    have hmapped := PageTable.mem_leaves.mp hleaf
    exact nomatch (h.fits.mapped_target (hts.isRoot t ht) hmapped).1.symm.trans hp

/-! ### Spaces of one page -/

/-- The space with root `r` maps page number 1 and nothing else, to page number `c`, which is full
of the filler of the allocator. -/
structure OnePage (g : Shape) (f : Frames n) (r c : Nat) : Prop where
  isRoot : g.IsRoot r
  mapped : f.memory.mapped r =
    Function.update (fun _ => none) 1 (some (.link (pageAt c) Permission.userData.toFlags))
  lt : c < n
  byte : ∀ a, a / pageSize = c → f.memory.byte a = allocFill

namespace OnePage

variable [Addressable n] {g' : Shape} {r r' c : Nat}

omit [Addressable n] in
theorem eq_of_mapped (h : OnePage g f r c) {v : Nat} {e : Entry}
    (hm : f.memory.mapped r v = some e) :
    v = 1 ∧ e = .link (pageAt c) Permission.userData.toFlags := by
  rw [h.mapped] at hm
  by_cases hv : v = 1
  · subst hv
    rw [Function.update_self] at hm
    exact ⟨rfl, (Option.some.inj hm).symm⟩
  · rw [Function.update_of_ne hv] at hm
    cases hm

omit [Addressable n] in
theorem mapped_one (h : OnePage g f r c) :
    f.memory.mapped r 1 = some (.link (pageAt c) Permission.userData.toFlags) := by
  rw [h.mapped, Function.update_self]

theorem pageNumber (h : OnePage g f r c) :
    (Entry.link (pageAt c) Permission.userData.toFlags).addr.pageNumber = c :=
  Entry.pageNumber_link (lt_of_lt_of_le h.lt (Addressable.le (n := n))) _

theorem kept (h : OnePage g f r c) (hk : Kept (· ≠ r') g f g' f') (hr : r ≠ r') :
    OnePage g' f' r c where
  isRoot := (hk.isRoot hr).mpr h.isRoot
  mapped := (hk.mapped hr h.isRoot).trans h.mapped
  lt := h.lt
  byte a ha := by
    rw [hk.byte hr h.isRoot h.mapped_one a (ha.trans h.pageNumber.symm), h.byte a ha]

/-- A space of one page is made out of pages for four tables and the one that is mapped. -/
theorem of_freePages (h : Accounted g [] f) (hfree : 5 ≤ f.freePages) :
    ∃ g' f' r c, Accounted g' [] f' ∧ Kept (· ≠ r) g f g' f' ∧ ¬ g.IsRoot r ∧ f.count c = 0 ∧
      OnePage g' f' r c ∧ f.freePages ≤ f'.freePages + 5 := by
  obtain ⟨t, c, g₁, f₁, hacc₁, hmap₁, hnew, hcount, hfill, hfree₁⟩ :=
    PageTable.exists_new h (by omega)
  have hinstall : Ends (PageTable.install (pageAt t.root.number) (VirtAddr.ofPage 1) ⟨c⟩
      .userData) f₁ _ fun _ => False :=
    PageTable.install_ends (VirtAddr.ofPage 1) hacc₁ hmap₁.isRoot
  obtain ⟨res, f₂, -, h₂⟩ := hinstall.ok
  have hreach := Shape.Trees.reach_le f₁.memory (VirtAddr.ofPage 1).page 3 t.root.number
  cases res with
  | error cause =>
    have hlt := (PageTable.refused_ofPage le_rfl (by decide) h₂.2.2.2).2
    rw [VirtAddr.page_ofPage (by decide)] at hreach
    omega
  | ok old =>
    obtain ⟨⟨g₂, hacc₂, hmap₂, hgrown⟩, hold, -, -, hfree₂⟩ := h₂
    rw [hmap₁.mapped] at hold hmap₂
    subst hold
    rw [VirtAddr.page_ofPage (by decide)] at hmap₂
    obtain ⟨hlt, hnone⟩ := hacc₁.handle c List.mem_cons_self
    refine ⟨g₂, f₂, t.root.number, c, hacc₂, hmap₁.kept.trans hmap₂.kept, hnew, hcount,
      ⟨hmap₂.isRoot, hmap₂.mapped, hlt, fun a ha => ?_⟩, by omega⟩
    -- the page is in use when it is mapped, and no table
    have htable : ¬ g₁.TableOf t.root.number (a / pageSize) := fun ⟨l, i, hq⟩ => by
      rw [ha, hnone] at hq
      cases hq
    have hused : f₁.count (a / pageSize) ≠ 0 := ha ▸ hacc₁.count_handle List.mem_cons_self
    rw [hgrown.byte a htable hused, hfill a ha]

end OnePage

theorem PageTable.AllOf.single {g' : Shape} {f' : Frames n} {r : Nat}
    (hk : Kept (· ≠ r) (fun _ => none) f g' f') (hr : g'.IsRoot r) : AllOf g' [⟨⟨r⟩⟩] where
  isRoot t ht := by
    rw [List.mem_singleton.mp ht]
    exact hr
  nodup := List.nodup_singleton _
  complete r' hr' := by
    refine ⟨_, List.mem_singleton_self _, ?_⟩
    by_contra hne
    exact nomatch (hk.isRoot (Ne.symm hne)).mp hr'

/-- There are consistent frames with one page table, which maps one page. -/
theorem OnePage.exists_consistent : ∃ (g : Shape) (f : Frames physicalPages) (r c : Nat),
    OnePage g f r c ∧ Accounted g [] f ∧ PageTable.AllOf g [⟨⟨r⟩⟩] ∧ f.Consistent [⟨⟨r⟩⟩] [] ∧
    251 ≤ f.freePages := by
  have hfresh := Frames.freePages_fresh
  obtain ⟨g, f, r, c, hacc, hkept, -, -, hone, hfree⟩ :=
    of_freePages (accounted_fresh physicalPages) (by omega)
  have hall := PageTable.AllOf.single hkept hone.isRoot
  have hconsistent : f.Consistent [⟨⟨r⟩⟩] [] := Accounted.consistent hacc hall
  exact ⟨g, f, r, c, hone, hacc, hall, hconsistent, by omega⟩

end PagedKernel
