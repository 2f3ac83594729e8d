import PagedKernel.Proofs.Process.Mirroring
import PagedKernel.Proofs.Process.SharedSpace
import PagedKernel.Proofs.Spaces.Construction

/-!
# The copy of the kernel's mappings

A permission says less than the flags of an entry do, so a space that shares the pages of the kernel
need not map them as the kernel does. Where the kernel's page table is plain, it does: then the copy
has the kernel's own leaves below the user region and none above (`Making.leaves_copy`). The pages
of its tables are the only ones that it takes, and each leaf is one reference more. Where the tables
do not fit into the free pages, nothing that was in use changes.

A count has 32 bits. References enough to overflow one do not fit into the memory that there is, but
consistency does not say so, for it lets handles be outstanding without end. That no count overflows
is therefore a condition of the result, and without it the copying may halt
(`Frames.Consistent.sharingKernel_overflows`).

Key definitions: `mappingsTo`, `KernelCopy`, `CopyOutcome`.
Key theorems: `Making.leaves_copy`, `Frames.Consistent.kernelCopy`,
`Frames.Consistent.sharingKernel_exact`.
-/

namespace PagedKernel

variable {n : Nat} {g : Shape} {m : Memory n} {f f' : Frames n} {ts ts' : List PageTable}
  {handles handles' : List FrameRef} {kernel t : PageTable} {E : Halt → Prop}

/-- How many of the mappings are to page number `q`. -/
def mappingsTo (mappings : List Mapping) (q : Nat) : Nat :=
  mappings.countP fun p => p.2.addr.pageNumber = q

/-- Every page that is in use in `f` holds in `f'` what it did, and so the page tables `ts` are
walked the same. -/
structure Frames.LeftAlone (ts : List PageTable) (f f' : Frames n) : Prop where
  byte : ∀ a, f.count (a / pageSize) ≠ 0 → f'.memory.byte a = f.memory.byte a
  walk : ∀ t ∈ ts, ∀ va, t.walk f'.memory va = t.walk f.memory va

/-- In `f'` the page table `t` has come to the page tables `ts` of `f`. Its mappings are `low`, and
walks find below the user region what those of the kernel do and nothing above. Its tables are in
pages that were free; besides, each page has got one more reference for each mapping to it. If the
kernel lets the user write the console, the audit passes. -/
structure KernelCopy (ts : List PageTable) (handles : List FrameRef) (kernel : PageTable)
    (low : List Mapping) (t : PageTable) (f f' : Frames n) : Prop where
  mappings : t.mappings f'.memory 0 (2 ^ 47) = .ok low
  walk : ∀ va : VirtAddr, va.Canonical →
    t.walk f'.memory va = if va.toNat < procStart then kernel.walk f.memory va else .ok none
  tables : ∃ fresh, t.tableNumbers f'.memory = .ok fresh ∧ fresh.Nodup ∧
    fresh.length = tablesFor low ∧ (∀ q ∈ fresh, f.isFree q = true) ∧
    ∀ q, f'.count q = f.count q + mappingsTo low q + fresh.count q
  consistent : f'.Consistent (t :: ts) handles
  audit : (∃ e, kernel.walk f.memory ⟨UInt64.ofNat consoleAddr⟩ = .ok (some e) ∧
    e.flags.userWritable = true) → checkTable f'.memory kernel t = .ok ()

/-- What the copying leaves in `f'`: a copy, or, if there are too few free pages for its tables,
what there was. -/
structure CopyOutcome (ts : List PageTable) (handles : List FrameRef) (kernel : PageTable)
    (low : List Mapping) (f : Frames n) (answer : Except MapError PageTable) (f' : Frames n) :
    Prop where
  leftAlone : f.LeftAlone ts f'
  refused : answer = .error .outOfMemory ↔ f.freePages < tablesFor low
  copy : ∀ t, answer = .ok t → KernelCopy ts handles kernel low t f f'
  undone : ∀ cause, answer = .error cause → cause = .outOfMemory ∧
    (∀ q, f'.count q = f.count q) ∧ f'.Consistent ts handles

theorem mappingsTo_map (leaves : List (Nat × Entry)) (q : Nat) :
    mappingsTo (leaves.map mappingOf) q = leaves.countP fun p => p.2.addr.pageNumber = q := by
  unfold mappingsTo
  rw [List.countP_map]
  rfl

theorem tablesFor_map (leaves : List (Nat × Entry)) :
    tablesFor (leaves.map mappingOf) = tablesFor leaves := by
  unfold tablesFor
  rw [List.isEmpty_map]

theorem VirtAddr.page_lt_userFirst {va : VirtAddr} (hva : va.Canonical) :
    va.page < userFirst ↔ va.toNat < procStart := by
  have hlt : va.toNat < 2 ^ 64 := va.val.toNat_lt
  rw [canonical_iff] at hva
  rw [userFirst_eq]
  unfold VirtAddr.page pagesPerSpace pageSize procStart
  omega

/-! ### Plain leaves are shared as they are -/

theorem Entry.shared_link {c : Nat} (hc : c < 2 ^ 40) (perm : Permission) :
    (link (pageAt c) perm.toFlags).shared = link (pageAt c) perm.toFlags := by
  unfold shared
  rw [pageNumber_link hc, flags_link hc, Permission.ofFlags_toFlags]
  rfl

theorem PageTable.Plain.sharedIn (h : t.Plain m) : t.sharedIn m = m.mapped t.root.number := by
  funext v
  unfold PageTable.sharedIn
  cases hm : m.mapped t.root.number v with
  | none => rfl
  | some e =>
    obtain ⟨c, perm, hc, rfl⟩ := h.leaf hm
    rw [Option.map_some, Entry.shared_link hc]

namespace Making

variable {u : Surroundings n} {B : Nat → UInt8}

/-- The copy of a plain page table maps below the user region what that does. -/
theorem mapped_copy (hp : kernel.Plain m)
    (h : Making u t.root.number (kernel.sharedIn m) (fun _ => none) B g f) (v : Nat) :
    f.memory.mapped t.root.number v =
      if v < userFirst then m.mapped kernel.root.number v else none := by
  split
  · next hv => rw [h.low hv, hp.sharedIn]
  · next hv => exact (h.absent (Nat.not_lt.mp hv) rfl).1

theorem leaves_copy (hp : kernel.Plain m)
    (h : Making u t.root.number (kernel.sharedIn m) (fun _ => none) B g f) :
    t.leaves f.memory = kernel.lowLeaves m := by
  refine List.Pairwise.eq_of_mem_iff (r := fun a b => a.1 < b.1)
    (Memory.leavesBelow_sorted ..) (kernel.lowLeaves_sorted m) fun ⟨v, e⟩ => ?_
  rw [PageTable.mem_leaves, PageTable.mem_lowLeaves, h.mapped_copy hp]
  split
  · next hv => exact (and_iff_left hv).symm
  · next hv => exact iff_of_false nofun fun he => hv he.2

end Making

/-! ### What the copy takes -/

namespace Frames.Consistent

theorem leftAlone [Addressable n] (h : f.Consistent ts handles) (h' : f'.Consistent ts' handles')
    (hsub : ∀ t ∈ ts, t ∈ ts')
    (hb : ∀ a, f.count (a / pageSize) ≠ 0 → f'.memory.byte a = f.memory.byte a) :
    f.LeftAlone ts f' := by
  refine ⟨hb, fun t ht va => ?_⟩
  have hsame := h.sameSpace_of_in_use hb ht
  exact hsame.walk h.fits h'.fits (h.isRoot ht) (h'.isRoot (hsub t ht)) va

section
variable {B : Nat → UInt8} (h : f.Consistent ts handles) (hk : kernel ∈ ts)
  (hp : kernel.Plain f.memory)
  (hmade : Making h.surroundings t.root.number (kernel.sharedIn f.memory) (fun _ => none) B g f')
  (hkept : Kept (· ≠ t.root.number) (fun _ => none) f g f')
include h hmade

include hkept in
theorem isFree_of_copy {q : Nat} (hq : q ∈ f'.memory.tablesBelow 3 t.root.number) :
    f.isFree q = true := by
  obtain ⟨l, i, hq⟩ := (hmade.accounted.fits.mem_tables hmade.isRoot).mp hq
  refine (f.isFree_iff q).mpr ⟨(hkept.high hq).resolve_left nofun,
    hmade.accounted.fits.installed hq, ?_⟩
  by_contra hused
  have hnone := (hmade.accounted.handle q (h.mem_held_iff.mpr hused)).2
  cases hnone.symm.trans hq

include hp in
/-- Each table is one reference to its page, and each leaf one to the page that is shared. -/
theorem count_copy (q : Nat) : f'.count q = f.count q +
    (kernel.lowLeaves f.memory).countP (fun p => p.2.addr.pageNumber = q) +
      (f'.memory.tablesBelow 3 t.root.number).count q := by
  have hheld : f.count q = h.surroundings.held.count q := h.count_eq_held q
  rw [hmade.count_eq, PageTable.count_references, hmade.leaves_copy hp, hheld]
  omega

include hk hp hkept in
theorem freePages_copy : f.freePages =
    f'.freePages + (f'.memory.tablesBelow 3 t.root.number).length := by
  refine Frames.freePages_taken (hmade.accounted.fits.nodup_tablesBelow hmade.isRoot)
    (fun q hq => h.isFree_of_copy hmade hkept hq) (fun q hq => ?_) fun q hq => ?_
  · have hpos := List.count_pos_iff.mpr hq
    rw [h.count_copy hp hmade]
    omega
  · -- only pages in use are shared
    have hshared : f.count q = 0 →
        (kernel.lowLeaves f.memory).countP (fun p => p.2.addr.pageNumber = q) = 0 := by
      refine fun hzero => List.countP_eq_zero.mpr fun leaf hleaf hpage => ?_
      have hheld := h.mem_held_of_leaf hk (List.mem_filter.mp hleaf).1
      rw [of_decide_eq_true hpage] at hheld
      exact h.mem_held_iff.mp hheld hzero
    rw [h.count_copy hp hmade, List.count_eq_zero.mpr hq]
    omega

end

section
variable [Addressable n] {B : Nat → UInt8} (h : f.Consistent ts handles) (hk : kernel ∈ ts)
  (hp : kernel.Plain f.memory)
  (hmade : Making h.surroundings t.root.number (kernel.sharedIn f.memory) (fun _ => none) B g f')
include h hk hp hmade

theorem walk_copy {va : VirtAddr} (hva : va.Canonical) : t.walk f'.memory va =
    if va.toNat < procStart then kernel.walk f.memory va else .ok none := by
  rw [hmade.accounted.fits.walk_eq t va hmade.isRoot, hmade.mapped_copy hp,
    h.fits.walk_eq kernel va (h.isRoot hk)]
  simp only [VirtAddr.page_lt_userFirst hva]
  split <;> rfl

/-- The copy mirrors the kernel's page table if that lets the user write the console. -/
theorem audit_copy {e : Entry}
    (he : kernel.walk f.memory ⟨UInt64.ofNat consoleAddr⟩ = .ok (some e))
    (hw : e.flags.userWritable = true) : checkTable f'.memory kernel t = .ok () := by
  have h' : f'.Consistent (t :: ts) handles := h.made hk hmade
  have hkernel := h'.isRoot (List.mem_cons_of_mem t hk)
  have ht := h'.isRoot (List.mem_cons_self (a := t) (l := ts))
  have htrees := h'.fits.toTrees
  have hsame := (h.sameSpace hmade.byte hk).mapped
  rw [h.fits.walk_eq kernel _ (h.isRoot hk), VirtAddr.page_console] at he
  rw [checkTable_ok_iff (htrees.listingInside hkernel 0 procStart)
    (htrees.listingInside ht 0 procStart), htrees.pa_pageNumber kernel hkernel,
    htrees.pa_pageNumber t ht]
  refine ⟨fun v hv _ => ?_, ?_, e, ?_, hw⟩
  · rw [hmade.mapped_copy hp, if_pos hv, hsame]
  · rw [hmade.mapped_copy hp, if_pos (by decide), hp.null]
  · rw [hmade.mapped_copy hp, if_pos (by decide)]
    exact Except.ok.inj he

/-- **What has been made is a copy.** -/
theorem kernelCopy (hkept : Kept (· ≠ t.root.number) (fun _ => none) f g f')
    (hfree : f.freePages = f'.freePages + tablesFor (kernel.lowLeaves f.memory)) :
    KernelCopy ts handles kernel ((kernel.lowLeaves f.memory).map mappingOf) t f f' where
  mappings := by
    rw [hmade.accounted.fits.mappings_eq hmade.isRoot le_rfl, hmade.leaves_copy hp,
      List.filter_eq_self.mpr]
    rintro ⟨v, e⟩ hp
    have hv := (PageTable.mem_lowLeaves.mp hp).2
    rw [userFirst_eq] at hv
    unfold pageMeets pageSize
    simp only [Bool.and_eq_true, decide_eq_true_eq]
    omega
  walk _ hva := h.walk_copy hk hp hmade hva
  tables := by
    refine ⟨_, hmade.accounted.fits.tableNumbers_eq hmade.isRoot,
      hmade.accounted.fits.nodup_tablesBelow hmade.isRoot, ?_,
      fun q hq => h.isFree_of_copy hmade hkept hq, fun q => ?_⟩
    · have htaken := h.freePages_copy hk hp hmade hkept
      rw [tablesFor_map]
      omega
    · rw [mappingsTo_map]
      exact h.count_copy hp hmade q
  consistent := h.made hk hmade
  audit hconsole := by
    obtain ⟨e, he, hw⟩ := hconsole
    exact h.audit_copy hk hp hmade he hw

end

section
variable [Addressable n]

/-- **Copying the mappings of a plain page table** ends in a copy or leaves everything as it is. -/
theorem copyOutcome_ends (h : f.Consistent ts handles) (hk : kernel ∈ ts)
    (hp : kernel.Plain f.memory) (hmax : ∀ q, maxCount < f.count q +
      mappingsTo ((kernel.lowLeaves f.memory).map mappingOf) q → E .overflow) :
    Ends (sharingKernel kernel) f
      (CopyOutcome ts handles kernel ((kernel.lowLeaves f.memory).map mappingOf) f) E := by
  simp only [mappingsTo_map] at hmax
  refine (h.sharingKernel_ends hk hmax).imp ?_
  rintro (cause | t) f' hend
  · obtain ⟨huse, hcause⟩ := hend
    obtain ⟨rfl, hlack⟩ := hcause hp.null
    have h' : f'.Consistent ts handles := h.sameUse huse
    rw [← tablesFor_map] at hlack
    refine ⟨h.leftAlone h' (fun _ ht => ht) huse.byte, iff_of_true rfl hlack, nofun, ?_⟩
    rintro _ ⟨⟩
    exact ⟨rfl, huse.count, h'⟩
  · obtain ⟨⟨g, hmade, hkept⟩, hfree⟩ := hend
    have hcopy := h.kernelCopy hk hp hmade hkept hfree
    refine ⟨?_, iff_of_false nofun ?_, ?_, nofun⟩
    · exact h.leftAlone hcopy.consistent (fun _ ht => List.mem_cons_of_mem _ ht) fun a ha =>
        hmade.byte a (h.mem_held_iff.mpr ha)
    · rw [tablesFor_map]
      omega
    · rintro _ ⟨⟩
      exact hcopy

/-- **Copying the kernel's mappings is exact or undone.** In consistent frames, and with a page
table of the kernel that its own calls have made, let no count overflow when each page gets one more
reference for each mapping to it. Then the copy has just the mappings of the kernel below the user
region; or there are too few free pages for its tables, and everything in use is as it was. The
kernel halts only where a count does overflow. -/
theorem sharingKernel_exact (h : f.Consistent ts handles) (hk : kernel ∈ ts)
    (hbuilt : kernel.Built f) :
    ∃ low, kernel.mappings f.memory 0 procStart = .ok low ∧
      ((∀ q, f.count q + mappingsTo low q ≤ maxCount) → ∃ answer f',
        sharingKernel kernel f = .ok answer f' ∧ CopyOutcome ts handles kernel low f answer f') ∧
      ∀ e f', sharingKernel kernel f = .error e f' →
        e = .overflow ∧ ∃ q, maxCount < f.count q + mappingsTo low q := by
  refine ⟨_, h.fits.mappings_eq (h.isRoot hk) (by decide), ?_⟩
  have hends : Ends (sharingKernel kernel) f _ fun e => e = .overflow ∧ ∃ q,
      maxCount < f.count q + mappingsTo ((kernel.lowLeaves f.memory).map mappingOf) q :=
    h.copyOutcome_ends hk hbuilt.plain fun q hq => ⟨rfl, q, hq⟩
  rcases hends.ok_or_halt with ⟨answer, f', hok, hout⟩ | ⟨_, f', hhalt, rfl, q, hq⟩
  · refine ⟨fun _ => ⟨answer, f', hok, hout⟩, fun e f'' herror => ?_⟩
    cases hok.symm.trans herror
  · refine ⟨fun hmax => absurd hq (Nat.not_lt.mpr (hmax q)), fun e f'' herror => ?_⟩
    cases hhalt.symm.trans herror
    exact ⟨rfl, q, hq⟩

/-- The copying halts at the first page that it shares if that has all the references there can be.
-/
theorem sharingKernel_full (h : f.Consistent ts handles) (hk : kernel ∈ ts)
    {leaf : Nat × Entry} {rest : List (Nat × Entry)}
    (hlow : kernel.lowLeaves f.memory = leaf :: rest)
    (hfull : f.count leaf.2.addr.pageNumber = maxCount) (hfree : 0 < f.freePages) :
    ∃ f', sharingKernel kernel f = .error .overflow f' := by
  have hends : Ends (sharingKernel kernel) f (fun _ _ => False) (· = .overflow) := by
    unfold sharingKernel
    refine .bind (PageTable.new?_ends h.alone) ?_
    rintro (_ | t) f1 h1
    · exact absurd h1.2 hfree.ne'
    obtain ⟨⟨g1, ha1, hm1, hg1⟩, -, -⟩ := h1
    have h1 : Making h.surroundings t.root.number (fun _ => none) (fun _ => none) (fun _ => 0)
        g1 f1 := .of_new h.alone rfl ha1 hm1 hg1
    have hheld := h.mem_held_of_leaf hk (List.mem_filter.mp (hlow ▸ List.mem_cons_self)).1
    have hsame := hg1.count _ (h.mem_held_iff.mp hheld)
    refine .step (Frames.read_ok (h.mappings_making hk h1)) ?_
    rw [hlow]
    refine .bind (P := fun _ _ => False) ?_ fun _ _ hno => hno.elim
    refine .bind (P := fun _ _ => False) ?_ fun _ _ hno => hno.elim
    exact .of_error (Frames.share_full (hsame.trans hfull)) rfl
  obtain ⟨_, _, _, hno⟩ | ⟨_, f', herror, rfl⟩ := hends.ok_or_halt
  · exact hno.elim
  · exact ⟨f', herror⟩

end

theorem share_times (h : f.Consistent ts handles) {c : Nat} (hc : c < n) (k : Nat) :
    (f.setCount c (f.count c + k) hc).Consistent ts (List.replicate k ⟨c⟩ ++ handles) := by
  refine h.of_sameSpace (fun _ ht => ht) h.nodup
    (fun _ => h.sameSpace_of_in_use fun _ _ => rfl) fun q => ?_
  rw [f.count_setCount, List.map_append, List.map_replicate, List.count_append,
    List.count_replicate]
  have hcount := h.count q
  by_cases hq : q = c
  · subst hq
    rw [if_pos rfl, if_pos (beq_self_eq_true q)]
    omega
  · rw [if_neg hq, if_neg (by simpa using Ne.symm hq)]
    omega

end Frames.Consistent

/-! ### A kernel that maps the console -/

/-- A page table that a call has made, which lets the user write page number `c` at the console. -/
structure ConsoleMapped (f : Frames physicalPages) (t : PageTable) (c : Nat) : Prop where
  built : t.Built f
  consistent : f.Consistent [t] []
  lt : c < physicalPages
  mapped : f.memory.mapped t.root.number = Function.update (fun _ => none) consolePage
    (some (.link (pageAt c) Permission.userData.toFlags))

namespace ConsoleMapped

variable {f : Frames physicalPages} {t : PageTable} {c : Nat}

theorem exists_mapped : ∃ f t c, ConsoleMapped f t c ∧ levels ≤ f.freePages := by
  have hfresh := Frames.freePages_fresh
  obtain ⟨t, c, g₁, f₁, f₂, hnew, hacc₁, hmap₁, -, -, ho, hfree₂⟩ :=
    PageTable.exists_new_page (accounted_fresh physicalPages) (by omega)
  have hall : PageTable.AllOf g₁ [t] := .single hmap₁.kept hmap₁.isRoot
  have hsingle : {t' | t' ∈ [t]} = ({t} : Set PageTable) := Set.ext fun _ => List.mem_singleton
  have hplanted : PlantedAt {t} g₁ f₁ := hsingle ▸ hall.plantedAt hacc₁
  have hsame := hplanted.holdsTable ▸ hacc₁.planted.handedOut ho.toHandedOut
  have hacc₂ := hacc₁.handedOut ho.toHandedOut
  have hplanted₂ : PlantedAt {t} g₁ f₂ := hsingle ▸ hall.plantedAt hacc₂
  -- the page that was handed out is mapped at the console
  have hcanonical : (VirtAddr.ofPage consolePage).Canonical :=
    VirtAddr.canonical_iff.mpr (.inl (by decide))
  have hcall : PageTable.Call.Permitted (.replace (.ofPage consolePage) ⟨c⟩ .userData) {t} f₂ := by
    refine ⟨hcanonical, ?_⟩
    rintro _ ⟨⟩
    refine ⟨hacc₂.count_handle List.mem_cons_self, ?_⟩
    rw [hplanted₂.holdsTable]
    exact not_not.mpr (hacc₂.handle c List.mem_cons_self).2
  have hinstall : Ends (PageTable.Call.perform t (.replace (.ofPage consolePage) ⟨c⟩ .userData)) f₂
      _ fun _ => False :=
    PageTable.install_ends (VirtAddr.ofPage consolePage) hacc₂ hmap₁.isRoot
  obtain ⟨answer, f₃, hperform, h₃⟩ := hinstall.ok
  have hreach := Shape.Trees.reach_le f₂.memory consolePage 3 t.root.number
  have hlevels : levels = 4 := rfl
  cases answer with
  | error cause =>
    have hlack := (PageTable.refused_ofPage (by decide) (by decide) h₃.2.2.2).2
    omega
  | ok old =>
    obtain ⟨⟨g₃, hacc₃, hmap₃, -⟩, hold, -, -, hfree₃⟩ := h₃
    have hkept : Kept (fun _ => True) g₁ f₁ g₁ f₂ := .of_in_use hacc₁ ho.byte_in_use
    rw [VirtAddr.page_ofPage (by decide), hkept.mapped trivial hmap₁.isRoot,
      hmap₁.mapped] at hold hmap₃
    rw [VirtAddr.page_ofPage (by decide)] at hfree₃
    subst hold
    exact ⟨f₃, t, c, ⟨.call (.other (.new hnew) hsame) hcall hperform,
      hacc₃.consistent (hall.congr (hmap₃.isRoot_iff hmap₁.isRoot)), ho.lt, hmap₃.mapped⟩,
      by omega⟩

theorem leaves (h : ConsoleMapped f t c) :
    t.leaves f.memory = [(consolePage, .link (pageAt c) Permission.userData.toFlags)] := by
  refine List.Pairwise.eq_of_mem_iff (r := fun a b => a.1 < b.1)
    (Memory.leavesBelow_sorted ..) (List.pairwise_singleton ..) fun ⟨v, e⟩ => ?_
  rw [PageTable.mem_leaves, h.mapped, List.mem_singleton, Prod.mk.injEq]
  by_cases hv : v = consolePage
  · rw [hv, Function.update_self, Option.some.injEq]
    exact ⟨fun he => ⟨rfl, he.symm⟩, fun he => he.2.symm⟩
  · rw [Function.update_of_ne hv]
    exact iff_of_false nofun fun he => hv he.1

theorem lt_width (h : ConsoleMapped f t c) : c < 2 ^ 40 :=
  lt_of_lt_of_le h.lt (by decide)

theorem pageNumber (h : ConsoleMapped f t c) :
    (Entry.link (pageAt c) Permission.userData.toFlags).addr.pageNumber = c :=
  Entry.pageNumber_link h.lt_width _

theorem mem_leaves (h : ConsoleMapped f t c) :
    (consolePage, Entry.link (pageAt c) Permission.userData.toFlags) ∈ t.leaves f.memory := by
  rw [h.leaves]
  exact List.mem_singleton_self _

theorem count_ne_zero (h : ConsoleMapped f t c) : f.count c ≠ 0 := by
  have hheld := h.consistent.mem_held_of_leaf (List.mem_singleton_self t) h.mem_leaves
  rw [h.pageNumber] at hheld
  exact h.consistent.mem_held_iff.mp hheld

theorem not_table (h : ConsoleMapped f t c) : ¬ f.memory.HoldsTable {t} c := by
  have hnone := h.consistent.leaf t (List.mem_singleton_self t) _ h.mem_leaves
  rwa [h.pageNumber, show {t' | t' ∈ [t]} = {t} from Set.ext fun _ => List.mem_singleton] at hnone

theorem lowLeaves (h : ConsoleMapped f t c) :
    t.lowLeaves f.memory = [(consolePage, .link (pageAt c) Permission.userData.toFlags)] := by
  have hlow : consolePage < userFirst := by
    rw [userFirst_eq]
    decide
  unfold PageTable.lowLeaves
  rw [h.leaves, List.filter_eq_self]
  intro p hp
  rw [List.mem_singleton.mp hp]
  exact pageMeets_procStart.mpr hlow

theorem count_le (h : ConsoleMapped f t c) (q : Nat) : f.count q ≤ 2 := by
  have hnodup := h.consistent.fits.nodup_tablesBelow (h.consistent.isRoot List.mem_cons_self)
  have htables := List.nodup_iff_count_le_one.mp hnodup q
  have hone : (t.leaves f.memory).length = 1 := congrArg List.length h.leaves
  have hleaves := (List.countP_le_length (p := fun leaf : Nat × Entry =>
    leaf.2.addr.pageNumber = q)).trans hone.le
  rw [h.consistent.count q, List.flatMap_singleton, PageTable.count_references, List.map_nil,
    List.count_nil]
  omega

theorem length_le (h : ConsoleMapped f t c) {low : List Mapping}
    (hlow : t.mappings f.memory 0 procStart = .ok low) : low.length ≤ 1 := by
  rw [h.consistent.fits.mappings_eq (h.consistent.isRoot List.mem_cons_self) (by decide),
    Except.ok.injEq] at hlow
  rw [← hlow]
  exact (congrArg List.length (congrArg (List.map mappingOf) h.lowLeaves)).le

theorem walk_console (h : ConsoleMapped f t c) :
    t.walk f.memory ⟨UInt64.ofNat consoleAddr⟩ =
      .ok (some (.link (pageAt c) Permission.userData.toFlags)) := by
  rw [h.consistent.fits.walk_eq t _ (h.consistent.isRoot List.mem_cons_self),
    VirtAddr.page_console, h.mapped, Function.update_self]

/-- No count overflows when the page at the console is shared. -/
theorem fits_count (h : ConsoleMapped f t c) {low : List Mapping}
    (hlow : t.mappings f.memory 0 procStart = .ok low) (q : Nat) :
    f.count q + mappingsTo low q ≤ maxCount := by
  have hcount := h.count_le q
  have hmappings : mappingsTo low q ≤ 1 := List.countP_le_length.trans (h.length_le hlow)
  have hmax : maxCount = 2 ^ 32 - 1 := rfl
  omega

end ConsoleMapped

theorem Frames.Consistent.sharingKernel_exact_console :
    ∃ (kernel t : PageTable) (f f' : Frames physicalPages) (low : List Mapping),
    f.Consistent [kernel] [] ∧ kernel.Built f ∧ kernel.mappings f.memory 0 procStart = .ok low ∧
    (∀ q, f.count q + mappingsTo low q ≤ maxCount) ∧ sharingKernel kernel f = .ok (.ok t) f' ∧
    KernelCopy [kernel] [] kernel low t f f' ∧ checkTable f'.memory kernel t = .ok () := by
  obtain ⟨f, kernel, c, h, hfree⟩ := ConsoleMapped.exists_mapped
  obtain ⟨low, hlow, hend, -⟩ :=
    h.consistent.sharingKernel_exact (List.mem_singleton_self _) h.built
  have htables : tablesFor low ≤ levels := by
    unfold tablesFor levels
    split <;> decide
  have hmax := h.fits_count hlow
  obtain ⟨answer, f', hok, hout⟩ := hend hmax
  cases answer with
  | error cause =>
    obtain ⟨rfl, -⟩ := hout.undone cause rfl
    have hlack := hout.refused.mp rfl
    omega
  | ok t =>
    have hcopy := hout.copy t rfl
    have hwritable : (Entry.link (pageAt c) Permission.userData.toFlags).flags.userWritable =
        true := by
      rw [Entry.flags_link h.lt_width]
      rfl
    exact ⟨kernel, t, f, f', low, h.consistent, h.built, hlow, hmax, hok, hcopy,
      hcopy.audit ⟨_, h.walk_console, hwritable⟩⟩

/-- Where all the references that there can be to the page of the console are taken, the copying
halts. -/
theorem Frames.Consistent.sharingKernel_overflows :
    ∃ (kernel : PageTable) (f f' : Frames physicalPages) (handles : List FrameRef),
    f.Consistent [kernel] handles ∧ kernel.Built f ∧ (∀ q, f.count q ≤ maxCount) ∧
    levels ≤ f.freePages ∧ sharingKernel kernel f = .error .overflow f' := by
  obtain ⟨f, kernel, c, h, hfree⟩ := ConsoleMapped.exists_mapped
  have hmax : maxCount = 2 ^ 32 - 1 := rfl
  have hle := h.count_le
  have hadd : f.count c + (maxCount - f.count c) = maxCount := Nat.add_sub_of_le (by
    have hc := hle c
    omega)
  have hconsistent := h.consistent.share_times h.lt (maxCount - f.count c)
  rw [hadd] at hconsistent
  have hcount := f.count_setCount (c := maxCount) h.lt
  have hbuilt : kernel.Built (f.setCount c maxCount h.lt) := by
    refine .other h.built ⟨fun q hq => ?_, fun _ _ => rfl⟩
    rw [hcount, if_neg]
    rintro rfl
    exact h.not_table hq
  have hfree' : levels ≤ (f.setCount c maxCount h.lt).freePages := by
    rwa [f.freePages_eq_setCount h.lt h.count_ne_zero (by decide)]
  have hfull : (f.setCount c maxCount h.lt).count c = maxCount := by rw [hcount, if_pos rfl]
  obtain ⟨f', herror⟩ := hconsistent.sharingKernel_full List.mem_cons_self h.lowLeaves
    ((congrArg _ h.pageNumber).trans hfull) (Nat.lt_of_lt_of_le (by decide) hfree')
  refine ⟨kernel, _, f', _, hconsistent, hbuilt, fun q => ?_, hfree', herror⟩
  have hq := hle q
  rw [hcount]
  split <;> omega

end PagedKernel
