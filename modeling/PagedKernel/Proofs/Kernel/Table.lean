import PagedKernel.Kernel.Basic
import PagedKernel.Proofs.Process.Sharing

/-!
# The kernel's page table

The kernel maps the pages below the user region one after the other, each at its own address and
each claimed just before. It takes three tables for the first of them, and none after that, so it
does not run out of memory. What it leaves behind is the space that `Spaces` asks of the kernel.

Key definition: `Starting`.
Key theorems: `mapReserved_ends`, `buildKernelTable_ends`.
-/

namespace PagedKernel

/-! ### Mapping the kernel -/

variable {n : Nat} {g : Shape} {f : Frames n} {held : List Nat} {E : Halt → Prop}

/-- The space with root `t` is the only one, and it maps the pages of the kernel before number `j`.
-/
structure Starting (t : Nat) (j : Nat) (g : Shape) (f : Frames n) : Prop where
  accounted : Accounted g [] f
  linked : g.Linked f.memory
  high : ∀ {q p}, g q = some p → Allocatable q
  isRoot : g.IsRoot t
  only : ∀ {r}, g.IsRoot r → r = t
  mapped : f.memory.mapped t = fun v => if v < j then kernelLeaf v else none

namespace Starting

variable {t j : Nat}

theorem count_zero (h : Starting t j g f) (hj : j < userFirst) (hn : userFirst ≤ n) :
    f.count j = 0 := by
  have hfits := h.accounted.fits
  have hg : g j = none := by
    cases hg : g j with
    | none => rfl
    | some p =>
      have hhigh := allocatable_iff.mp (h.high hg)
      rw [userFirst_eq] at hj
      omega
  have hu : g.Unmapped f.memory j := by
    intro q r i s hq hs hp
    have hm := hfits.mapped_of_slot hq hs (Entry.present_of_page? hp)
    obtain rfl := h.only (hfits.isRoot hq)
    rw [h.mapped] at hm
    dsimp only at hm
    split at hm
    · next hlt =>
      obtain ⟨-, hv, he, -⟩ := LeafAllowed.of_kernelLeaf hm
      rw [userFirst_eq] at hv
      rw [he, Entry.page?_link (by omega) rfl, Option.some.injEq] at hp
      omega
    · cases hm
  rw [h.accounted.count j (by omega), hg, hu.leafRefs]
  rfl

theorem mapped_eq (h : Starting t userFirst g f) : f.memory.mapped t = kernelLeaf := by
  rw [h.mapped]
  funext v
  unfold kernelLeaf
  split
  · rfl
  · next hv => exact (if_neg fun hc => hv hc.2).symm

/-- Once all pages of the kernel are mapped, its space is as it has to be. -/
theorem spaces (h : Starting t userFirst g f) : Spaces t (fun _ => True) g f.memory where
  linked := h.linked
  high := h.high
  kernelRoot := h.isRoot
  kernelMapped := h.mapped_eq
  leaf hr hmaps := absurd (h.only hmaps.1) hr
  complete _ hr hrk := absurd (h.only hr) hrk
  trim hrk hr := absurd (h.only hr) hrk
  isPrivate := by
    intro r v e r' v' e' hmaps hmaps' _ _ ha _
    obtain rfl := h.only hmaps.1
    obtain rfl := h.only hmaps'.1
    have hm := hmaps.2
    have hm' := hmaps'.2
    rw [h.mapped_eq] at hm hm'
    obtain ⟨-, hv, rfl, -⟩ := LeafAllowed.of_kernelLeaf hm
    obtain ⟨-, hv', rfl, -⟩ := LeafAllowed.of_kernelLeaf hm'
    rw [userFirst_eq] at hv hv'
    rw [Entry.addr_link (by omega), Entry.addr_link (by omega)] at ha
    exact ⟨rfl, pageAt_injective (by omega) (by omega) ha⟩

theorem next {g' : Shape} {f' : Frames n} (h : Starting t j g f) (hacc : Accounted g' [] f')
    (hm : Remapped t (Function.update (f.memory.mapped t) j (kernelLeaf j)) g f g' f') :
    Starting t (j + 1) g' f' := by
  have hk := hm.kept
  refine ⟨hacc, hk.linked h.linked, hk.tables_high h.high, hm.isRoot, fun {r} hr => ?_, ?_⟩
  · by_contra hne
    exact hne (h.only ((hk.isRoot hne).mp hr))
  · funext v
    rw [hm.mapped, h.mapped]
    by_cases hv : v = j
    · rw [hv, Function.update_self, if_pos (Nat.lt_succ_self j)]
    · rw [Function.update_of_ne hv]
      exact if_congr (by omega) rfl rfl

end Starting

/-- A page of the kernel is mapped. The leaf table is there afterwards, so no page is needed for a
table any more. -/
theorem mapKernelPage_ends {t : PageTable} {j : Nat} {f : Frames physicalPages}
    (h : Starting t.root.number j g f) (hj : 1 ≤ j) (hjlt : j < userFirst)
    (hcn : j < physicalPages) (hfree : (f.memory.reach 0 3 t.root.number).2 ≤ f.freePages) :
    Ends (t.map (.ofPage j) ⟨j⟩ (kernelPermission j)) (f.setCount j 1 hcn) (fun res f' =>
      res = .ok () ∧ (∃ g', Starting t.root.number (j + 1) g' f') ∧
      (f'.memory.reach 0 3 t.root.number).2 = 0 ∧
      f.freePages = f'.freePages + (f.memory.reach 0 3 t.root.number).2) E := by
  have hjlt' := hjlt
  rw [userFirst_eq] at hjlt'
  have hva : (VirtAddr.ofPage j).page = j := VirtAddr.page_ofPage (by omega)
  have hleaf : kernelLeaf j = some (.link (pageAt j) (kernelPermission j).toFlags) :=
    if_pos ⟨hj, hjlt⟩
  have hlow : j * pageSize < allocatableStart := by
    unfold allocatableStart pageSize
    omega
  have h1 := h.accounted.claim hcn (h.count_zero hjlt (by decide))
  have hfree1 : (f.setCount j 1 hcn).freePages = f.freePages := f.freePages_claim hcn hlow
  generalize hf1 : f.setCount j 1 hcn = f1 at h1 hfree1 ⊢
  have hmem1 : f1.memory = f.memory := by rw [← hf1, Frames.memory_setCount]
  have hk1 : Kept (· ≠ t.root.number) g f g f1 := .of_memory_eq h.accounted.fits hmem1
  have hblock : j / 512 = 0 / 512 := by omega
  have hreach : (f1.memory.reach j 3 t.root.number).2 = (f.memory.reach 0 3 t.root.number).2 := by
    rw [hmem1, Shape.Trees.reach_congr hblock]
  refine (PageTable.map_ends h1 h.isRoot).imp ?_
  rw [hva]
  intro res f2 h2
  rcases res with cause | _
  · obtain ⟨-, -, hfree2, hrefused⟩ := h2
    split at hrefused
    · rw [hmem1, h.mapped] at hrefused
      exact absurd (if_neg (Nat.lt_irrefl j)) hrefused
    · have hlt := (PageTable.refused_ofPage hj (by omega) hrefused).2
      omega
  · obtain ⟨⟨g2, h2, hm2, -⟩, -, hfree2⟩ := h2
    rw [← hleaf, hmem1] at hm2
    have hself : f2.memory.mapped t.root.number j =
        some (.link (pageAt j) (kernelPermission j).toFlags) := by
      rw [hm2.mapped, Function.update_self, hleaf]
    refine ⟨rfl, ⟨g2, h.next h2 (.of_kept hk1 hm2)⟩, ?_, by omega⟩
    rw [Shape.Trees.reach_congr hblock.symm]
    exact h2.fits.reach_of_mapped hm2.isRoot hself

theorem mapReserved_ends {t : PageTable} : ∀ (k j : Nat) {g : Shape} {f : Frames physicalPages},
    Starting t.root.number j g f → 1 ≤ j → j + k = userFirst →
    (f.memory.reach 0 3 t.root.number).2 ≤ f.freePages →
    Ends (mapReserved t (j * pageSize) k) f (fun _ f' =>
      (∃ g', Starting t.root.number userFirst g' f') ∧
      f.freePages ≤ f'.freePages + (f.memory.reach 0 3 t.root.number).2) E
  | 0, j, g, f, h, _, hjk, _ => by
    obtain rfl : j = userFirst := hjk
    exact .pure ⟨⟨g, h⟩, Nat.le_add_right _ _⟩
  | k + 1, j, g, f, h, hj, hjk, hfree => by
    have hjlt : j < userFirst := by omega
    have hjlt' := hjlt
    rw [userFirst_eq] at hjlt'
    have hcn : j < physicalPages := by
      unfold physicalPages physicalSize pageSize
      omega
    have hperm : (if j * pageSize = consoleAddr then Permission.userData else .kernel) =
        kernelPermission j := by
      unfold kernelPermission
      refine if_congr ?_ rfl rfl
      rw [consolePage_eq]
      unfold consoleAddr pageSize
      omega
    have hlow : j * pageSize < allocatableStart := by
      unfold allocatableStart pageSize
      omega
    rw [mapReserved]
    refine .bind (P := fun page f1 => page = ⟨j⟩ ∧ f1 = f.setCount j 1 hcn) ?_ ?_
    · rw [ofNat_eq_pageAt]
      exact .claim hcn hlow (h.count_zero hjlt (by decide)) ⟨rfl, rfl⟩
    rintro _ _ ⟨rfl, rfl⟩
    rw [hperm]
    refine .bind (mapKernelPage_ends h hj hjlt hcn hfree) ?_
    rintro _ f2 ⟨rfl, ⟨g2, h2⟩, hzero, hfree2⟩
    dsimp only
    rw [← Nat.succ_mul]
    refine (mapReserved_ends k (j + 1) h2 (by omega) (by omega) (by omega)).imp ?_
    intro _ f3 hpost
    obtain ⟨h3, hfree3⟩ := hpost
    exact ⟨h3, by omega⟩

/-- **The kernel's page table** is made out of four pages. -/
theorem buildKernelTable_ends :
    Ends buildKernelTable (Frames.fresh physicalPages) (fun t f => (∃ g, Accounted g [] f ∧
      Spaces t.root.number (fun _ => True) g f.memory ∧ ∀ {r}, g.IsRoot r → r = t.root.number) ∧
      252 ≤ f.freePages) E := by
  unfold buildKernelTable
  refine .bind (PageTable.new?_ends (accounted_fresh _)) ?_
  have hfresh := Frames.freePages_fresh
  intro res f1 h1
  rcases res with _ | t
  · rw [h1.2] at hfresh
    cases hfresh
  obtain ⟨⟨g1, h1, hm1, -⟩, -, hfree1⟩ := h1
  have hstart : Starting t.root.number 1 g1 f1 := by
    refine ⟨h1, hm1.kept.linked nofun, hm1.kept.tables_high nofun, hm1.isRoot, fun {r} hr => ?_, ?_⟩
    · by_contra hne
      exact nomatch (hm1.kept.isRoot hne).mp hr
    · funext v
      rw [hm1.mapped]
      split
      · next hv => exact (if_neg (by omega)).symm
      · rfl
  have hreach := Shape.Trees.reach_le f1.memory 0 3 t.root.number
  rw [show procStart / pageSize - 1 = 0xff from rfl, show pageSize = 1 * pageSize from rfl]
  refine .bind (mapReserved_ends 0xff 1 hstart le_rfl rfl (by omega)) ?_
  intro _ f2 hpost
  obtain ⟨⟨g2, h2⟩, hfree2⟩ := hpost
  exact .pure ⟨⟨g2, h2.accounted, h2.spaces, h2.only⟩, by omega⟩

end PagedKernel
