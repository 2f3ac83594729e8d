import PagedKernel.Process.Load
import PagedKernel.Proofs.Process.Spaces

/-!
# Sharing the kernel

A new process maps the pages of the kernel as the kernel does, each with one more reference. There
is only one leaf table for all of them, so four free pages are enough; if there are fewer, what was
made is destroyed and no space has changed.

Key theorems: `shareMappings_ends`, `sharingKernel_ends`.
-/

namespace PagedKernel

variable {n : Nat} {g : Shape} {f : Frames n} {held : List Nat} {E : Halt → Prop}

theorem LeafAllowed.of_kernelLeaf {v : Nat} {e : Entry} (h : kernelLeaf v = some e) :
    1 ≤ v ∧ v < userFirst ∧ e = .link (pageAt v) (kernelPermission v).toFlags ∧
      LeafAllowed v e := by
  unfold kernelLeaf at h
  split at h
  · next hv =>
    obtain rfl := Option.some.inj h
    have hlt : v < 2 ^ 40 := by
      have := hv.2
      rw [userFirst_eq] at this
      omega
    refine ⟨hv.1, hv.2, rfl, v, kernelPermission v, hlt, rfl, ?_⟩
    unfold kernelPermission
    split
    · next heq =>
      subst heq
      exact .console (.inl rfl)
    · next hne => exact .kernel hv.1 hv.2 hne
  · cases h

/-- A page that is not handed out is no user's to write, but for the console. -/
theorem Spaces.not_writable {kr : Nat} {P : Nat → Prop} {m : Memory n} (hs : Spaces kr P g m)
    {r v c : Nat} {e : Entry} (hm : g.Maps m r v e) (hc : c < userFirst) (hne : c ≠ consolePage)
    (ha : e.addr = pageAt c) : ¬ (e.writable = true ∧ e.user = true) := by
  have hc40 : c < 2 ^ 40 := by
    rw [userFirst_eq] at hc
    omega
  have key : ∀ {v c' perm}, c' < 2 ^ 40 → e = .link (pageAt c') perm.toFlags →
      UserLeaf v c' perm → ¬ (e.writable = true ∧ e.user = true) := by
    rintro v c' perm hlt rfl hleaf ⟨-, hu⟩
    rw [Entry.addr_link hlt] at ha
    obtain rfl := pageAt_injective hlt hc40 ha
    cases hleaf with
    | kernel _ _ _ =>
      rw [Entry.user_link hlt] at hu
      cases hu
    | console hor =>
      rcases hor with heq | halloc
      · exact hne heq
      · rw [allocatable_iff] at halloc
        rw [userFirst_eq] at hc
        omega
    | user _ _ _ halloc =>
      rw [allocatable_iff] at halloc
      rw [userFirst_eq] at hc
      omega
  by_cases hrk : r = kr
  · subst hrk
    have hleaf := hm.2
    rw [hs.kernelMapped] at hleaf
    obtain ⟨-, -, -, c', perm, hlt, he, hleaf⟩ := LeafAllowed.of_kernelLeaf hleaf
    exact key hlt he hleaf
  · obtain ⟨c', perm, hlt, he, hleaf⟩ := hs.leaf hrk hm
    exact key hlt he hleaf

section
variable [Addressable n]

theorem shareMapping_ends {kr v : Nat} {t : PageTable} {e : Entry} (ht : t.root.number ≠ kr)
    (hn : 1 + n * 512 + held.length < maxCount) (h : Accounted g held f)
    (hs : Spaces kr (· ≠ t.root.number) g f.memory) (hr : g.IsRoot t.root.number)
    (hleaf : kernelLeaf v = some e) (hnew : f.memory.mapped t.root.number v = none) :
    Ends (do
        let page ← Frames.share e.addr
        PageTable.install t.pa (.ofPage v) page (.ofFlags e.flags)) f
      (fun res f' => ∃ g', Accounted g' held f' ∧ Spaces kr (· ≠ t.root.number) g' f'.memory ∧
        Kept (· ≠ t.root.number) g f g' f' ∧ g'.IsRoot t.root.number ∧
        match res with
        | .ok _ => f'.memory.mapped t.root.number =
              Function.update (f.memory.mapped t.root.number) v (some e) ∧
            f.freePages ≤ f'.freePages + (f.memory.reach 0 3 t.root.number).2
        | .error _ => f.freePages < (f.memory.reach 0 3 t.root.number).2) E := by
  obtain ⟨hv1, hv2, he, hallowed⟩ := LeafAllowed.of_kernelLeaf hleaf
  have hm : f.memory.mapped kr v = some e := by rw [hs.kernelMapped, hleaf]
  have hlow := hv2
  rw [userFirst_eq] at hlow
  have hv36 : v < 2 ^ 36 := by omega
  have haddr : e.addr = pageAt v := by rw [he, Entry.addr_link (by omega)]
  have hpage : e.addr.pageNumber = v := by rw [haddr, pageAt_pageNumber (by omega)]
  refine .bind (PageTable.share_ends h hn hs.kernelRoot hm) ?_
  intro page f1 hpost
  obtain ⟨rfl, h1, hk1, hmem1, -, hfree1⟩ := hpost
  rw [hpage] at h1 ⊢
  have hs1 := hs.kept hk1
  have hblock : v / 512 = 0 / 512 := by omega
  have hreach : (f1.memory.reach v 3 t.root.number).2 =
      (f.memory.reach 0 3 t.root.number).2 := by
    rw [hmem1, Shape.Trees.reach_congr hblock]
  refine (PageTable.install_ends (.ofPage v) h1 hr).imp ?_
  intro found f2 h2
  rcases found with cause | old
  · obtain ⟨h2, hk2, -, hrefused⟩ := h2
    have hlt := (PageTable.refused_ofPage hv1 hv36 hrefused).2
    have hk := hk1.trans hk2
    refine ⟨g, h2, hs1.kept hk2, hk.mono fun _ _ => trivial, hr, ?_⟩
    dsimp only
    omega
  · obtain ⟨⟨g2, h2, hmap, -⟩, hold, -, -, hfree2⟩ := h2
    rw [VirtAddr.page_ofPage hv36] at hmap hold hfree2
    rw [hmem1, hnew, Option.bind_none] at hold
    subst hold
    rw [he, relink (by omega), ← he] at hmap
    have hprivate : g2.Private f2.memory := by
      refine hs1.isPrivate.install hr hmap fun r' v' e' hmaps _ ha hcons => ?_
      rw [haddr] at ha hcons
      have hne : v ≠ consolePage := fun heq => hcons (heq ▸ rfl)
      exact ⟨hs1.not_writable ⟨hs1.kernelRoot, by rw [hs1.kernelMapped, hleaf]⟩ hv2 hne haddr,
        hs1.not_writable hmaps hv2 hne ha⟩
    refine ⟨g2, h2, hs1.installed hr hmap ht hallowed hprivate,
      (hk1.mono fun _ _ => trivial).trans hmap.kept, hmap.isRoot, ?_, by omega⟩
    rw [hmap.mapped, hmem1]

/-- The pages of `rest` are shared with the space in the making `t`. -/
theorem shareMappings_ends {kr : Nat} {t : PageTable} (hn : 1 + n * 512 + held.length < maxCount) :
    ∀ (rest : List (Nat × Entry)) {g : Shape} {f : Frames n},
    Pending held kr t.root.number rest g f → Spaces kr (· ≠ t.root.number) g f.memory →
    Ends (shareMappings t (rest.map mappingOf)) f (fun res f' => ∃ g', Accounted g' held f' ∧
      Spaces kr (· ≠ t.root.number) g' f'.memory ∧ Kept (· ≠ t.root.number) g f g' f' ∧
      g'.IsRoot t.root.number ∧
      match res with
      | .ok () => f.freePages ≤ f'.freePages + (f.memory.reach 0 3 t.root.number).2 ∧
          (∀ v, (∀ p ∈ rest, p.1 ≠ v) →
            f'.memory.mapped t.root.number v = f.memory.mapped t.root.number v) ∧
          ∀ p ∈ rest, f'.memory.mapped t.root.number p.1 = some p.2
      | .error _ => f.freePages < (f.memory.reach 0 3 t.root.number).2) E
  | [], g, f, h, hs =>
    .pure ⟨g, h.accounted, hs, .refl _ _ _, h.target, Nat.le_add_right _ _, fun _ _ => rfl, nofun⟩
  | (v, e) :: rest, g, f, h, hs => by
    have hleaf : kernelLeaf v = some e := by
      rw [← hs.kernelMapped]
      exact h.mapped _ List.mem_cons_self
    rw [List.map_cons, mappingOf, shareMappings, ← bind_assoc]
    refine .bind (shareMapping_ends (Ne.symm h.ne) hn h.accounted hs h.target hleaf
      (h.fresh _ List.mem_cons_self)) ?_
    intro found f1 hpost
    obtain ⟨g1, h1, hs1, hk1, hr1, hres⟩ := hpost
    rcases found with cause | old
    · exact .pure ⟨g1, h1, hs1, hk1, hr1, hres⟩
    obtain ⟨hmap, hfree1⟩ := hres
    have hother : ∀ w, w ≠ v → f1.memory.mapped t.root.number w =
        f.memory.mapped t.root.number w := fun w hne => by
      rw [hmap, Function.update_of_ne hne]
    have hself : f1.memory.mapped t.root.number v = some e := by rw [hmap, Function.update_self]
    -- the leaf table is there now, so no page is needed any more
    have hzero : (f1.memory.reach 0 3 t.root.number).2 = 0 := by
      have hlow := (LeafAllowed.of_kernelLeaf hleaf).2.1
      rw [userFirst_eq] at hlow
      rw [Shape.Trees.reach_congr (show 0 / 512 = v / 512 by omega)]
      exact h1.fits.reach_of_mapped hr1 hself
    refine (shareMappings_ends hn rest (h.next h1 hk1 hr1 hother) hs1).imp ?_
    intro res f2 hpost
    obtain ⟨g2, h2, hs2, hk2, hr2, hres⟩ := hpost
    refine ⟨g2, h2, hs2, hk1.trans hk2, hr2, ?_⟩
    cases res with
    | error cause =>
      dsimp only at hres ⊢
      omega
    | ok u =>
      obtain ⟨hfree2, hrest, hshared⟩ := hres
      refine ⟨by omega, fun w hw => ?_, fun p hp => ?_⟩
      · rw [hrest w fun p hp => hw p (List.mem_cons_of_mem _ hp)]
        exact hother w (Ne.symm (hw _ List.mem_cons_self))
      · rcases List.mem_cons.mp hp with rfl | hp
        · rw [hrest v fun p hp => Nat.ne_of_gt (h.lt p hp), hself]
        · exact hshared p hp

omit [Addressable n] in
theorem Spaces.mem_kernelLeaves {kernel : PageTable} {P : Nat → Prop} {m : Memory n}
    (hs : Spaces kernel.root.number P g m) {p : Nat × Entry} :
    p ∈ (kernel.leaves m).filter (fun p => pageMeets 0 procStart p.1) ↔
      kernelLeaf p.1 = some p.2 := by
  rw [List.mem_filter, PageTable.mem_leaves, hs.kernelMapped]
  refine and_iff_left_of_imp fun hv => ?_
  exact pageMeets_procStart.mpr (LeafAllowed.of_kernelLeaf hv).2.1

/-- All leaves of the kernel are shared with the space in the making `t`, which maps nothing. -/
theorem shareLeaves_ends {kernel t : PageTable} (h : Accounted g held f)
    (hs : Spaces kernel.root.number (· ≠ t.root.number) g f.memory)
    (ht : t.root.number ≠ kernel.root.number) (hr : g.IsRoot t.root.number)
    (hempty : ∀ v, f.memory.mapped t.root.number v = none)
    (hn : 1 + n * 512 + held.length < maxCount) :
    Ends (shareMappings t
      (((kernel.leaves f.memory).filter fun p => pageMeets 0 procStart p.1).map mappingOf)) f
      (fun res f' => ∃ g', Accounted g' held f' ∧
        Spaces kernel.root.number (· ≠ t.root.number) g' f'.memory ∧
        Kept (· ≠ t.root.number) g f g' f' ∧ g'.IsRoot t.root.number ∧
        match res with
        | .ok () => f'.memory.mapped t.root.number = kernelLeaf ∧ f.freePages ≤ f'.freePages + 3
        | .error _ => f.freePages < 3) E := by
  have hle := Shape.Trees.reach_le f.memory 0 3 t.root.number
  have hpending := Pending.of_empty h hs.kernelRoot hr (Ne.symm ht) hempty
    fun p => pageMeets 0 procStart p.1
  refine (shareMappings_ends hn _ hpending hs).imp ?_
  intro res f' hpost
  obtain ⟨g', h', hs', hk, hr', hres⟩ := hpost
  refine ⟨g', h', hs', hk, hr', ?_⟩
  cases res with
  | error cause =>
    dsimp only at hres ⊢
    omega
  | ok u =>
    obtain ⟨hfree, hrest, hshared⟩ := hres
    refine ⟨funext fun v => ?_, by omega⟩
    cases hv : kernelLeaf v with
    | some e => exact hshared (v, e) (hs.mem_kernelLeaves.mpr hv)
    | none =>
      rw [hrest v fun p hp hpv => ?_, hempty]
      have hp := hs.mem_kernelLeaves.mp hp
      rw [hpv, hv] at hp
      cases hp

/-- **Sharing the kernel with a new space**, or nothing of it. -/
theorem sharingKernel_ends {kernel : PageTable} (h : Accounted g held f)
    (hs : Spaces kernel.root.number (fun _ => True) g f.memory)
    (hn : 1 + n * 512 + held.length < maxCount) :
    Ends (sharingKernel kernel) f (fun res f' => ∃ g', Accounted g' held f' ∧
      Spaces kernel.root.number (fun _ => True) g' f'.memory ∧
      match res with
      | .ok t => ¬ g.IsRoot t.root.number ∧ Remapped t.root.number kernelLeaf g f g' f' ∧
          f.freePages ≤ f'.freePages + 4
      | .error _ => Kept (fun _ => True) g f g' f' ∧ f.freePages < 4) E := by
  unfold sharingKernel
  refine .bind (PageTable.new?_ends h) ?_
  intro found f1 h1
  rcases found with _ | t
  · obtain ⟨rfl, h0⟩ := h1
    exact .pure ⟨g, h, hs, .refl _ _ _, by omega⟩
  obtain ⟨⟨g1, h1, hm1, -⟩, hfresh, hfree1⟩ := h1
  have htk : t.root.number ≠ kernel.root.number := fun heq => hfresh (heq ▸ hs.kernelRoot)
  have hs1 := (hs.mono fun _ _ => trivial).new h.fits hm1 hfresh htk
  refine .step (Frames.read_ok (h1.fits.mappings_eq hs1.kernelRoot (by decide))) ?_
  refine .bind (shareLeaves_ends h1 hs1 htk hm1.isRoot (fun v => by rw [hm1.mapped]) hn) ?_
  intro found f2 hpost
  obtain ⟨g2, h2, hs2, hk2, hr2, hres⟩ := hpost
  rcases found with cause | _
  · refine .bind (PageTable.destroy_ends h2 hr2) ?_
    intro _ f3 hpost
    obtain ⟨g3, h3, hk3, hgone⟩ := hpost
    dsimp only at hres
    have hk : Kept (fun _ => True) g f g3 f3 :=
      ((hm1.kept.trans hk2).trans hk3).all h.fits h3.fits hfresh hgone
    exact .pure ⟨g3, h3, hs2.dropped hk3 htk hgone, hk, by omega⟩
  · obtain ⟨hkernel, hfree2⟩ := hres
    refine .pure ⟨g2, h2, hs2.finished fun v hv1 hv2 => ?_, hfresh,
      ⟨hm1.kept.trans hk2, hr2, hkernel, hkernel ▸ (hs2.trim htk hr2).tables⟩, by omega⟩
    rw [hkernel, kernelLeaf, if_pos ⟨hv1, hv2⟩]
    exact Option.some_ne_none _

end

end PagedKernel
