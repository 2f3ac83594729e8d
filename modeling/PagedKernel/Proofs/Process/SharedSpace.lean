import PagedKernel.Proofs.Process.Making

/-!
# A space that shares the pages of the kernel

A new space gets every mapping of the kernel below the user region, to the same page with one more
reference. This takes nothing of what is there but that it is consistent: what all other page tables
and handles refer to is held, and while the space is made nothing happens to that
(`Frames.Consistent.alone`), so the frames are consistent with the new space
(`Frames.Consistent.made`).

All the pages lie below one leaf table, so the tables are taken with the first mapping, or not at
all. If it fails, what was made is given back, and all that was in use is as it was.

Key definitions: `PageTable.sharedIn`, `PageTable.lowLeaves`, `tablesFor`.
Key theorems: `Making.shareMappings_ends`, `Making.destroy_ends`,
`Frames.Consistent.sharingKernel_ends`, `Frames.Consistent.made`.
-/

namespace PagedKernel

variable {n : Nat} {g : Shape} {f f' : Frames n} {ts : List PageTable} {handles : List FrameRef}
  {kernel t : PageTable} {E : Halt → Prop}

/-- The leaf that shares the page of the leaf `e`, with what that allows. -/
def Entry.shared (e : Entry) : Entry :=
  .link (pageAt e.addr.pageNumber) (Permission.ofFlags e.flags).toFlags

/-- What a space maps that shares the pages of the space of `t`. -/
def PageTable.sharedIn (t : PageTable) (m : Memory n) (v : Nat) : Option Entry :=
  (m.mapped t.root.number v).map Entry.shared

/-- The leaves for the pages below the user region. -/
def PageTable.lowLeaves (t : PageTable) (m : Memory n) : List (Nat × Entry) :=
  (t.leaves m).filter fun p => pageMeets 0 procStart p.1

/-- The tables of a space that has the mappings of the list, all of them below one leaf table. -/
def tablesFor {α : Type} (mappings : List α) : Nat :=
  if mappings.isEmpty then 1 else levels

theorem PageTable.mem_lowLeaves {m : Memory n} {v : Nat} {e : Entry} :
    (v, e) ∈ t.lowLeaves m ↔ m.mapped t.root.number v = some e ∧ v < userFirst := by
  unfold lowLeaves
  rw [List.mem_filter, mem_leaves, pageMeets_procStart]

theorem PageTable.lowLeaves_sorted (t : PageTable) (m : Memory n) :
    (t.lowLeaves m).Pairwise fun a b => a.1 < b.1 :=
  (Memory.leavesBelow_sorted ..).filter _

/-- What maps the shared leaves, and nothing else, is what the space shares. -/
theorem PageTable.sharedIn_eq {m : Memory n} {L : Nat → Option Entry}
    (hdone : ∀ p ∈ t.lowLeaves m, L p.1 = some p.2.shared)
    (hother : ∀ v, (∀ p ∈ t.lowLeaves m, p.1 ≠ v) → L v = none) {v : Nat} (hv : v < userFirst) :
    t.sharedIn m v = L v := by
  unfold sharedIn
  cases hm : m.mapped t.root.number v with
  | none =>
    rw [hother v fun p hp hpv => ?_, Option.map_none]
    have hp := (mem_lowLeaves.mp hp).1
    rw [hpv, hm] at hp
    cases hp
  | some e =>
    rw [Option.map_some]
    exact (hdone (v, e) (mem_lowLeaves.mpr ⟨hm, hv⟩)).symm

theorem tablesFor_pos {α : Type} (mappings : List α) : 0 < tablesFor mappings := by
  unfold tablesFor levels
  split <;> decide

/-! ### What is there before -/

namespace Frames.Consistent

/-- What the page tables refer to, and the handles. -/
abbrev held (_ : f.Consistent ts handles) : List Nat :=
  ts.flatMap (·.references f.memory) ++ handles.map (·.number)

theorem mem_held_of_reference (h : f.Consistent ts handles) {t : PageTable} (ht : t ∈ ts) {q : Nat}
    (hq : q ∈ t.references f.memory) : q ∈ h.held :=
  List.mem_append_left _ (List.mem_flatMap.mpr ⟨t, ht, hq⟩)

theorem mem_held_of_leaf (h : f.Consistent ts handles) {t : PageTable} (ht : t ∈ ts)
    {leaf : Nat × Entry} (hleaf : leaf ∈ t.leaves f.memory) : leaf.2.addr.pageNumber ∈ h.held := by
  refine h.mem_held_of_reference ht (List.mem_append_right _ ?_)
  exact List.mem_map.mpr ⟨leaf, hleaf, rfl⟩

theorem mem_held_of_table (h : f.Consistent ts handles) {q : Nat} {p : Place}
    (hq : f.memory.TableAt {t | t ∈ ts} q p) : q ∈ h.held := by
  obtain ⟨t, ht, -, hsub⟩ := hq.tablesBelow_subset
  have hmem := hsub (f.memory.mem_tablesBelow_self _ _)
  exact h.mem_held_of_reference ht (List.mem_append_left _ hmem)

theorem count_eq_held (h : f.Consistent ts handles) (q : Nat) : f.count q = h.held.count q := by
  rw [h.count q, List.count_append]

theorem mem_held_iff (h : f.Consistent ts handles) {q : Nat} : q ∈ h.held ↔ f.count q ≠ 0 := by
  rw [h.count_eq_held, ← List.count_pos_iff, Nat.pos_iff_ne_zero]

/-- Whoever holds them, the references are accounted for where there is no space yet. -/
theorem alone (h : f.Consistent ts handles) : Accounted (fun _ => none) h.held f where
  fits := ⟨⟨nofun, nofun, nofun, nofun, nofun⟩, nofun⟩
  handle q hq := by
    refine ⟨?_, rfl⟩
    by_contra hge
    exact h.mem_held_iff.mp hq (f.count_of_ge (Nat.not_lt.mp hge))
  count q _ := by
    have hu : Shape.Unmapped (fun _ => none) f.memory q := nofun
    rw [h.count_eq_held, hu.leafRefs, Option.isSome_none, Bool.toNat_false, Nat.zero_add]

theorem sameSpace (h : f.Consistent ts handles)
    (hb : ∀ a, a / pageSize ∈ h.held → f'.memory.byte a = f.memory.byte a) {t : PageTable}
    (ht : t ∈ ts) : Memory.SameSpace t.root.number f.memory f'.memory := by
  exact h.sameSpace_of_in_use (fun a ha => hb a (h.mem_held_iff.mpr ha)) ht

/-- A new space is made among what is there. -/
def surroundings (h : f.Consistent ts handles) : Surroundings n where
  held := h.held
  memory := f.memory

end Frames.Consistent

section
variable [Addressable n] {u : Surroundings n} {L : Nat → Option Entry}
  {P : Nat → Option Permission} {B : Nat → UInt8}

/-! ### The kernel is shared -/

namespace Making

omit [Addressable n] in
theorem of_new {r : Nat} (h : Accounted (fun _ => none) u.held f) (hbyte : f.memory = u.memory)
    (ha : Accounted g u.held f') (hm : Remapped r (fun _ => none) (fun _ => none) f g f')
    (hg : Grown r (fun _ => 0) (fun _ => none) f g f') :
    Making u r (fun _ => none) (fun _ => none) (fun _ => 0) g f' where
  accounted := ha
  isRoot := hm.isRoot
  only {r'} hr' := by
    by_contra hne
    exact nomatch (hm.kept.isRoot hne).mp hr'
  byte a hheld := by
    rw [hg.byte a (fun ⟨l, i, hq⟩ => nomatch hq) (h.count_handle hheld), hbyte]
  page _ hP := nomatch hP
  absent _ _ := ⟨congrFun hm.mapped _, fun _ _ => rfl⟩
  low _ := congrFun hm.mapped _

omit [Addressable n] in
theorem sameUse {r : Nat} (h : Making u r L P B g f) (hu : Frames.SameUse f f') :
    Making u r L P B g f' := by
  have hkept := Kept.of_in_use (P := fun _ => True) h.accounted hu.byte
  have hmapped : f'.memory.mapped r = f.memory.mapped r := hkept.mapped trivial h.isRoot
  refine ⟨h.accounted.sameUse hu, h.isRoot, h.only, fun a ha => ?_, fun hv hP => ?_,
    fun hv hP => ?_, fun hv => (congrFun hmapped _).trans (h.low hv)⟩
  · rw [hu.byte a (h.accounted.count_handle ha), h.byte a ha]
  · obtain ⟨hread, c, hown⟩ := h.page hv hP
    refine ⟨hread, c, (congrFun hmapped _).trans hown.mapped, (hu.count c).trans hown.count,
      fun i hi => ?_⟩
    have hused : f.count ((c * pageSize + i) / pageSize) ≠ 0 := by
      rw [page_add_div c hi, hown.count]
      exact one_ne_zero
    rw [hu.byte _ hused, hown.byte i hi]
  · rw [hmapped]
    exact h.absent hv hP

/-- **A page that is held is shared** below the user region, and the tables that are missing are
taken. If there are too few free pages for these, or at the null page, nothing changes. -/
theorem shareMapping_ends {v : Nat} {e : Entry} (h : Making u t.root.number L P B g f)
    (hv : v < userFirst) (hheld : e.addr.pageNumber ∈ u.held) (hnone : L v = none)
    (hmax : maxCount < f.count e.addr.pageNumber + 1 → E .overflow) :
    Ends (do
        let page ← Frames.share e.addr
        PageTable.install t.pa (.ofPage v) page (.ofFlags e.flags)) f
      (fun res f' =>
        match res with
        | .ok _ => (∃ g', Making u t.root.number (Function.update L v (some e.shared)) P B g' f' ∧
              Kept (· ≠ t.root.number) g f g' f') ∧
            (∀ q ∈ u.held, f'.count q = f.count q + if e.addr.pageNumber = q then 1 else 0) ∧
            f.freePages = f'.freePages + (f.memory.reach v 3 t.root.number).2
        | .error cause => Frames.SameUse f f' ∧ (1 ≤ v →
            cause = .outOfMemory ∧ f.freePages < (f.memory.reach v 3 t.root.number).2)) E := by
  have hnotable := (h.accounted.handle _ hheld).2
  have hused := h.accounted.count_handle hheld
  have hv36 : v < 2 ^ 36 := by
    rw [userFirst_eq] at hv
    omega
  unfold Entry.shared
  refine .bind (PageTable.share_used_ends h.accounted hnotable hused fun hfull =>
    hmax (by omega)) ?_
  rintro _ f1 ⟨rfl, ha1, hk1, hmemory, hcount1, hfree⟩
  generalize e.addr.pageNumber = c at *
  have hk1 : Kept (· ≠ t.root.number) g f g f1 := hk1.mono fun _ _ => trivial
  have hg1 : Grown t.root.number (fun q => if c = q then 1 else 0) g f g f1 := by
    refine .of_in_use (fun q _ => ?_) fun _ _ => by rw [hmemory]
    simp only [hcount1, eq_comm (a := c)]
    split <;> rfl
  have hplanted : Ends (PageTable.install t.pa (.ofPage v) ⟨c⟩ (.ofFlags e.flags)) f1 _ E :=
    PageTable.install_planted (.ofPage v) ha1.planted h.isRoot (ha1.count_handle List.mem_cons_self)
  refine ((PageTable.install_ends (.ofPage v) ha1 h.isRoot).and hplanted).imp ?_
  rintro (cause | old) f2 ⟨h2, hp2⟩
  · -- the page is given back, so nothing is left of it
    obtain ⟨-, -, -, hrefused⟩ := h2
    obtain ⟨hgiven, -⟩ := hp2
    refine ⟨⟨fun q => ?_, fun a ha => ?_⟩, fun hv1 => ?_⟩
    · have hback := hgiven.count q
      rw [hcount1] at hback
      split at hback <;> omega
    · have hused1 : f1.count (a / pageSize) ≠ 0 := by
        rw [hcount1]
        split <;> omega
      rw [hgiven.byte a hused1, hmemory]
    · have hlack := PageTable.refused_ofPage hv1 hv36 hrefused
      rwa [hfree, hmemory] at hlack
  · obtain ⟨⟨g2, ha2, hm2, hg2⟩, hold, -, -, hfree2⟩ := h2
    rw [VirtAddr.page_ofPage hv36, hmemory] at hm2 hold hfree2
    rw [h.low hv, hnone, Option.bind_none] at hold
    subst hold
    have hgrown := hg1.trans hg2
    refine ⟨⟨g2, h.changed ha2 (hk1.trans hm2.kept) hm2.isRoot hgrown (fun q hq => ?_)
      (fun w hw => ?_) (fun w _ hw => Function.update_of_ne hw _ _) (fun _ _ _ => rfl)
      (fun _ => ?_) fun hhigh => absurd hv (Nat.not_lt.mpr hhigh), hk1.trans hm2.kept⟩,
      fun q hq => hgrown.count q (h.accounted.count_handle hq), hfree ▸ hfree2⟩
    · rw [if_neg fun heq : c = q => hq (heq ▸ hheld)]
    · rw [hm2.mapped, Function.update_of_ne hw]
    · rw [hm2.mapped, Function.update_self, Function.update_self]

/-- The tables that are missing for the pages of `rest`, which are all below one leaf table. -/
def lacking (rest : List (Nat × Entry)) (r : Nat) (f : Frames n) : Nat :=
  if rest.isEmpty then 0 else (f.memory.reach 0 3 r).2

omit [Addressable n] in
/-- A space that has come with its root only lacks the other tables that it is to have. -/
theorem tablesFor_eq {r : Nat} (hm : Remapped r (fun _ => none) (fun _ => none) f g f')
    (ht : g.Trees f'.memory) (rest : List (Nat × Entry)) :
    tablesFor rest = lacking rest r f' + 1 := by
  unfold tablesFor lacking
  rw [hm.reach_new ht (by unfold pagesPerSpace; decide)]
  split <;> rfl

/-- **The pages of `rest` are shared**, unless there are too few free pages for the tables or one of
them is the null page. -/
theorem shareMappings_ends : ∀ (rest : List (Nat × Entry)) {L : Nat → Option Entry} {g : Shape}
    {f : Frames n}, Making u t.root.number L P B g f → rest.Pairwise (fun a b => a.1 < b.1) →
    (∀ p ∈ rest, p.1 < userFirst ∧ p.2.addr.pageNumber ∈ u.held ∧ L p.1 = none) →
    (∀ q ∈ u.held, maxCount < f.count q + rest.countP (fun p => p.2.addr.pageNumber = q) →
      E .overflow) →
    Ends (shareMappings t (rest.map mappingOf)) f (fun res f' => ∃ L' g',
      Making u t.root.number L' P B g' f' ∧ Kept (· ≠ t.root.number) g f g' f' ∧
      match res with
      | .ok () => (∀ p ∈ rest, L' p.1 = some p.2.shared) ∧
          (∀ v, (∀ p ∈ rest, p.1 ≠ v) → L' v = L v) ∧
          f.freePages = f'.freePages + lacking rest t.root.number f
      | .error cause => (∀ p ∈ rest, 1 ≤ p.1) →
          cause = .outOfMemory ∧ f.freePages < lacking rest t.root.number f) E
  | [], L, g, f, h, _, _, _ =>
    .pure ⟨L, g, h, .refl _ _ _, nofun, fun _ _ => rfl, rfl⟩
  | (v, e) :: rest, L, g, f, h, hsorted, hrest, hmax => by
    have ⟨hv, hheld, hnone⟩ : v < userFirst ∧ e.addr.pageNumber ∈ u.held ∧ L v = none :=
      hrest _ List.mem_cons_self
    obtain ⟨hlt, hsorted⟩ := List.pairwise_cons.mp hsorted
    simp only [List.countP_cons, decide_eq_true_eq] at hmax
    have hmissing : lacking ((v, e) :: rest) t.root.number f =
        (f.memory.reach v 3 t.root.number).2 := by
      rw [userFirst_eq] at hv
      exact congrArg Prod.snd (Shape.Trees.reach_congr (show 0 / 512 = v / 512 by omega) 3 _)
    rw [hmissing, List.map_cons, mappingOf, shareMappings, ← bind_assoc]
    refine .bind (h.shareMapping_ends (v := v) (e := e) hv hheld hnone fun hfull =>
      hmax e.addr.pageNumber hheld ?_) ?_
    · rw [if_pos rfl]
      omega
    rintro (cause | old) f1 h1
    · obtain ⟨huse, hlack⟩ := h1
      have hkept := Kept.of_in_use (P := (· ≠ t.root.number)) h.accounted huse.byte
      exact .pure ⟨L, g, h.sameUse huse, hkept, fun hpos => hlack (hpos _ List.mem_cons_self)⟩
    obtain ⟨⟨g1, h1, hk1⟩, hcount1, hfree1⟩ := h1
    -- the leaf table is there now, so no table is missing any more
    have hnothing : lacking rest t.root.number f1 = 0 := by
      have hleaf : f1.memory.mapped t.root.number v = some e.shared := by
        rw [h1.low hv, Function.update_self]
      have hzero := h1.accounted.fits.reach_of_mapped h1.isRoot hleaf
      rw [userFirst_eq] at hv
      unfold lacking
      rw [Shape.Trees.reach_congr (show 0 / 512 = v / 512 by omega), hzero, ite_self]
    refine (shareMappings_ends rest h1 hsorted (fun p hp => ?_) fun q hq hfull => ?_).imp ?_
    · obtain ⟨hp1, hp2, hp3⟩ := hrest p (List.mem_cons_of_mem _ hp)
      exact ⟨hp1, hp2, (Function.update_of_ne (hlt p hp).ne' _ _).trans hp3⟩
    · rw [hcount1 q hq] at hfull
      exact hmax q hq (by omega)
    rintro res f2 ⟨L', g2, h2, hk2, hres⟩
    refine ⟨L', g2, h2, hk1.trans hk2, ?_⟩
    rw [hnothing] at hres
    cases res with
    | error cause =>
      intro hpos
      have hlack := (hres fun p hp => hpos p (List.mem_cons_of_mem _ hp)).2
      exact absurd hlack (Nat.not_lt_zero _)
    | ok _ =>
      obtain ⟨hdone, hother, hfree2⟩ := hres
      refine ⟨fun p hp => ?_, fun w hw => ?_, by omega⟩
      · rcases List.mem_cons.mp hp with rfl | hp
        · rw [hother v fun p hp => (hlt p hp).ne', Function.update_self]
        · exact hdone p hp
      · rw [hother w fun p hp => hw p (List.mem_cons_of_mem _ hp),
          Function.update_of_ne (hw _ List.mem_cons_self).symm]

omit [Addressable n] in
theorem allOf (h : Making u t.root.number L P B g f) : PageTable.AllOf g [t] :=
  ⟨fun _ ht' => List.mem_singleton.mp ht' ▸ h.isRoot, List.nodup_singleton _,
    fun _ hr => ⟨t, List.mem_singleton_self t, (h.only hr).symm⟩⟩

omit [Addressable n] in
theorem count_eq (h : Making u t.root.number L P B g f) (q : Nat) :
    f.count q = (t.references f.memory).count q + u.held.count q := by
  rw [h.accounted.count_eq h.allOf q, List.flatMap_singleton]

/-- **What was made is given back**, and nothing of it is left. -/
theorem destroy_ends (h : Making u t.root.number L P B g f) :
    Ends t.destroy f (fun _ f' => (∀ q, f'.count q = u.held.count q) ∧
      ∀ a, a / pageSize ∈ u.held → f'.memory.byte a = u.memory.byte a) E := by
  have hfits := h.accounted.fits
  have htable : ∀ {q}, q ∈ f.memory.tablesBelow 3 t.root.number → ∃ p, g q = some p := fun hq => by
    obtain ⟨l, i, hq⟩ := (hfits.mem_tables h.isRoot).mp hq
    exact ⟨_, hq⟩
  refine (PageTable.destroy_releases (hfits.nodup_tablesBelow h.isRoot) (fun q hq => ?_)
    fun q => ?_).imp fun _ f' hrel => ⟨fun q => ?_, fun a ha => ?_⟩
  · obtain ⟨p, hp⟩ := htable hq
    exact hfits.installed hp
  · rw [h.count_eq q]
    exact Nat.le_add_right _ _
  · have hback := hrel.count q
    rw [h.count_eq q, Nat.add_comm] at hback
    exact Nat.add_left_cancel hback
  · rw [hrel.byte a fun hq => ?_, h.byte a ha]
    obtain ⟨p, hp⟩ := htable hq
    exact nomatch hp.symm.trans (h.accounted.handle _ ha).2

end Making

namespace Frames.Consistent

/-- While the space is made the kernel's listing is what it was before. -/
theorem mappings_making (h : f.Consistent ts handles) (hk : kernel ∈ ts) {r : Nat}
    (hm : Making h.surroundings r L P B g f') : kernel.mappings f'.memory 0 procStart =
      .ok ((kernel.lowLeaves f.memory).map mappingOf) := by
  have hfits : h.shape.Fits f'.memory := h.fits.congr <| Accounted.slot_congr fun a hq => by
    obtain ⟨p, hp⟩ := h.holdsTable_iff.mpr hq
    exact hm.byte a (h.mem_held_of_table hp)
  rw [hfits.mappings_eq (h.isRoot hk) (by decide), (h.sameSpace hm.byte hk).leaves]
  rfl

/-- **A space that shares the kernel** maps below the user region what that maps, and nothing else.
If there are too few free pages for its tables, or the kernel maps the null page, there is none, and
all that was in use is as it was. It is halted only by a count that overflows. -/
theorem sharingKernel_ends (h : f.Consistent ts handles) (hk : kernel ∈ ts)
    (hmax : ∀ q, maxCount < f.count q +
      (kernel.lowLeaves f.memory).countP (fun p => p.2.addr.pageNumber = q) → E .overflow) :
    Ends (sharingKernel kernel) f (fun res f' =>
      match res with
      | .ok t => (∃ g', Making h.surroundings t.root.number (kernel.sharedIn f.memory)
            (fun _ => none) (fun _ => 0) g' f' ∧
            Kept (· ≠ t.root.number) (fun _ => none) f g' f') ∧
          f.freePages = f'.freePages + tablesFor (kernel.lowLeaves f.memory)
      | .error cause => Frames.SameUse f f' ∧ (f.memory.mapped kernel.root.number 0 = none →
          cause = .outOfMemory ∧ f.freePages < tablesFor (kernel.lowLeaves f.memory))) E := by
  unfold sharingKernel
  refine .bind (PageTable.new?_ends h.alone) ?_
  rintro (_ | t) f1 h1
  · obtain ⟨rfl, hzero⟩ := h1
    have hpos := tablesFor_pos (kernel.lowLeaves f1.memory)
    exact .pure ⟨.refl _, fun _ => ⟨rfl, hzero.trans_lt hpos⟩⟩
  obtain ⟨⟨g1, ha1, hm1, hg1⟩, -, hfree1⟩ := h1
  have h1 : Making h.surroundings t.root.number (fun _ => none) (fun _ => none) (fun _ => 0)
      g1 f1 := .of_new h.alone rfl ha1 hm1 hg1
  have htables := Making.tablesFor_eq hm1 ha1.fits.toTrees (kernel.lowLeaves f.memory)
  refine .step (Frames.read_ok (h.mappings_making hk h1)) ?_
  have hleaf : ∀ p ∈ kernel.lowLeaves f.memory,
      p.1 < userFirst ∧ p.2.addr.pageNumber ∈ h.held ∧ (none : Option Entry) = none := by
    rintro ⟨v, e⟩ hp
    obtain ⟨hm, hv⟩ := PageTable.mem_lowLeaves.mp hp
    exact ⟨hv, h.mem_held_of_leaf hk (PageTable.mem_leaves.mpr hm), rfl⟩
  refine .bind (h1.shareMappings_ends (kernel.lowLeaves f.memory)
    (kernel.lowLeaves_sorted f.memory) hleaf fun q hq hfull => ?_) ?_
  · rw [hg1.count q (h.mem_held_iff.mp hq)] at hfull
    exact hmax q hfull
  rintro (cause | _) f2 ⟨L, g2, h2, hk2, hres⟩
  · refine .bind h2.destroy_ends fun _ f3 ⟨hcount3, hbyte3⟩ => .pure ⟨⟨fun q => ?_, fun a ha => ?_⟩,
      fun hnull => ?_⟩
    · exact (hcount3 q).trans (h.count_eq_held q).symm
    · exact hbyte3 a (h.mem_held_iff.mpr ha)
    · obtain ⟨hcause, hlack⟩ := hres fun p hp => Nat.pos_of_ne_zero fun h0 => by
        have hm := (PageTable.mem_lowLeaves.mp hp).1
        rw [h0, hnull] at hm
        cases hm
      exact ⟨hcause, by omega⟩
  · obtain ⟨hdone, hother, hfree2⟩ := hres
    have hlow := fun v hv => PageTable.sharedIn_eq (v := v) hdone hother hv
    exact .pure ⟨⟨g2, h2.congr_low hlow, hm1.kept.trans hk2⟩, by omega⟩

omit [Addressable n] in
theorem tableAt_or (h : f.Consistent ts handles)
    (hm : Making h.surroundings t.root.number L P B g f') {q : Nat} {p : Place}
    (hq : f'.memory.TableAt {t' | t' ∈ t :: ts} q p) :
    g q = some p ∨ f.memory.TableAt {t' | t' ∈ ts} q p := by
  induction hq with
  | root ht =>
    rcases List.mem_cons.mp ht with rfl | ht
    · exact .inl hm.isRoot
    · exact .inr (.root ht)
  | child hq hs hc ih =>
    rcases ih with hnew | hold
    · exact .inl (hm.accounted.fits.child hnew hs hc)
    · refine .inr (.child hold hs ?_)
      obtain ⟨t', ht', -, hsub⟩ := hold.tablesBelow_subset
      have hslot := h.sameSpace hm.byte ht' _ (hsub (f.memory.mem_tablesBelow_self _ _)) _ hs
      rwa [hslot] at hc

/-- The new space maps its own pages and, below the user region, those of the kernel. -/
theorem leaf_or (h : f.Consistent ts handles) (hk : kernel ∈ ts)
    (hm : Making h.surroundings t.root.number (kernel.sharedIn f.memory) P B g f') {v : Nat}
    {e : Entry} (he : f'.memory.mapped t.root.number v = some e) :
    e.addr.pageNumber ∉ h.held ∨ ∃ leaf ∈ kernel.leaves f.memory,
      leaf.2.addr.pageNumber = e.addr.pageNumber := by
  by_cases hv : userFirst ≤ v
  · obtain ⟨perm, c, -, -, rfl, hown⟩ := hm.of_mapped hv he
    rw [hown.pageNumber]
    exact .inl (hown.sole hm.accounted hm.isRoot).2.1
  · rw [hm.low (Nat.not_le.mp hv)] at he
    obtain ⟨e', he', rfl⟩ := Option.map_eq_some_iff.mp he
    have hlt := (h.fits.mapped_target (h.isRoot hk) he').2
    refine .inr ⟨(v, e'), PageTable.mem_leaves.mpr he', ?_⟩
    exact (Entry.pageNumber_link (lt_of_lt_of_le hlt (Addressable.le (n := n))) _).symm

/-- **The frames are consistent** with the new space. -/
theorem made (h : f.Consistent ts handles) (hk : kernel ∈ ts)
    (hm : Making h.surroundings t.root.number (kernel.sharedIn f.memory) P B g f') :
    f'.Consistent (t :: ts) handles := by
  have hnew : ∀ {q}, q ∈ h.held → g q = none := fun hq => (hm.accounted.handle _ hq).2
  have hsame : ∀ {t'}, t' ∈ ts → Memory.SameSpace t'.root.number f.memory f'.memory :=
    h.sameSpace hm.byte
  refine ⟨List.nodup_cons.mpr ⟨fun ht => ?_, h.nodup⟩, fun q => ?_, fun hq hq' => ?_,
    fun t' ht' leaf hleaf hholds => ?_⟩
  · exact nomatch hm.isRoot.symm.trans (hnew (h.mem_held_of_table (.root ht)))
  · have hrefs : ts.flatMap (·.references f'.memory) = ts.flatMap (·.references f.memory) :=
      List.flatMap_congr fun t' ht' => (hsame ht').references
    calc f'.count q
        = ([t].flatMap (·.references f'.memory)).count q + h.held.count q :=
          hm.accounted.count_eq hm.allOf q
      _ = ((t :: ts).flatMap (·.references f'.memory)).count q +
          (handles.map (·.number)).count q := by
          rw [List.flatMap_singleton, List.flatMap_cons, hrefs, List.count_append,
            List.count_append, Nat.add_assoc]
  · rcases h.tableAt_or hm hq with hg | ht <;> rcases h.tableAt_or hm hq' with hg' | ht'
    · exact Option.some.inj (hg'.symm.trans hg)
    · exact nomatch hg.symm.trans (hnew (h.mem_held_of_table ht'))
    · exact nomatch hg'.symm.trans (hnew (h.mem_held_of_table ht))
    · exact h.distinct ht ht'
  · obtain ⟨p, hp⟩ := hholds
    rcases List.mem_cons.mp ht' with rfl | ht'
    · have hleaf := PageTable.mem_leaves.mp hleaf
      have hnone := (hm.accounted.fits.mapped_target hm.isRoot hleaf).1
      rcases h.tableAt_or hm hp with hg | ht
      · exact nomatch hg.symm.trans hnone
      rcases h.leaf_or hk hm hleaf with hfresh | ⟨leaf', hleaf', hpage⟩
      · exact hfresh (h.mem_held_of_table ht)
      · refine h.leaf kernel hk leaf' hleaf' ⟨p, ?_⟩
        rwa [hpage]
    · rw [(hsame ht').leaves] at hleaf
      rcases h.tableAt_or hm hp with hg | ht
      · have hmem := h.mem_held_of_leaf ht' hleaf
        exact nomatch hg.symm.trans (hnew hmem)
      · exact h.leaf t' ht' leaf hleaf ⟨p, ht⟩

end Frames.Consistent

end

end PagedKernel
