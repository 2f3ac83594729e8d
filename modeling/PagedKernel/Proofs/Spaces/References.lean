import Mathlib.Data.Finset.Image
import PagedKernel.Proofs.Spaces.Accounts
import PagedKernel.Proofs.Spaces.Listing

/-!
# Counts are references

With no handle outstanding, the count of a page is the number of times that the page tables refer to
it, each by its tables and its leaves. This is what `Accounted` says once a list of page tables has
every root just once.

Key definitions: `PageTable.AllOf`, `PageTable.rootedLeaves`.
Key theorem: `Accounted.count_eq_references`.
-/

namespace PagedKernel

variable {n : Nat} {g : Shape} {m : Memory n}

/-- The page tables `ts` are those of the shape: each of its roots is that of just one of them. -/
structure PageTable.AllOf (g : Shape) (ts : List PageTable) : Prop where
  isRoot : ∀ t ∈ ts, g.IsRoot t.root.number
  nodup : (ts.map (·.root.number)).Nodup
  complete : ∀ r, g.IsRoot r → ∃ t ∈ ts, t.root.number = r

namespace PageTable

variable {ts : List PageTable}

theorem AllOf.pairwise (h : AllOf g ts) :
    ts.Pairwise fun t1 t2 => t1.root.number ≠ t2.root.number :=
  List.pairwise_map.mp h.nodup

/-- Every table page occurs once among the tables. -/
theorem AllOf.count_tables (h : AllOf g ts) (hf : g.Fits m) (q : Nat) :
    (ts.flatMap fun t => m.tablesBelow 3 t.root.number).count q = (g q).isSome.toNat := by
  have hnodup : (ts.flatMap fun t => m.tablesBelow 3 t.root.number).Nodup := by
    refine List.nodup_flatMap.mpr ⟨fun t ht => hf.nodup_tablesBelow (h.isRoot t ht), ?_⟩
    refine h.pairwise.imp_of_mem fun {t1 t2} ht1 ht2 hne c hc1 hc2 => hne ?_
    obtain ⟨l1, i1, hg1⟩ := (hf.mem_tables (h.isRoot t1 ht1)).mp hc1
    obtain ⟨l2, i2, hg2⟩ := (hf.mem_tables (h.isRoot t2 ht2)).mp hc2
    simp only [hg1, Option.some.injEq, Place.mk.injEq] at hg2
    exact hg2.1
  cases hg : g q with
  | none =>
    refine List.count_eq_zero.mpr fun hmem => ?_
    obtain ⟨t, ht, hq⟩ := List.mem_flatMap.mp hmem
    obtain ⟨l, i, hq⟩ := (hf.mem_tables (h.isRoot t ht)).mp hq
    rw [hg] at hq
    cases hq
  | some p =>
    obtain ⟨r, l, i⟩ := p
    obtain ⟨t, ht, hr⟩ := h.complete r (hf.isRoot hg)
    refine List.count_eq_one_of_mem hnodup (List.mem_flatMap.mpr ⟨t, ht, ?_⟩)
    exact (hf.mem_tables (h.isRoot t ht)).mpr ⟨l, i, hr ▸ hg⟩

/-- The root, the page number and the entry of a leaf, by its table and slot. -/
def leafAt (g : Shape) (m : Memory n) (p : Nat × Nat) : Nat × Nat × Entry :=
  match g p.1 with
  | some place => (place.root, 512 * place.index + p.2, m.slot p.1 p.2)
  | none => (0, 0, .empty)

theorem leafAt_injOn (hf : g.Fits m) (c : Nat) : Set.InjOn (leafAt g m) (g.leafSlots m c) := by
  rintro ⟨q1, s1⟩ h1 ⟨q2, s2⟩ h2 heq
  obtain ⟨-, hs1, hl1, -⟩ := Shape.mem_leafSlots.mp h1
  obtain ⟨-, hs2, hl2, -⟩ := Shape.mem_leafSlots.mp h2
  obtain ⟨r1, i1, hq1⟩ := Shape.isLeafTable_iff.mp hl1
  obtain ⟨r2, i2, hq2⟩ := Shape.isLeafTable_iff.mp hl2
  unfold leafAt at heq
  simp only [hq1, hq2, Prod.mk.injEq] at heq
  obtain ⟨rfl, hv, -⟩ := heq
  obtain rfl : i1 = i2 := by omega
  obtain rfl : s1 = s2 := by omega
  rw [hf.injective hq1 hq2]

/-- The leaves of the page tables `ts`, each with the root that it is below. -/
def rootedLeaves (m : Memory n) (ts : List PageTable) : List (Nat × Nat × Entry) :=
  ts.flatMap fun t => (t.leaves m).map fun leaf => (t.root.number, leaf)

theorem AllOf.mem_rootedLeaves (h : AllOf g ts) {r v : Nat} {e : Entry} :
    (r, v, e) ∈ rootedLeaves m ts ↔ g.IsRoot r ∧ m.mapped r v = some e := by
  unfold rootedLeaves
  rw [List.mem_flatMap]
  constructor
  · intro hmem
    obtain ⟨t, ht, hleaf⟩ := hmem
    obtain ⟨leaf, hleaf, heq⟩ := List.mem_map.mp hleaf
    cases heq
    exact ⟨h.isRoot t ht, PageTable.mem_leaves.mp hleaf⟩
  · intro hmaps
    obtain ⟨hr, hm⟩ := hmaps
    obtain ⟨t, ht, rfl⟩ := h.complete r hr
    exact ⟨t, ht, List.mem_map_of_mem (PageTable.mem_leaves.mpr hm)⟩

theorem AllOf.nodup_rootedLeaves (h : AllOf g ts) : (rootedLeaves m ts).Nodup := by
  refine List.nodup_flatMap.mpr ⟨fun t _ => ?_, ?_⟩
  · refine List.Nodup.map (fun leaf1 leaf2 heq => (Prod.mk.inj heq).2) ?_
    exact (Memory.leavesBelow_sorted m 3 t.root.number 0).imp
      fun {leaf1 leaf2} hlt (heq : leaf1 = leaf2) => absurd hlt (heq ▸ Nat.lt_irrefl _)
  · refine h.pairwise.imp fun hne leaf hleaf1 hleaf2 => hne ?_
    obtain ⟨_, _, heq1⟩ := List.mem_map.mp hleaf1
    obtain ⟨_, _, heq2⟩ := List.mem_map.mp hleaf2
    exact (congrArg Prod.fst heq1).trans (congrArg Prod.fst heq2).symm

/-- The leaves to a page are those in the slots that hold its number. -/
theorem AllOf.rootedLeaves_to (h : AllOf g ts) (hf : g.Fits m) (c : Nat) :
    ((rootedLeaves m ts).filter fun x => x.2.2.addr.pageNumber == c).toFinset =
      (g.leafSlots m c).image (leafAt g m) := by
  ext ⟨r, v, e⟩
  simp only [List.mem_toFinset, List.mem_filter, h.mem_rootedLeaves, beq_iff_eq, Finset.mem_image]
  constructor
  · intro hleaf
    obtain ⟨⟨hr, hm⟩, hc⟩ := hleaf
    obtain ⟨q, hq, rfl, hp⟩ := (hf.mapped_iff hr).mp hm
    refine ⟨(q, v % 512), Shape.mem_leafSlots.mpr ⟨hf.installed hq, mod_slots_lt v,
      Shape.isLeafTable_iff.mpr ⟨r, _, hq⟩, ?_⟩, ?_⟩
    · rw [Entry.page?, if_pos hp, ← hc]
    · unfold leafAt
      rw [hq]
      dsimp only
      rw [Nat.div_add_mod]
  · intro hslot
    obtain ⟨⟨q, s⟩, hqs, heq⟩ := hslot
    obtain ⟨-, hs, hl, hc⟩ := Shape.mem_leafSlots.mp hqs
    obtain ⟨r1, i, hq⟩ := Shape.isLeafTable_iff.mp hl
    unfold leafAt at heq
    rw [hq] at heq
    cases heq
    have hp := Entry.present_of_page? hc
    refine ⟨⟨hf.isRoot hq, hf.mapped_of_slot hq hs hp⟩, ?_⟩
    rw [Entry.page?, if_pos hp] at hc
    exact Option.some.inj hc

theorem AllOf.count_leaves (h : AllOf g ts) (hf : g.Fits m) (c : Nat) :
    (ts.flatMap fun t => (t.leaves m).map (·.2.addr.pageNumber)).count c = g.leafRefs m c := by
  have hpages : (ts.flatMap fun t => (t.leaves m).map (·.2.addr.pageNumber)) =
      (rootedLeaves m ts).map (·.2.2.addr.pageNumber) := by
    unfold rootedLeaves
    rw [List.map_flatMap]
    refine List.flatMap_congr fun t _ => ?_
    rw [List.map_map]
    rfl
  rw [hpages, List.count, List.countP_map, List.countP_eq_length_filter]
  calc ((rootedLeaves m ts).filter fun x => x.2.2.addr.pageNumber == c).length
      = ((rootedLeaves m ts).filter fun x => x.2.2.addr.pageNumber == c).toFinset.card :=
        (List.toFinset_card_of_nodup (h.nodup_rootedLeaves.filter _)).symm
    _ = ((g.leafSlots m c).image (leafAt g m)).card := by rw [h.rootedLeaves_to hf]
    _ = g.leafRefs m c := Finset.card_image_of_injOn (leafAt_injOn hf c)

end PageTable

/-- A page is referred to once for each time that it is a table, and for each leaf to it. -/
theorem PageTable.count_references (t : PageTable) (m : Memory n) (pn : Nat) :
    (t.references m).count pn = (m.tablesBelow 3 t.root.number).count pn +
      (t.leaves m).countP fun leaf => leaf.2.addr.pageNumber = pn := by
  unfold references
  rw [List.count_append, List.count_eq_countP (l := List.map _ _), List.countP_map]
  rfl

theorem count_flatMap_append {α : Type} (a b : α → List Nat) (q : Nat) : ∀ l : List α,
    (l.flatMap fun x => a x ++ b x).count q = (l.flatMap a).count q + (l.flatMap b).count q
  | [] => rfl
  | x :: l => by
    have ih := count_flatMap_append a b q l
    rw [List.flatMap_cons, List.flatMap_cons, List.flatMap_cons, List.count_append,
      List.count_append, List.count_append, List.count_append, ih]
    omega

/-- The page tables refer to a page once if it is a table, and once by each leaf to it. -/
theorem PageTable.AllOf.count_references {ts : List PageTable} (h : AllOf g ts) (hf : g.Fits m)
    (q : Nat) : (ts.flatMap (·.references m)).count q = (g q).isSome.toNat + g.leafRefs m q := by
  unfold PageTable.references
  rw [count_flatMap_append, h.count_tables hf, h.count_leaves hf]

/-- The count of a page is the number of references that the page tables hold, and of the handles.
-/
theorem Accounted.count_eq {held : List Nat} {f : Frames n} (h : Accounted g held f)
    {ts : List PageTable} (hts : PageTable.AllOf g ts) (q : Nat) :
    f.count q = (ts.flatMap (·.references f.memory)).count q + held.count q := by
  rw [hts.count_references h.fits]
  by_cases hq : q < n
  · exact h.count q hq
  · have hg : g q = none := by
      cases hg : g q with
      | none => rfl
      | some p => exact absurd (h.fits.installed hg) hq
    have hu : g.Unmapped f.memory q := fun _ _ _ _ hq1 hs hp => hq (h.fits.leaf hq1 hs hp).2
    have hheld : q ∉ held := fun hmem => hq (h.handle q hmem).1
    rw [f.count_of_ge (Nat.not_lt.mp hq), hg, hu.leafRefs, List.count_eq_zero.mpr hheld]
    rfl

/-- **The count of a page is the number of references that the page tables hold.** -/
theorem Accounted.count_eq_references {f : Frames n} (h : Accounted g [] f) {ts : List PageTable}
    (hts : PageTable.AllOf g ts) (q : Nat) :
    f.count q = (ts.flatMap (·.references f.memory)).count q :=
  h.count_eq hts q

end PagedKernel
