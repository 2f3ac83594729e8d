import Mathlib.Data.Finset.Union
import PagedKernel.Proofs.Spaces.Listing

/-!
# The tables that a space needs

A space is trim if it has no table that leads to nothing. Mapping a page keeps it trim, since only
the tables on the way to that page are hung. The places of the tables of a trim space are those on
the way to the pages that it maps (`placesFor`), so two trim spaces that map the same pages have the
same number of tables, and a space that maps one page more has as many tables more as were missing
on the way to it.

Key definitions: `Shape.Trim`, `wayPlaces`, `placesFor`.
Key theorems: `Shape.Trim.remapped`, `Shape.Trim.length_tables`, `Shape.Trim.card_insert`.
-/

namespace PagedKernel

variable {n : Nat} {g g' g0 : Shape} {m : Memory n} {f f' : Frames n} {r : Nat}

/-- Every table of the space with root `r` but the root is on the way to a page that it maps. -/
def Shape.Trim (g : Shape) (m : Memory n) (r : Nat) : Prop :=
  ∀ ⦃q l i⦄, g q = some ⟨r, l, i⟩ → l ≠ 3 → ∃ v, v / 512 ^ (l + 1) = i ∧ m.mapped r v ≠ none

namespace Shape.Trim

theorem kept {P : Nat → Prop} (h : g.Trim f.memory r) (hk : Kept P g f g' f') (hP : P r)
    (hr : g.IsRoot r) : g'.Trim f'.memory r := by
  intro q l i hq hl
  rw [hk.mapped hP hr]
  exact h ((hk.place hP).mp hq) hl

theorem remapped {F : Nat → Option Entry} (h : g.Trim f.memory r) (hm : Remapped r F g f g' f')
    (hF : ∀ v, f.memory.mapped r v ≠ none → F v ≠ none) : g'.Trim f'.memory r := by
  intro q l i hq hl
  rw [hm.mapped]
  rcases hm.tables hq with hq | hl' | hway
  · obtain ⟨v, hi, hv⟩ := h hq hl
    exact ⟨v, hi, hF v hv⟩
  · exact absurd hl' hl
  · exact hway

/-- The tables of a trim space are what `Remapped` asks of those it has got. -/
theorem tables {q l i : Nat} (h : g.Trim m r) (hq : g q = some ⟨r, l, i⟩) :
    g0 q = some ⟨r, l, i⟩ ∨ l = 3 ∨ ∃ v, v / 512 ^ (l + 1) = i ∧ m.mapped r v ≠ none :=
  .inr (or_iff_not_imp_left.mpr (h hq))

theorem of_new {F : Nat → Option Entry} (hf : g.Fits f.memory) (hr : ¬ g.IsRoot r)
    (hm : Remapped r F g f g' f') : g'.Trim f'.memory r := by
  intro q l i hq hl
  rw [hm.mapped]
  rcases hm.tables hq with hq | hl' | hway
  · exact absurd (hf.isRoot hq) hr
  · exact absurd hl' hl
  · exact hway

end Shape.Trim

/-- The places below the root on the way to page number `v`, each a level and a number. -/
def wayPlaces (v : Nat) : Finset (Nat × Nat) :=
  (Finset.range 3).image fun l => (l, v / 512 ^ (l + 1))

/-- The places below the root on the way to any of the pages `D`. -/
def placesFor (D : Finset Nat) : Finset (Nat × Nat) :=
  D.biUnion wayPlaces

theorem mem_wayPlaces {v l i : Nat} : (l, i) ∈ wayPlaces v ↔ l < 3 ∧ v / 512 ^ (l + 1) = i := by
  unfold wayPlaces
  simp only [Finset.mem_image, Finset.mem_range, Prod.mk.injEq]
  constructor
  · rintro ⟨l', hl, rfl, hi⟩
    exact ⟨hl, hi⟩
  · rintro ⟨hl, hi⟩
    exact ⟨l, hl, rfl, hi⟩

theorem mem_placesFor {D : Finset Nat} {l i : Nat} :
    (l, i) ∈ placesFor D ↔ l < 3 ∧ ∃ v ∈ D, v / 512 ^ (l + 1) = i := by
  unfold placesFor
  simp only [Finset.mem_biUnion, mem_wayPlaces]
  constructor
  · rintro ⟨v, hv, hl, hi⟩
    exact ⟨hl, v, hv, hi⟩
  · rintro ⟨hl, v, hv, hi⟩
    exact ⟨v, hv, hl, hi⟩

theorem placesFor_insert (v : Nat) (D : Finset Nat) :
    placesFor (insert v D) = wayPlaces v ∪ placesFor D :=
  Finset.biUnion_insert

theorem card_placesFor_mono {D D' : Finset Nat} (h : D ⊆ D') :
    (placesFor D).card ≤ (placesFor D').card :=
  Finset.card_le_card (Finset.biUnion_subset_biUnion_of_subset_left _ h)

theorem placesFor_empty : placesFor ∅ = ∅ := rfl

/-- The page numbers of the leaves `l`. -/
def leafPages (l : List (Nat × Entry)) : Finset Nat :=
  (l.map (·.1)).toFinset

theorem leafPages_cons (v : Nat) (e : Entry) (l : List (Nat × Entry)) :
    leafPages ((v, e) :: l) = insert v (leafPages l) :=
  List.toFinset_cons

theorem PageTable.mem_leafPages (t : PageTable) (v : Nat) :
    v ∈ leafPages (t.leaves m) ↔ m.mapped t.root.number v ≠ none := by
  unfold leafPages
  rw [List.mem_toFinset, List.mem_map, Option.ne_none_iff_exists']
  constructor
  · rintro ⟨⟨v, e⟩, hp, rfl⟩
    exact ⟨e, PageTable.mem_leaves.mp hp⟩
  · rintro ⟨e, hm⟩
    exact ⟨(v, e), PageTable.mem_leaves.mpr hm, rfl⟩

/-- The level and the number of the table in page number `q`. -/
def Shape.placeAt (g : Shape) (q : Nat) : Nat × Nat :=
  match g q with
  | some p => (p.level, p.index)
  | none => (0, 0)

namespace Shape.Trim

variable {D : Finset Nat}

/-- A trim space has the tables that the pages it maps need, and the root. -/
theorem table_iff (h : g.Trim m r) (hf : g.Fits m) (hr : g.IsRoot r)
    (hD : ∀ v, v ∈ D ↔ m.mapped r v ≠ none) {l i : Nat} :
    (∃ q, g q = some ⟨r, l, i⟩) ↔ (l, i) = (3, 0) ∨ (l, i) ∈ placesFor D := by
  rw [mem_placesFor, Prod.mk.injEq]
  constructor
  · rintro ⟨q, hq⟩
    by_cases hl : l = 3
    · subst hl
      exact .inl ⟨rfl, (hf.top hq).2⟩
    · obtain ⟨v, hi, hv⟩ := h hq hl
      have hle : l ≤ 3 := hf.level_le hq
      exact .inr ⟨by omega, v, (hD v).mpr hv, hi⟩
  · rintro (⟨rfl, rfl⟩ | ⟨hl, v, hv, rfl⟩)
    · exact ⟨r, hr⟩
    · obtain ⟨e, hm⟩ := Option.ne_none_iff_exists'.mp ((hD v).mp hv)
      obtain ⟨q, hq, -⟩ := (hf.mapped_iff hr).mp hm
      obtain ⟨c, hc⟩ := hf.ancestor hq (k := l) (by omega)
      rw [Nat.zero_add, Nat.div_div_eq_div_mul, ← Nat.pow_succ'] at hc
      exact ⟨c, hc⟩

/-- **The number of tables of a trim space.** -/
theorem length_tables (h : g.Trim m r) (hf : g.Fits m) (hr : g.IsRoot r)
    (hD : ∀ v, v ∈ D ↔ m.mapped r v ≠ none) :
    (m.tablesBelow 3 r).length = (placesFor D).card + 1 := by
  have hplaces : (m.tablesBelow 3 r).toFinset.image g.placeAt = insert (3, 0) (placesFor D) := by
    ext ⟨l, i⟩
    rw [Finset.mem_insert, ← h.table_iff hf hr hD, Finset.mem_image]
    constructor
    · rintro ⟨q, hq, hplace⟩
      obtain ⟨l', i', hq⟩ := (hf.mem_tables hr).mp (List.mem_toFinset.mp hq)
      unfold placeAt at hplace
      rw [hq] at hplace
      cases hplace
      exact ⟨q, hq⟩
    · rintro ⟨q, hq⟩
      refine ⟨q, List.mem_toFinset.mpr ((hf.mem_tables hr).mpr ⟨l, i, hq⟩), ?_⟩
      unfold placeAt
      rw [hq]
  have hinj : Set.InjOn g.placeAt (m.tablesBelow 3 r).toFinset := by
    intro q1 h1 q2 h2 heq
    obtain ⟨l1, i1, hq1⟩ := (hf.mem_tables hr).mp (List.mem_toFinset.mp h1)
    obtain ⟨l2, i2, hq2⟩ := (hf.mem_tables hr).mp (List.mem_toFinset.mp h2)
    unfold placeAt at heq
    rw [hq1, hq2] at heq
    cases heq
    exact hf.injective hq1 hq2
  have hroot : (3, 0) ∉ placesFor D := fun hmem => absurd (mem_placesFor.mp hmem).1 (by decide)
  calc (m.tablesBelow 3 r).length
      = (m.tablesBelow 3 r).toFinset.card :=
        (List.toFinset_card_of_nodup (hf.nodup_tablesBelow hr)).symm
    _ = ((m.tablesBelow 3 r).toFinset.image g.placeAt).card :=
        (Finset.card_image_of_injOn hinj).symm
    _ = (insert (3, 0) (placesFor D)).card := by rw [hplaces]
    _ = (placesFor D).card + 1 := Finset.card_insert_of_notMem hroot

/-- **One page more** needs as many tables more as are missing on the way to it. -/
theorem card_insert (h : g.Trim m r) (hf : g.Fits m) (hr : g.IsRoot r)
    (hD : ∀ v, v ∈ D ↔ m.mapped r v ≠ none) {v : Nat} (hv : v < pagesPerSpace) :
    (placesFor (insert v D)).card = (placesFor D).card + (m.reach v 3 r).2 := by
  have hle := Trees.reach_le m v 3 r
  have hmissing : wayPlaces v \ placesFor D =
      (Finset.range (m.reach v 3 r).2).image fun l => (l, v / 512 ^ (l + 1)) := by
    ext ⟨l, i⟩
    simp only [Finset.mem_sdiff, mem_wayPlaces, Finset.mem_image, Finset.mem_range, Prod.mk.injEq]
    constructor
    · rintro ⟨⟨hl, rfl⟩, hnot⟩
      refine ⟨l, ?_, rfl, rfl⟩
      by_contra hge
      have htable := (hf.reach_le_iff hr hv (by omega)).mp (Nat.not_lt.mp hge)
      rcases (h.table_iff hf hr hD).mp htable with hroot | hmem
      · exact Nat.ne_of_lt hl (Prod.mk.inj hroot).1
      · exact hnot hmem
    · rintro ⟨l, hl, rfl, rfl⟩
      refine ⟨⟨by omega, rfl⟩, fun hmem => ?_⟩
      have htable := (h.table_iff hf hr hD).mpr (.inr hmem)
      exact absurd ((hf.reach_le_iff hr hv (by omega)).mpr htable) (Nat.not_le.mpr hl)
  have hinj : Function.Injective fun l => (l, v / 512 ^ (l + 1)) := fun l1 l2 heq =>
    (Prod.mk.inj heq).1
  rw [placesFor_insert, ← Finset.sdiff_union_self_eq_union,
    Finset.card_union_of_disjoint Finset.sdiff_disjoint, hmissing,
    Finset.card_image_of_injective _ hinj, Finset.card_range, Nat.add_comm]

end Shape.Trim

end PagedKernel
