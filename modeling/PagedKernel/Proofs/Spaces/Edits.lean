import Mathlib.Logic.Function.Basic
import PagedKernel.Proofs.Spaces.Shape

/-!
# Changes to page tables

Page tables change in five ways only: the slot of a leaf gets another entry, an empty table is hung
into an empty slot of an inner table or taken out of it again, and an empty table becomes the root
of a new address space or stops being one. After each the shape of the tables, changed at one page
at most, describes the trees again, and each but the first leaves every space mapping what it
mapped. The shape fits again if no leaf points to the page that becomes a table.

Key definitions: `Memory.Vacant`, `Shape.Unmapped`.
Key theorems: `Shape.Trees.setLeaf`, `Shape.Trees.hang`, `Shape.Trees.unhang`,
`Shape.Trees.newRoot`, `Shape.Trees.dropRoot`.
-/

namespace PagedKernel

variable {n : Nat} {g : Shape} {m : Memory n}

/-- All slots of page number `c` are empty. -/
def Memory.Vacant (m : Memory n) (c : Nat) : Prop :=
  ∀ s < 512, (m.slot c s).page? = none

theorem Memory.Vacant.setSlot {q c s : Nat} {e : Entry} (hv : m.Vacant c) (hs : s < 512)
    (hc : c ≠ q) : (m.setSlot q s e).Vacant c := fun s1 hs1 => by
  rw [Memory.slot_setSlot_ne hs hs1 fun ⟨hcq, _⟩ => hc hcq]
  exact hv s1 hs1

/-- No leaf points to page number `c`. -/
def Shape.Unmapped (g : Shape) (m : Memory n) (c : Nat) : Prop :=
  ∀ ⦃q r i s⦄, g q = some ⟨r, 0, i⟩ → s < 512 → (m.slot q s).page? ≠ some c

namespace Shape

variable {c q : Nat} {p p0 : Place}

/-- A table of the shape with another one at page `c` is that one, or it was there before. -/
theorem placed_cases (h : Function.update g c (some p0) q = some p) :
    q = c ∧ p0 = p ∨ q ≠ c ∧ g q = some p := by
  by_cases hqc : q = c
  · simp only [hqc, Function.update_self, Option.some.injEq] at h
    exact .inl ⟨hqc, h⟩
  · rw [Function.update_of_ne hqc] at h
    exact .inr ⟨hqc, h⟩

theorem placed_of_some (hc : g c = none) (hq : g q = some p) :
    Function.update g c (some p0) q = some p := by
  rwa [Function.update_of_ne]
  rintro rfl
  rw [hc] at hq
  cases hq

theorem dropped_some (h : Function.update g c none q = some p) : q ≠ c ∧ g q = some p := by
  by_cases hqc : q = c
  · rw [hqc, Function.update_self] at h
    cases h
  · rw [Function.update_of_ne hqc] at h
    exact ⟨hqc, h⟩

theorem dropped_none (h : g q = none) : Function.update g c none q = none := by
  by_cases hqc : q = c
  · rw [hqc, Function.update_self]
  · rw [Function.update_of_ne hqc, h]

/-- Only slots of an inner table change when a table is hung or taken out. -/
theorem slot_setSlot_leaf {r l i s : Nat} {e : Entry} (hq : g q = some ⟨r, l + 1, i⟩) (hs : s < 512)
    {q1 r1 i1 s1 : Nat} (hq1 : g q1 = some ⟨r1, 0, i1⟩) (hs1 : s1 < 512) :
    (m.setSlot q s e).slot q1 s1 = m.slot q1 s1 :=
  Memory.slot_setSlot_ne hs hs1 fun ⟨hqq, _⟩ => by
    rw [hqq, hq] at hq1
    cases hq1

end Shape

namespace Shape.Trees

/-! ### The slot of a leaf -/

section
variable {q r i s : Nat} {e : Entry}

theorem setLeaf (h : g.Trees m) (hq : g q = some ⟨r, 0, i⟩) (hs : s < 512) (e : Entry) :
    g.Trees (m.setSlot q s e) where
  installed := h.installed
  level_le := h.level_le
  top := h.top
  child := by
    intro q1 r1 l1 i1 s1 c1 hq1 hs1 hc1
    rw [Memory.slot_setSlot_ne hs hs1] at hc1
    · exact h.child hq1 hs1 hc1
    · intro hx
      obtain ⟨rfl, -⟩ := hx
      rw [hq] at hq1
      cases hq1
  parent := by
    intro q1 r1 l1 i1 hq1 hl1
    obtain ⟨q', hq', hc⟩ := h.parent hq1 hl1
    refine ⟨q', hq', ?_⟩
    rwa [Memory.slot_setSlot_ne hs (mod_slots_lt i1)]
    intro hx
    obtain ⟨rfl, -⟩ := hx
    rw [hq] at hq'
    cases hq'

theorem mapped_setLeaf (h : g.Trees m) (hq : g q = some ⟨r, 0, i⟩) (hs : s < 512) (e : Entry) :
    (m.setSlot q s e).mapped r =
      Function.update (m.mapped r) (512 * i + s) (if e.present then some e else none) := by
  have h' := h.setLeaf hq hs e
  funext v
  refine Option.ext fun e1 => ?_
  rw [h'.mapped_iff (h.isRoot hq)]
  by_cases hv : v = 512 * i + s
  · -- the place of the slot: the leaf table can only be `q`
    subst hv
    rw [Function.update_self, show (512 * i + s) / 512 = i by omega,
      show (512 * i + s) % 512 = s by omega]
    constructor
    · intro hx
      obtain ⟨q1, hq1, rfl, hp⟩ := hx
      obtain rfl := h.injective hq hq1
      rw [Memory.slot_setSlot_self (h.installed hq) hs] at hp ⊢
      rw [if_pos hp]
    · intro he1
      split at he1
      · next hp =>
        obtain rfl := Option.some.inj he1
        exact ⟨q, hq, Memory.slot_setSlot_self (h.installed hq) hs, hp⟩
      · exact nomatch he1
  · rw [Function.update_of_ne hv, h.mapped_iff (h.isRoot hq)]
    have hslot : ∀ q1, g q1 = some ⟨r, 0, v / 512⟩ →
        (m.setSlot q s e).slot q1 (v % 512) = m.slot q1 (v % 512) := fun q1 hq1 =>
      Memory.slot_setSlot_ne hs (mod_slots_lt _) fun ⟨hqq, hss⟩ => by
        rw [hqq, hq] at hq1
        cases hq1
        exact hv (by omega)
    constructor
    · intro hx
      obtain ⟨q1, hq1, rfl, hp⟩ := hx
      rw [hslot q1 hq1] at hp ⊢
      exact ⟨q1, hq1, rfl, hp⟩
    · intro hx
      obtain ⟨q1, hq1, rfl, hp⟩ := hx
      exact ⟨q1, hq1, hslot q1 hq1, hp⟩

theorem mapped_setLeaf_ne (h : g.Trees m) (hq : g q = some ⟨r, 0, i⟩) (hs : s < 512) (e : Entry)
    {r' : Nat} (hr' : g.IsRoot r') (hne : r' ≠ r) :
    (m.setSlot q s e).mapped r' = m.mapped r' := by
  refine h.mapped_congr (h.setLeaf hq hs e) hr' hr' (fun _ _ => Iff.rfl) fun q1 i1 hq1 s1 hs1 => ?_
  refine Memory.slot_setSlot_ne hs hs1 fun ⟨hqq, _⟩ => hne ?_
  rw [hqq, hq] at hq1
  cases hq1
  rfl

end

/-! ### A table below another -/

section
variable {q c r l i s : Nat}

theorem hang (h : g.Trees m) (hq : g q = some ⟨r, l + 1, i⟩) (hs : s < 512)
    (hempty : (m.slot q s).page? = none) (hc : g c = none) (hcn : c < n) (hv : m.Vacant c)
    {e : Entry} (he : e.page? = some c) :
    Shape.Trees (Function.update g c (some ⟨r, l, 512 * i + s⟩)) (m.setSlot q s e) := by
  have hqc : q ≠ c := by
    rintro rfl
    rw [hc] at hq
    cases hq
  have hvac : ∀ {s1}, s1 < 512 → ((m.setSlot q s e).slot c s1).page? = none := fun hs1 => by
    rw [Memory.slot_setSlot_ne hs hs1 fun hcq => hqc hcq.1.symm]
    exact hv _ hs1
  constructor
  case installed =>
    intro q1 p hq1
    rcases placed_cases hq1 with ⟨rfl, -⟩ | ⟨-, hq1⟩
    · exact hcn
    · exact h.installed hq1
  case level_le =>
    intro q1 p hq1
    rcases placed_cases hq1 with ⟨-, rfl⟩ | ⟨-, hq1⟩
    · exact Nat.le_of_lt (h.level_le hq)
    · exact h.level_le hq1
  case top =>
    intro q1 r1 i1 hq1
    rcases placed_cases hq1 with ⟨-, heq⟩ | ⟨-, hq1⟩
    · cases heq
      exact absurd (show 4 ≤ 3 from h.level_le hq) (by decide)
    · exact h.top hq1
  case child =>
    intro q1 r1 l1 i1 s1 c1 hq1 hs1 hc1
    rcases placed_cases hq1 with ⟨rfl, -⟩ | ⟨-, hold⟩
    · rw [hvac hs1] at hc1
      cases hc1
    rw [Memory.slot_setSlot (h.installed hq) hs hs1] at hc1
    split at hc1
    · next heq =>
      obtain ⟨rfl, rfl⟩ := heq
      rw [hq] at hold
      cases hold
      rw [he] at hc1
      cases hc1
      exact Function.update_self ..
    · exact placed_of_some hc (h.child hold hs1 hc1)
  case parent =>
    intro q1 r1 l1 i1 hq1 hl1
    rcases placed_cases hq1 with ⟨rfl, heq⟩ | ⟨-, hq1⟩
    · cases heq
      refine ⟨q, ?_, ?_⟩
      · rw [show (512 * i + s) / 512 = i by omega]
        exact placed_of_some hc hq
      · rw [show (512 * i + s) % 512 = s by omega, Memory.slot_setSlot_self (h.installed hq) hs, he]
    · obtain ⟨q', hq', hc'⟩ := h.parent hq1 hl1
      refine ⟨q', placed_of_some hc hq', ?_⟩
      rwa [Memory.slot_setSlot_ne hs (mod_slots_lt i1)]
      rintro ⟨rfl, rfl⟩
      rw [hempty] at hc'
      cases hc'

/-- The only entry for the place of a table points to it. -/
theorem slot_of_child (h : g.Trees m) (hq : g q = some ⟨r, l + 1, i⟩) (hs : s < 512)
    (hc : g c = some ⟨r, l, 512 * i + s⟩) : (m.slot q s).page? = some c := by
  have hl : l + 1 ≤ 3 := h.level_le hq
  obtain ⟨q', hq', hc'⟩ := h.parent hc (by omega)
  rw [show (512 * i + s) / 512 = i by omega] at hq'
  rw [show (512 * i + s) % 512 = s by omega] at hc'
  rwa [h.injective hq hq']

theorem unhang (h : g.Trees m) (hq : g q = some ⟨r, l + 1, i⟩) (hs : s < 512)
    (hc : g c = some ⟨r, l, 512 * i + s⟩) (hv : m.Vacant c) {e : Entry} (he : e.page? = none) :
    Shape.Trees (Function.update g c none) (m.setSlot q s e) := by
  have hslot := h.slot_of_child hq hs hc
  constructor
  case installed => exact fun hq1 => h.installed (dropped_some hq1).2
  case level_le => exact fun hq1 => h.level_le (dropped_some hq1).2
  case top => exact fun hq1 => h.top (dropped_some hq1).2
  case child =>
    intro q1 r1 l1 i1 s1 c1 hq1 hs1 hc1
    rw [Memory.slot_setSlot (h.installed hq) hs hs1] at hc1
    split at hc1
    · rw [he] at hc1
      cases hc1
    · next hne =>
      have hg := h.child (dropped_some hq1).2 hs1 hc1
      rw [Function.update_of_ne]
      · exact hg
      · rintro rfl
        simp only [hc, Option.some.injEq, Place.mk.injEq] at hg
        obtain ⟨rfl, rfl, hi⟩ := hg
        obtain rfl : i = i1 := by omega
        exact hne ⟨h.injective (dropped_some hq1).2 hq, by omega⟩
  case parent =>
    intro q1 r1 l1 i1 hq1 hl1
    obtain ⟨q', hq', hc'⟩ := h.parent (dropped_some hq1).2 hl1
    refine ⟨q', ?_, ?_⟩
    · rw [Function.update_of_ne]
      · exact hq'
      · rintro rfl
        rw [hv _ (mod_slots_lt _)] at hc'
        cases hc'
    · rwa [Memory.slot_setSlot_ne hs (mod_slots_lt i1)]
      intro hx
      obtain ⟨rfl, rfl⟩ := hx
      rw [hslot] at hc'
      exact (dropped_some hq1).1 (Option.some.inj hc').symm

end

/-- **A space maps the same after a vacant table has been hung or taken out.** The two shapes may
differ at the page `c` of that table, whose slots are empty, and the two memories at the slots of
inner tables. -/
theorem mapped_eq_of_vacant {g' : Shape} {m' : Memory n} {c : Nat} (h : g.Trees m)
    (h' : g'.Trees m') (hg : ∀ q, q ≠ c → g' q = g q) (hv : m.Vacant c) (hv' : m'.Vacant c)
    (hs : ∀ q r i s, g q = some ⟨r, 0, i⟩ → q ≠ c → s < 512 → m'.slot q s = m.slot q s)
    {r : Nat} (hr : g.IsRoot r) (hr' : g'.IsRoot r) : m'.mapped r = m.mapped r := by
  have hne : ∀ {m1 : Memory n}, m1.Vacant c → ∀ {q v e}, m1.slot q (v % 512) = e →
      e.present = true → q ≠ c := by
    intro m1 hv1 q v e he hp hqc
    have hnone := hv1 _ (mod_slots_lt v)
    rw [← hqc, he, Entry.page?_eq_none, hp] at hnone
    cases hnone
  funext v
  refine Option.ext fun e => ?_
  rw [h'.mapped_iff hr', h.mapped_iff hr]
  constructor
  · intro hx
    obtain ⟨q, hq, he, hp⟩ := hx
    have hqc := hne hv' he hp
    rw [hg q hqc] at hq
    rw [hs q _ _ _ hq hqc (mod_slots_lt v)] at he
    exact ⟨q, hq, he, hp⟩
  · intro hx
    obtain ⟨q, hq, he, hp⟩ := hx
    have hqc := hne hv he hp
    refine ⟨q, ?_, ?_, hp⟩
    · rwa [hg q hqc]
    · rwa [hs q _ _ _ hq hqc (mod_slots_lt v)]

/-- A vacant table that is hung maps nothing. -/
theorem mapped_hang (h : g.Trees m) {q c r l i s : Nat} (hq : g q = some ⟨r, l + 1, i⟩)
    (hs : s < 512) (hempty : (m.slot q s).page? = none) (hc : g c = none) (hcn : c < n)
    (hv : m.Vacant c) {e : Entry} (he : e.page? = some c) {r' : Nat} (hr : g.IsRoot r') :
    (m.setSlot q s e).mapped r' = m.mapped r' := by
  have hcq : c ≠ q := by
    rintro rfl
    rw [hc] at hq
    cases hq
  exact h.mapped_eq_of_vacant (h.hang hq hs hempty hc hcn hv he)
    (fun _ hq1 => Function.update_of_ne hq1 _ g) hv (hv.setSlot hs hcq)
    (fun _ _ _ _ hq1 _ hs1 => slot_setSlot_leaf hq hs hq1 hs1) hr (placed_of_some hc hr)

/-! ### Roots -/

section
variable {c : Nat}

theorem newRoot (h : g.Trees m) (hc : g c = none) (hcn : c < n) (hv : m.Vacant c) :
    Shape.Trees (Function.update g c (some ⟨c, 3, 0⟩)) m := by
  constructor
  case installed =>
    intro q1 p hq1
    rcases placed_cases hq1 with ⟨rfl, -⟩ | ⟨-, hq1⟩
    · exact hcn
    · exact h.installed hq1
  case level_le =>
    intro q1 p hq1
    rcases placed_cases hq1 with ⟨-, rfl⟩ | ⟨-, hq1⟩
    · exact le_rfl
    · exact h.level_le hq1
  case top =>
    intro q1 r1 i1 hq1
    rcases placed_cases hq1 with ⟨hqc, heq⟩ | ⟨-, hq1⟩
    · cases heq
      exact ⟨hqc, rfl⟩
    · exact h.top hq1
  case child =>
    intro q1 r1 l1 i1 s1 c1 hq1 hs1 hc1
    rcases placed_cases hq1 with ⟨rfl, -⟩ | ⟨-, hq1⟩
    · rw [hv _ hs1] at hc1
      cases hc1
    · exact placed_of_some hc (h.child hq1 hs1 hc1)
  case parent =>
    intro q1 r1 l1 i1 hq1 hl1
    rcases placed_cases hq1 with ⟨-, heq⟩ | ⟨-, hq1⟩
    · cases heq
      exact absurd hl1 (by decide)
    · obtain ⟨q', hq', hc'⟩ := h.parent hq1 hl1
      exact ⟨q', placed_of_some hc hq', hc'⟩

theorem dropRoot (h : g.Trees m) (hc : g.IsRoot c) (hv : m.Vacant c) :
    Shape.Trees (Function.update g c none) m := by
  constructor
  case installed => exact fun hq1 => h.installed (dropped_some hq1).2
  case level_le => exact fun hq1 => h.level_le (dropped_some hq1).2
  case top => exact fun hq1 => h.top (dropped_some hq1).2
  case child =>
    intro q1 r1 l1 i1 s1 c1 hq1 hs1 hc1
    have hg := h.child (dropped_some hq1).2 hs1 hc1
    rwa [Function.update_of_ne]
    rintro rfl
    have hl : l1 + 1 ≤ 3 := h.level_le (dropped_some hq1).2
    have hc : g c1 = some ⟨c1, 3, 0⟩ := hc
    simp only [hc, Option.some.injEq, Place.mk.injEq] at hg
    omega
  case parent =>
    intro q1 r1 l1 i1 hq1 hl1
    obtain ⟨q', hq', hc'⟩ := h.parent (dropped_some hq1).2 hl1
    refine ⟨q', ?_, hc'⟩
    rwa [Function.update_of_ne]
    rintro rfl
    rw [hv _ (mod_slots_lt _)] at hc'
    cases hc'

/-- Once its root is vacant, a space has no other table. -/
theorem eq_root_of_vacant (h : g.Trees m) (hv : m.Vacant c) {q l i : Nat}
    (hq : g q = some ⟨c, l, i⟩) : q = c := by
  have hl : l ≤ 3 := h.level_le hq
  by_cases hl3 : l = 3
  · subst hl3
    exact (h.top hq).1
  · obtain ⟨q2, hq2⟩ := h.ancestor hq (k := 2 - l) (by omega)
    rw [show l + (2 - l) = 2 by omega] at hq2
    obtain ⟨q3, hq3, hc⟩ := h.parent hq2 (by decide)
    rw [(h.top hq3).1, hv _ (mod_slots_lt _)] at hc
    cases hc

theorem mapped_of_vacant (h : g.Trees m) (hr : g.IsRoot c) (hv : m.Vacant c) :
    m.mapped c = fun _ => none := by
  funext v
  refine h.mapped_none hr fun q hq => ?_
  rw [h.eq_root_of_vacant hv hq]
  exact Entry.page?_eq_none.mp (hv _ (mod_slots_lt v))

end

end Shape.Trees

/-! ### Leaves -/

namespace Shape.Fits

section
variable {q c r l i s : Nat} {e : Entry}

theorem setLeaf (h : g.Fits m) (hq : g q = some ⟨r, 0, i⟩) (hs : s < 512)
    (he : ∀ c, e.page? = some c → g c = none ∧ c < n) : g.Fits (m.setSlot q s e) where
  toTrees := h.toTrees.setLeaf hq hs e
  leaf := by
    intro q1 r1 i1 s1 c1 hq1 hs1 hc1
    rw [Memory.slot_setSlot (h.installed hq) hs hs1] at hc1
    split at hc1
    · exact he c1 hc1
    · exact h.leaf hq1 hs1 hc1

theorem hang (h : g.Fits m) (hq : g q = some ⟨r, l + 1, i⟩) (hs : s < 512)
    (hempty : (m.slot q s).page? = none) (hc : g c = none) (hcn : c < n) (hv : m.Vacant c)
    (hu : g.Unmapped m c) (he : e.page? = some c) :
    Shape.Fits (Function.update g c (some ⟨r, l, 512 * i + s⟩)) (m.setSlot q s e) where
  toTrees := h.toTrees.hang hq hs hempty hc hcn hv he
  leaf := by
    intro q1 r1 i1 s1 c1 hq1 hs1 hc1
    have hqc : q ≠ c := by
      rintro rfl
      rw [hc] at hq
      cases hq
    rcases placed_cases hq1 with ⟨rfl, -⟩ | ⟨-, hq1⟩
    · rw [Memory.slot_setSlot_ne hs hs1 fun hcq => hqc hcq.1.symm, hv _ hs1] at hc1
      cases hc1
    rw [Memory.slot_setSlot_ne hs hs1] at hc1
    · rw [Function.update_of_ne fun hcc : c1 = c => hu hq1 hs1 (hcc ▸ hc1)]
      exact h.leaf hq1 hs1 hc1
    · rintro ⟨rfl, -⟩
      rw [hq] at hq1
      cases hq1

theorem unhang (h : g.Fits m) (hq : g q = some ⟨r, l + 1, i⟩) (hs : s < 512)
    (hc : g c = some ⟨r, l, 512 * i + s⟩) (hv : m.Vacant c) (he : e.page? = none) :
    Shape.Fits (Function.update g c none) (m.setSlot q s e) where
  toTrees := h.toTrees.unhang hq hs hc hv he
  leaf := by
    intro q1 r1 i1 s1 c1 hq1 hs1 hc1
    have hq1 := (dropped_some hq1).2
    rw [Memory.slot_setSlot_ne hs hs1] at hc1
    · obtain ⟨hnone, hlt⟩ := h.leaf hq1 hs1 hc1
      exact ⟨dropped_none hnone, hlt⟩
    · intro hx
      obtain ⟨rfl, -⟩ := hx
      rw [hq] at hq1
      cases hq1

theorem newRoot (h : g.Fits m) (hc : g c = none) (hcn : c < n) (hv : m.Vacant c)
    (hu : g.Unmapped m c) : Shape.Fits (Function.update g c (some ⟨c, 3, 0⟩)) m where
  toTrees := h.toTrees.newRoot hc hcn hv
  leaf := by
    intro q1 r1 i1 s1 c1 hq1 hs1 hc1
    rcases placed_cases hq1 with ⟨rfl, -⟩ | ⟨-, hq1⟩
    · rw [hv _ hs1] at hc1
      cases hc1
    · rw [Function.update_of_ne fun hcc : c1 = c => hu hq1 hs1 (hcc ▸ hc1)]
      exact h.leaf hq1 hs1 hc1

theorem dropRoot (h : g.Fits m) (hc : g.IsRoot c) (hv : m.Vacant c) :
    Shape.Fits (Function.update g c none) m where
  toTrees := h.toTrees.dropRoot hc hv
  leaf := by
    intro q1 r1 i1 s1 c1 hq1 hs1 hc1
    obtain ⟨hnone, hlt⟩ := h.leaf (dropped_some hq1).2 hs1 hc1
    exact ⟨dropped_none hnone, hlt⟩

end

end Shape.Fits

end PagedKernel
