import PagedKernel.Proofs.Spaces.Accounts
import PagedKernel.Proofs.Spaces.Walks

/-!
# What a change leaves alone

A change of the page tables is mostly one of a single space, and often of none. `Kept` says which
spaces it leaves alone: those that `P` picks out have the tables that they had, and these and the
pages they map hold what they held. Such changes compose, and each of the elementary ones is of this
kind. A change that leaves all spaces alone changes no count, nor a page in use (`Kept.sameUse`).

What such a change touches besides are tables of its own space and pages that nobody used
(`Touched`). If it makes space only, every page in use stays so (`Grown`).

Key definitions: `Kept`, `Wrote`, `Touched`, `Grown`.
Key theorems: `Kept.trans`, `Kept.sameUse`, `Kept.congr`, `Kept.setLeaf`, `Kept.hang`,
`Kept.unhang`, `Grown.trans`.
-/

namespace PagedKernel

variable {n : Nat} {g : Shape}

/-- The spaces that `P` picks out have the same tables, map the same and hold the same in `g'` and
`f'` as in `g` and `f`. No entry of an inner table is new but one that allows everything, and no
page holds a new table but one that the allocator hands out. -/
structure Kept (P : Nat → Prop) (g : Shape) (f : Frames n) (g' : Shape) (f' : Frames n) : Prop where
  place : ∀ {q r l i}, P r → (g' q = some ⟨r, l, i⟩ ↔ g q = some ⟨r, l, i⟩)
  mapped : ∀ {r}, P r → g.IsRoot r → f'.memory.mapped r = f.memory.mapped r
  table : ∀ {q r l i}, P r → g q = some ⟨r, l, i⟩ → ∀ a, a / pageSize = q →
    f'.memory.byte a = f.memory.byte a
  byte : ∀ {r v e}, P r → g.IsRoot r → f.memory.mapped r v = some e → ∀ a,
    a / pageSize = e.addr.pageNumber → f'.memory.byte a = f.memory.byte a
  inner : ∀ {q r l i s c}, g' q = some ⟨r, l + 1, i⟩ → s < 512 →
    (f'.memory.slot q s).page? = some c → f'.memory.slot q s = .link (pageAt c) .table ∨
      (g q = some ⟨r, l + 1, i⟩ ∧ f.memory.slot q s = f'.memory.slot q s)
  high : ∀ {q p}, g' q = some p → g q = some p ∨ allocatableStart ≤ q * pageSize

namespace Kept

variable {P : Nat → Prop} {g' g'' : Shape} {held : List Nat} {f f' f'' : Frames n}

theorem isRoot (h : Kept P g f g' f') {r : Nat} (hr : P r) : g'.IsRoot r ↔ g.IsRoot r :=
  h.place hr

theorem refl (P : Nat → Prop) (g : Shape) (f : Frames n) : Kept P g f g f :=
  ⟨fun _ => Iff.rfl, fun _ _ => rfl, fun _ _ _ _ => rfl, fun _ _ _ _ _ => rfl,
    fun hq _ _ => .inr ⟨hq, rfl⟩, .inl⟩

theorem trans (h : Kept P g f g' f') (h' : Kept P g' f' g'' f'') : Kept P g f g'' f'' where
  place hr := (h'.place hr).trans (h.place hr)
  mapped hr hg := (h'.mapped hr ((h.isRoot hr).mpr hg)).trans (h.mapped hr hg)
  table hr hq a ha := (h'.table hr ((h.place hr).mpr hq) a ha).trans (h.table hr hq a ha)
  byte hr hg hm a ha := by
    rw [h'.byte hr ((h.isRoot hr).mpr hg) ((h.mapped hr hg).symm ▸ hm) a ha, h.byte hr hg hm a ha]
  inner hq hs hc := by
    rcases h'.inner hq hs hc with hl | ⟨hq', hs'⟩
    · exact .inl hl
    · rw [← hs'] at hc ⊢
      exact h.inner hq' hs hc
  high hq := (h'.high hq).elim h.high .inr

theorem mono {P' : Nat → Prop} (h : Kept P g f g' f') (hP : ∀ r, P' r → P r) :
    Kept P' g f g' f' where
  place hr := h.place (hP _ hr)
  mapped hr := h.mapped (hP _ hr)
  table hr := h.table (hP _ hr)
  byte hr := h.byte (hP _ hr)
  inner := h.inner
  high := h.high

/-- A space that was not there and is not there again does not count. -/
theorem all {t : Nat} (h : Kept (· ≠ t) g f g' f') (hf : g.Fits f.memory) (hf' : g'.Fits f'.memory)
    (ht : ¬ g.IsRoot t) (ht' : ¬ g'.IsRoot t) : Kept P g f g' f' where
  place {q r l i} _ := by
    by_cases hrt : r = t
    · subst hrt
      exact iff_of_false (fun hq => ht' (hf'.isRoot hq)) fun hq => ht (hf.isRoot hq)
    · exact h.place hrt
  mapped _ hr := h.mapped (fun hrt => ht (hrt ▸ hr)) hr
  table _ hq := h.table (fun hrt => ht (hrt ▸ hf.isRoot hq)) hq
  byte _ hr := h.byte (fun hrt => ht (hrt ▸ hr)) hr
  inner := h.inner
  high := h.high

theorem linked (h : Kept P g f g' f') (hk : g.Linked f.memory) : g'.Linked f'.memory := by
  intro q r l i s c hq hs hc
  rcases h.inner hq hs hc with hl | ⟨hq', hs'⟩
  · exact hl
  · rw [← hs'] at hc ⊢
    exact hk hq' hs hc

theorem tables_high (h : Kept P g f g' f')
    (hg : ∀ {q p}, g q = some p → allocatableStart ≤ q * pageSize) {q : Nat} {p : Place}
    (hq : g' q = some p) : allocatableStart ≤ q * pageSize :=
  (h.high hq).elim hg id

/-- A change of pages that hold no table and that no space of `P` maps. -/
theorem congr (h : g.Fits f.memory)
    (hb : ∀ a, g (a / pageSize) ≠ none → f'.memory.byte a = f.memory.byte a)
    (hm : ∀ {r v e}, P r → g.IsRoot r → f.memory.mapped r v = some e → ∀ a,
      a / pageSize = e.addr.pageNumber → f'.memory.byte a = f.memory.byte a) :
    Kept P g f g f' := by
  have hs := Accounted.slot_congr hb
  refine ⟨fun _ => Iff.rfl, fun _ hr => ?_, fun _ hq a ha => ?_, hm,
    fun hq hs1 _ => .inr ⟨hq, ?_⟩, .inl⟩
  · exact h.mapped_congr (h.congr hs).toTrees hr hr (fun _ _ => Iff.rfl)
      fun q i hq => hs q (hq ▸ Option.some_ne_none _)
  · exact hb a (ha ▸ hq ▸ Option.some_ne_none _)
  · exact (hs _ (hq ▸ Option.some_ne_none _) _ hs1).symm

theorem of_memory_eq (h : g.Fits f.memory) (hm : f'.memory = f.memory) : Kept P g f g f' :=
  congr h (fun _ _ => by rw [hm]) fun _ _ _ _ _ => by rw [hm]

theorem of_in_use (h : Accounted g held f)
    (hb : ∀ a, f.count (a / pageSize) ≠ 0 → f'.memory.byte a = f.memory.byte a) :
    Kept P g f g f' :=
  congr h.fits (fun a ha => hb a (h.table_in_use ha)) fun _ hr hm a ha =>
    hb a (ha ▸ h.count_mapped hr hm)

/-! ### A change that leaves all spaces alone -/

theorem shape_eq (h : Kept (fun _ => True) g f g' f') : g' = g := by
  funext q
  refine Option.ext fun p => ?_
  obtain ⟨r, l, i⟩ := p
  exact h.place trivial

/-- **If no space changes, no count does**, and no page in use. -/
theorem sameUse (h : Kept (fun _ => True) g f g' f') (ha : Accounted g [] f)
    (ha' : Accounted g' [] f') : Frames.SameUse f f' := by
  obtain rfl := h.shape_eq
  have htable : ∀ a, g' (a / pageSize) ≠ none → f'.memory.byte a = f.memory.byte a := fun a hq => by
    obtain ⟨⟨r, l, i⟩, hq⟩ := Option.ne_none_iff_exists'.mp hq
    exact h.table trivial hq a rfl
  refine ⟨fun q => ?_, fun a hcount => ?_⟩
  · by_cases hq : q < n
    · rw [ha.count q hq, ha'.count q hq, Accounted.leafRefs_eq htable]
    · rw [f.count_of_ge (Nat.not_lt.mp hq), f'.count_of_ge (Nat.not_lt.mp hq)]
  · rcases ha.user hcount with hq | ⟨r, v, e, hr, hm, hpage⟩
    · exact htable a hq
    · exact h.byte trivial hr hm a hpage.symm

/-! ### The elementary changes -/

/-- A slot of a table is no byte of a page that some space maps. -/
theorem byte_setSlot {q s : Nat} {e : Entry} {p : Place} (h : g.Fits f.memory) (hq : g q = some p)
    (hs : s < 512) {r v : Nat} {e1 : Entry} (hr : g.IsRoot r) (hm : f.memory.mapped r v = some e1)
    (a : Nat) (ha : a / pageSize = e1.addr.pageNumber) :
    (f.setSlot q s e).memory.byte a = f.memory.byte a := by
  refine Memory.byte_setSlot hs fun haq => ?_
  rw [← haq, ha, (h.mapped_target hr hm).1] at hq
  cases hq

theorem byte_setSlot_table {q r l i s : Nat} {e : Entry} (hq : g q = some ⟨r, l, i⟩) (hs : s < 512)
    {q1 r1 l1 i1 : Nat} (hq1 : g q1 = some ⟨r1, l1, i1⟩) (hne : r1 ≠ r) (a : Nat)
    (ha : a / pageSize = q1) : (f.setSlot q s e).memory.byte a = f.memory.byte a := by
  refine Memory.byte_setSlot hs fun haq => hne ?_
  rw [← ha, haq, hq] at hq1
  cases hq1
  rfl

theorem setLeaf {q r i s : Nat} (h : g.Fits f.memory) (hq : g q = some ⟨r, 0, i⟩) (hs : s < 512)
    (e : Entry) : Kept (· ≠ r) g f g (f.setSlot q s e) where
  place _ := Iff.rfl
  mapped hne hr := h.mapped_setLeaf_ne hq hs e hr hne
  table hne hq1 := byte_setSlot_table hq hs hq1 hne
  byte _ hr hm := byte_setSlot h hq hs hr hm
  inner hq1 hs1 _ := .inr ⟨hq1, by
    refine (Memory.slot_setSlot_ne hs hs1 fun ⟨hqq, _⟩ => ?_).symm
    rw [hqq, hq] at hq1
    cases hq1⟩
  high := .inl

section
variable [Addressable n] {q c r l i s : Nat} {e : Entry}

omit [Addressable n] in
theorem high_update {p : Option Place} (hp : p ≠ none → allocatableStart ≤ c * pageSize) {q1 : Nat}
    {p1 : Place} (hq1 : Function.update g c p q1 = some p1) :
    g q1 = some p1 ∨ allocatableStart ≤ q1 * pageSize := by
  by_cases hqc : q1 = c
  · rw [hqc, Function.update_self] at hq1
    rw [hqc]
    exact .inr (hp (hq1 ▸ Option.some_ne_none _))
  · rw [Function.update_of_ne hqc] at hq1
    exact .inl hq1

omit [Addressable n] in
/-- A page that has held and holds no table of a space does not change the places of its tables. -/
theorem place_update {p : Option Place} {r' l' i' q1 : Nat}
    (hold : ∀ p0, g c = some p0 → r' ≠ p0.root) (hnew : ∀ p0, p = some p0 → r' ≠ p0.root) :
    Function.update g c p q1 = some ⟨r', l', i'⟩ ↔ g q1 = some ⟨r', l', i'⟩ := by
  by_cases hqc : q1 = c
  · rw [hqc, Function.update_self]
    exact iff_of_false (fun hp => hnew _ hp rfl) fun hp => hold _ hp rfl
  · rw [Function.update_of_ne hqc]

theorem hang (h : Accounted g (c :: held) f) (hq : g q = some ⟨r, l + 1, i⟩) (hs : s < 512)
    (hempty : (f.memory.slot q s).page? = none) (h1 : f.count c = 1) (hv : f.memory.Vacant c)
    (hhigh : allocatableStart ≤ c * pageSize) :
    Kept (· ≠ r) g f (Function.update g c (some ⟨r, l, 512 * i + s⟩))
      (f.setSlot q s (.link (pageAt c) .table)) := by
  obtain ⟨hcn, hc⟩ := h.handle c List.mem_cons_self
  have hentry := Entry.page?_link_table hcn
  have hplace : ∀ {q1 r' l' i' : Nat}, r' ≠ r →
      (Function.update g c (some ⟨r, l, 512 * i + s⟩) q1 = some ⟨r', l', i'⟩ ↔
        g q1 = some ⟨r', l', i'⟩) := fun hne =>
    place_update (fun _ hp => nomatch hc.symm.trans hp) fun _ hp => Option.some.inj hp ▸ hne
  refine ⟨hplace, fun _ => h.fits.mapped_hang hq hs hempty hc hcn hv hentry,
    fun hne hq1 => byte_setSlot_table hq hs hq1 hne, fun _ hr hm => byte_setSlot h.fits hq hs hr hm,
    ?_, high_update fun _ => hhigh⟩
  · intro q1 r1 l1 i1 s1 c1 hq1 hs1 hc1
    by_cases heq : q1 = q ∧ s1 = s
    · obtain ⟨rfl, rfl⟩ := heq
      rw [Frames.memory_setSlot, Memory.slot_setSlot_self (h.fits.installed hq) hs] at hc1 ⊢
      rw [hentry] at hc1
      cases hc1
      exact .inl rfl
    · rw [Frames.memory_setSlot, Memory.slot_setSlot_ne hs hs1 heq] at hc1 ⊢
      rcases Shape.placed_cases hq1 with ⟨rfl, -⟩ | ⟨-, hq1⟩
      · rw [hv s1 hs1] at hc1
        cases hc1
      · exact .inr ⟨hq1, rfl⟩

omit [Addressable n] in
theorem unhang (h : Accounted g held f) (hq : g q = some ⟨r, l + 1, i⟩) (hs : s < 512)
    (hc : g c = some ⟨r, l, 512 * i + s⟩) (hv : f.memory.Vacant c) (he : e.page? = none) :
    Kept (· ≠ r) g f (Function.update g c none) (f.setSlot q s e) := by
  have h' := (h.unhang hq hs hc hv he).fits
  have hcq : c ≠ q := by
    rintro rfl
    simp only [hq, Option.some.injEq, Place.mk.injEq] at hc
    omega
  have hplace : ∀ {q1 r' l' i' : Nat}, r' ≠ r →
      (Function.update g c none q1 = some ⟨r', l', i'⟩ ↔ g q1 = some ⟨r', l', i'⟩) := fun hne =>
    place_update (fun _ hp => Option.some.inj (hc.symm.trans hp) ▸ hne) nofun
  refine ⟨hplace, fun hne hr => ?_, fun hne hq1 => byte_setSlot_table hq hs hq1 hne,
    fun _ hr hm => byte_setSlot h.fits hq hs hr hm, ?_, high_update fun hp => absurd rfl hp⟩
  · exact h.fits.mapped_eq_of_vacant h'.toTrees (fun q1 hq1 => Function.update_of_ne hq1 _ g) hv
      (hv.setSlot hs hcq)
      (fun _ _ _ _ hq1 _ hs1 => Shape.slot_setSlot_leaf hq hs hq1 hs1) hr
      ((hplace hne).mpr hr)
  · intro q1 r1 l1 i1 s1 c1 hq1 hs1 hc1
    have hne : ¬ (q1 = q ∧ s1 = s) := by
      rintro ⟨rfl, rfl⟩
      rw [Frames.memory_setSlot, Memory.slot_setSlot_self (h.fits.installed hq) hs, he] at hc1
      cases hc1
    exact .inr ⟨(Shape.dropped_some hq1).2, (Memory.slot_setSlot_ne hs hs1 hne).symm⟩

omit [Addressable n] in
theorem newRoot (hc : g c = none) (hv : f.memory.Vacant c)
    (hhigh : allocatableStart ≤ c * pageSize) :
    Kept (· ≠ c) g f (Function.update g c (some ⟨c, 3, 0⟩)) f where
  place hne :=
    place_update (fun _ hp => nomatch hc.symm.trans hp) fun _ hp => Option.some.inj hp ▸ hne
  mapped _ _ := rfl
  table _ _ _ _ := rfl
  byte _ _ _ _ _ := rfl
  inner := by
    intro q1 r1 l1 i1 s1 c1 hq1 hs1 hc1
    rcases Shape.placed_cases hq1 with ⟨rfl, -⟩ | ⟨-, hq1⟩
    · rw [hv s1 hs1] at hc1
      cases hc1
    · exact .inr ⟨hq1, rfl⟩
  high := high_update fun _ => hhigh

omit [Addressable n] in
theorem dropRoot (hc : g.IsRoot c) : Kept (· ≠ c) g f (Function.update g c none) f where
  place hne := place_update (fun _ hp => Option.some.inj (hc.symm.trans hp) ▸ hne) nofun
  mapped _ _ := rfl
  table _ _ _ _ := rfl
  byte _ _ _ _ _ := rfl
  inner := by
    intro q1 r1 l1 i1 s1 c1 hq1 hs1 hc1
    exact .inr ⟨(Shape.dropped_some hq1).2, rfl⟩
  high := high_update fun hp => absurd rfl hp

end

end Kept

/-! ### Changes of bytes -/

/-- The counts of `f'` are those of `f`, and only bytes of the pages in `S` differ. -/
structure Wrote (S : Nat → Prop) (f f' : Frames n) : Prop where
  count : ∀ q, f'.count q = f.count q
  byte : ∀ a, ¬ S (a / pageSize) → f'.memory.byte a = f.memory.byte a

namespace Wrote

variable {S : Nat → Prop} {held : List Nat} {f f' f'' : Frames n}

theorem refl (S : Nat → Prop) (f : Frames n) : Wrote S f f :=
  ⟨fun _ => rfl, fun _ _ => rfl⟩

theorem trans (h : Wrote S f f') (h' : Wrote S f' f'') : Wrote S f f'' :=
  ⟨fun q => (h'.count q).trans (h.count q), fun a ha => (h'.byte a ha).trans (h.byte a ha)⟩

theorem byte_table (h : Wrote S f f') (hS : ∀ q, S q → g q = none) (a : Nat)
    (ha : g (a / pageSize) ≠ none) : f'.memory.byte a = f.memory.byte a :=
  h.byte a fun hq => ha (hS _ hq)

theorem fits (h : Wrote S f f') (hS : ∀ q, S q → g q = none) (hf : g.Fits f.memory) :
    g.Fits f'.memory :=
  hf.congr (Accounted.slot_congr (h.byte_table hS))

/-- Writing to pages that hold no table changes no account. -/
theorem accounted (h : Wrote S f f') (hS : ∀ q, S q → g q = none) (ha : Accounted g held f) :
    Accounted g held f' :=
  ha.congr (h.byte_table hS) ha.handle fun q _ => by rw [h.count]

theorem mapped (h : Wrote S f f') (hS : ∀ q, S q → g q = none) (hf : g.Fits f.memory) {r : Nat}
    (hr : g.IsRoot r) : f'.memory.mapped r = f.memory.mapped r := by
  exact hf.mapped_congr (h.fits hS hf).toTrees hr hr (fun _ _ => Iff.rfl)
    fun q i hq => Accounted.slot_congr (h.byte_table hS) q (hq ▸ Option.some_ne_none _)

theorem kept {P : Nat → Prop} (h : Wrote S f f') (hS : ∀ q, S q → g q = none)
    (hf : g.Fits f.memory) (hP : ∀ {r v e}, P r → g.IsRoot r → f.memory.mapped r v = some e →
      ¬ S e.addr.pageNumber) : Kept P g f g f' :=
  .congr hf (h.byte_table hS) fun hr hg hm a ha => h.byte a (ha ▸ hP hr hg hm)

theorem linked (h : Wrote S f f') (hS : ∀ q, S q → g q = none) (hf : g.Fits f.memory)
    (hk : g.Linked f.memory) : g.Linked f'.memory :=
  (h.kept (P := fun _ => False) hS hf nofun).linked hk

end Wrote

/-! ### What a change of one space touches -/

/-- Page number `q` holds a table of the space with root `r`. -/
def Shape.TableOf (g : Shape) (r q : Nat) : Prop :=
  ∃ l i, g q = some ⟨r, l, i⟩

/-- Only tables of the space with root `r` and pages in `S` hold other bytes, and all new tables of
that space are in `S`. -/
structure Touched (r : Nat) (S : Nat → Prop) (g : Shape) (f : Frames n) (g' : Shape)
    (f' : Frames n) : Prop where
  byte : ∀ a, ¬ g.TableOf r (a / pageSize) → ¬ S (a / pageSize) →
    f'.memory.byte a = f.memory.byte a
  table : ∀ {q}, g'.TableOf r q → g.TableOf r q ∨ S q

namespace Touched

variable {r : Nat} {S S' : Nat → Prop} {g' g'' : Shape} {f f' f'' : Frames n}

theorem refl (r : Nat) (S : Nat → Prop) (g : Shape) (f : Frames n) : Touched r S g f g f :=
  ⟨fun _ _ _ => rfl, .inl⟩

theorem trans (h : Touched r S g f g' f') (h' : Touched r S' g' f' g'' f'')
    (hS : ∀ q, S' q → S q) : Touched r S g f g'' f'' where
  byte a ha hSa := by
    have ha' : ¬ g'.TableOf r (a / pageSize) := fun ht => (h.table ht).elim ha hSa
    rw [h'.byte a ha' fun hS' => hSa (hS _ hS'), h.byte a ha hSa]
  table hq := (h'.table hq).elim h.table fun hS' => .inr (hS _ hS')

theorem setSlot {q s : Nat} {e : Entry} (hq : g.TableOf r q) (hs : s < 512) :
    Touched r S g f g (f.setSlot q s e) :=
  ⟨fun _ ha _ => Memory.byte_setSlot hs fun haq => ha (haq ▸ hq), .inl⟩

theorem placed {c : Nat} {p : Place} (hc : S c) :
    Touched r S g f (Function.update g c (some p)) f := by
  refine ⟨fun _ _ _ => rfl, ?_⟩
  rintro q ⟨l, i, hq⟩
  rcases Shape.placed_cases hq with ⟨rfl, -⟩ | ⟨-, hq⟩
  · exact .inr hc
  · exact .inl ⟨l, i, hq⟩

end Touched

/-- Every page in use stays so, page number `q` with `extra q` more references, and holds what it
held, but for the tables of the space with root `r`. -/
structure Grown (r : Nat) (extra : Nat → Nat) (g : Shape) (f : Frames n) (g' : Shape)
    (f' : Frames n) : Prop extends Touched r (fun q => f.count q = 0) g f g' f' where
  count : ∀ q, f.count q ≠ 0 → f'.count q = f.count q + extra q

namespace Grown

variable {r : Nat} {extra extra' : Nat → Nat} {g' g'' : Shape} {f f' f'' : Frames n}

theorem count_zero (h : Grown r extra g f g' f') {q : Nat} (hq : f'.count q = 0) :
    f.count q = 0 := by
  by_contra h0
  have hcount := h.count q h0
  omega

theorem trans (h : Grown r extra g f g' f') (h' : Grown r extra' g' f' g'' f'') :
    Grown r (fun q => extra q + extra' q) g f g'' f'' where
  toTouched := h.toTouched.trans h'.toTouched fun _ => h.count_zero
  count q hq := by
    have hcount := h.count q hq
    rw [h'.count q (by omega), hcount, Nat.add_assoc]

theorem of_in_use (hc : ∀ q, f.count q ≠ 0 → f'.count q = f.count q + extra q)
    (hb : ∀ a, f.count (a / pageSize) ≠ 0 → f'.memory.byte a = f.memory.byte a) :
    Grown r extra g f g f' :=
  ⟨⟨fun a _ ha => hb a ha, .inl⟩, hc⟩

/-- What grows around a page leaves alone what that holds. -/
theorem byte_mapped (h : Grown r extra g f g' f') {held : List Nat} (ha : Accounted g held f)
    {r' v : Nat} {e : Entry} (hr : g.IsRoot r') (hm : f.memory.mapped r' v = some e) (a : Nat)
    (hpage : a / pageSize = e.addr.pageNumber) : f'.memory.byte a = f.memory.byte a := by
  refine h.byte a ?_ ?_
  · rintro ⟨l, i, hq⟩
    rw [hpage, (ha.fits.mapped_target hr hm).1] at hq
    cases hq
  · rw [hpage]
    exact ha.count_mapped hr hm

end Grown

end PagedKernel
