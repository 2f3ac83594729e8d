import Mathlib.Data.Finset.Prod
import PagedKernel.Proofs.Frames
import PagedKernel.Proofs.Spaces.Edits

/-!
# Every reference is accounted for

A page is referred to by the table entry or the root it is, by the leaves that point to it, and by
the handles that whoever works on the page tables holds. `Accounted` says that the count of each
page is the number of these. It is kept by every change of a page table if the references move
along: a leaf that is written takes over a handle and gives one back for the page it mapped before,
a table that is hung takes over the handle to its page, one that is taken out gives it back.

Key definitions: `Shape.leafRefs`, `Accounted`.
Key theorems: `Accounted.setLeaf`, `Accounted.hang`, `Accounted.unhang`, `Accounted.congr`.
-/

namespace PagedKernel

variable {n : Nat} {g : Shape} {m m' : Memory n}

/-! ### The leaves that point to a page -/

/-- Page number `q` holds a table of leaves. -/
def Shape.isLeafTable (g : Shape) (q : Nat) : Bool :=
  (g q).any (·.level == 0)

theorem Shape.isLeafTable_iff {q : Nat} :
    g.isLeafTable q = true ↔ ∃ r i, g q = some ⟨r, 0, i⟩ := by
  unfold isLeafTable
  rw [Option.any_eq_true]
  constructor
  · intro h
    obtain ⟨⟨r, l, i⟩, hq, hl⟩ := h
    obtain rfl : l = 0 := beq_iff_eq.mp hl
    exact ⟨r, i, hq⟩
  · intro h
    obtain ⟨r, i, hq⟩ := h
    exact ⟨_, hq, rfl⟩

/-- The tables and slots of the leaves that point to page number `c`. -/
def Shape.leafSlots (g : Shape) (m : Memory n) (c : Nat) : Finset (Nat × Nat) :=
  (Finset.range n ×ˢ Finset.range 512).filter fun p =>
    g.isLeafTable p.1 = true ∧ (m.slot p.1 p.2).page? = some c

/-- The number of leaves that point to page number `c`. -/
def Shape.leafRefs (g : Shape) (m : Memory n) (c : Nat) : Nat :=
  (g.leafSlots m c).card

namespace Shape

theorem mem_leafSlots {c q s : Nat} :
    (q, s) ∈ g.leafSlots m c ↔
      q < n ∧ s < 512 ∧ g.isLeafTable q = true ∧ (m.slot q s).page? = some c := by
  unfold leafSlots
  simp only [Finset.mem_filter, Finset.mem_product, Finset.mem_range, and_assoc]

theorem leafRefs_congr {g' : Shape} {c : Nat}
    (h : ∀ q s, s < 512 → ((g'.isLeafTable q = true ∧ (m'.slot q s).page? = some c) ↔
      (g.isLeafTable q = true ∧ (m.slot q s).page? = some c))) :
    g'.leafRefs m' c = g.leafRefs m c := by
  unfold leafRefs leafSlots
  refine congrArg Finset.card (Finset.filter_congr fun p hp => ?_)
  exact h p.1 p.2 (Finset.mem_range.mp (Finset.mem_product.mp hp).2)

theorem leafRefs_le (c : Nat) : g.leafRefs m c ≤ n * 512 := by
  refine (Finset.card_filter_le _ _).trans_eq ?_
  rw [Finset.card_product, Finset.card_range, Finset.card_range]

theorem count_toList (o : Option Nat) (c : Nat) :
    o.toList.count c = if o = some c then 1 else 0 := by
  cases o with
  | none => rfl
  | some d => simp [List.count_singleton]

/-- A leaf that is written moves one reference from its old page to its new one. -/
theorem leafRefs_setSlot {q r i s : Nat} {e : Entry} (hq : g q = some ⟨r, 0, i⟩) (hn : q < n)
    (hs : s < 512) (c : Nat) :
    g.leafRefs (m.setSlot q s e) c + (m.slot q s).page?.toList.count c =
      g.leafRefs m c + e.page?.toList.count c := by
  have hmem : (q, s) ∈ Finset.range n ×ˢ Finset.range 512 :=
    Finset.mem_product.mpr ⟨Finset.mem_range.mpr hn, Finset.mem_range.mpr hs⟩
  have hleaf : g.isLeafTable q = true := isLeafTable_iff.mpr ⟨r, i, hq⟩
  have hrest : (((Finset.range n ×ˢ Finset.range 512).erase (q, s)).filter fun p =>
        g.isLeafTable p.1 = true ∧ ((m.setSlot q s e).slot p.1 p.2).page? = some c) =
      ((Finset.range n ×ˢ Finset.range 512).erase (q, s)).filter fun p =>
        g.isLeafTable p.1 = true ∧ (m.slot p.1 p.2).page? = some c := by
    refine Finset.filter_congr fun p hp => ?_
    obtain ⟨hne, hp⟩ := Finset.mem_erase.mp hp
    rw [Memory.slot_setSlot_ne hs (Finset.mem_range.mp (Finset.mem_product.mp hp).2)
      fun ⟨h1, h2⟩ => hne (Prod.ext h1 h2)]
  unfold leafRefs leafSlots
  rw [card_filter_erase hmem, card_filter_erase hmem, hrest, count_toList, count_toList,
    Memory.slot_setSlot_self hn hs]
  simp only [hleaf, true_and]
  omega

theorem unmapped_of_leafRefs (h : g.Fits m) {c : Nat} (hc : g.leafRefs m c = 0) :
    g.Unmapped m c := by
  intro q r i s hq hs hp
  have hmem : (q, s) ∈ g.leafSlots m c :=
    mem_leafSlots.mpr ⟨h.installed hq, hs, isLeafTable_iff.mpr ⟨r, i, hq⟩, hp⟩
  rw [Finset.card_eq_zero.mp hc] at hmem
  cases hmem

theorem Unmapped.leafRefs {c : Nat} (h : g.Unmapped m c) : g.leafRefs m c = 0 := by
  refine Finset.card_eq_zero.mpr (Finset.eq_empty_of_forall_notMem fun ⟨q, s⟩ hmem => ?_)
  obtain ⟨-, hs, hleaf, hp⟩ := mem_leafSlots.mp hmem
  obtain ⟨r, i, hq⟩ := isLeafTable_iff.mp hleaf
  exact h hq hs hp

theorem Unmapped.mapped_ne {c : Nat} (hu : g.Unmapped m c) (h : g.Fits m) {r v : Nat} {e : Entry}
    (hr : g.IsRoot r) (hm : m.mapped r v = some e) : e.page? ≠ some c := by
  obtain ⟨q, hq, rfl, -⟩ := (h.mapped_iff hr).mp hm
  exact hu hq (mod_slots_lt _)

/-- What a space maps is referred to. -/
theorem leafRefs_pos (h : g.Fits m) {r v : Nat} {e : Entry} (hr : g.IsRoot r)
    (hm : m.mapped r v = some e) : g.leafRefs m e.addr.pageNumber ≠ 0 := by
  intro h0
  exact (unmapped_of_leafRefs h h0).mapped_ne h hr hm (h.mapped_page? hr hm)

/-- The leaves stay the same when a vacant table comes or goes. -/
theorem leafRefs_eq_of_vacant {g' : Shape} {d : Nat} (hg : ∀ q, q ≠ d → g' q = g q)
    (hv : m.Vacant d) (hv' : m'.Vacant d)
    (hs : ∀ q r i s, g q = some ⟨r, 0, i⟩ → q ≠ d → s < 512 → m'.slot q s = m.slot q s) (c : Nat) :
    g'.leafRefs m' c = g.leafRefs m c := by
  refine leafRefs_congr fun q s hs1 => ?_
  by_cases hqd : q = d
  · rw [hqd, hv s hs1, hv' s hs1]
    simp
  · have hleaf : g'.isLeafTable q = g.isLeafTable q := by
      unfold isLeafTable
      rw [hg q hqd]
    rw [hleaf]
    refine and_congr_right fun hl => ?_
    obtain ⟨r, i, hq⟩ := isLeafTable_iff.mp hl
    rw [hs q r i s hq hqd hs1]

end Shape

/-! ### Accounts -/

/-- The tables are those of the shape `g`, and each page is counted once for the table it holds,
once for each leaf that points to it and once for each handle in `held`. -/
structure Accounted (g : Shape) (held : List Nat) (f : Frames n) : Prop where
  fits : g.Fits f.memory
  handle : ∀ q ∈ held, q < n ∧ g q = none
  count : ∀ q < n, f.count q = (g q).isSome.toNat + g.leafRefs f.memory q + held.count q

/-- No table is there at first, and no page is in use. -/
theorem accounted_fresh (n : Nat) : Accounted (fun _ => none) [] (Frames.fresh n) where
  fits := ⟨⟨nofun, nofun, nofun, nofun, nofun⟩, nofun⟩
  handle := nofun
  count q _ := by
    have hu : Shape.Unmapped (fun _ => none) (Frames.fresh n).memory q := nofun
    rw [Frames.count_fresh, hu.leafRefs]
    rfl

/-- The frames with the entry `e` in slot `s` of the table in page number `q`. -/
def Frames.setSlot (f : Frames n) (q s : Nat) (e : Entry) : Frames n :=
  { f with memory := f.memory.setSlot q s e }

@[simp]
theorem Frames.memory_setSlot (f : Frames n) (q s : Nat) (e : Entry) :
    (f.setSlot q s e).memory = f.memory.setSlot q s e := rfl

@[simp]
theorem Frames.count_setSlot (f : Frames n) (q s : Nat) (e : Entry) (c : Nat) :
    (f.setSlot q s e).count c = f.count c := by
  unfold count setSlot
  rfl

namespace Accounted

variable {held : List Nat} {f f' : Frames n}

/-! ### What the count of a page tells -/

theorem count_table (h : Accounted g held f) {q : Nat} {p : Place} (hq : g q = some p) :
    f.count q = 1 := by
  have hleaf : g.leafRefs f.memory q = 0 := Shape.Unmapped.leafRefs fun _ _ _ _ hq1 hs1 hp => by
    rw [(h.fits.leaf hq1 hs1 hp).1] at hq
    cases hq
  have hheld : held.count q = 0 := List.count_eq_zero.mpr fun hmem => by
    rw [(h.handle q hmem).2] at hq
    cases hq
  rw [h.count q (h.fits.installed hq), hq, hleaf, hheld]
  rfl

theorem table_in_use (h : Accounted g held f) {q : Nat} (hq : g q ≠ none) : f.count q ≠ 0 := by
  obtain ⟨p, hp⟩ := Option.ne_none_iff_exists'.mp hq
  rw [h.count_table hp]
  decide

theorem count_handle (h : Accounted g held f) {q : Nat} (hq : q ∈ held) : f.count q ≠ 0 := by
  have := List.count_pos_iff.mpr hq
  rw [h.count q (h.handle q hq).1]
  omega

theorem count_mapped (h : Accounted g held f) {r v : Nat} {e : Entry} (hr : g.IsRoot r)
    (hm : f.memory.mapped r v = some e) : f.count e.addr.pageNumber ≠ 0 := by
  have hpos := Shape.leafRefs_pos h.fits hr hm
  rw [h.count _ (h.fits.mapped_target hr hm).2]
  omega

theorem count_le (h : Accounted g held f) (q : Nat) : f.count q ≤ 1 + n * 512 + held.length := by
  by_cases hq : q < n
  · rw [h.count q hq]
    have h1 := Bool.toNat_le (g q).isSome
    have h2 : g.leafRefs f.memory q ≤ n * 512 := Shape.leafRefs_le q
    have h3 : held.count q ≤ held.length := List.count_le_length
    omega
  · rw [f.count_of_ge (Nat.not_lt.mp hq)]
    exact Nat.zero_le _

/-- Nobody refers to a page with count zero. -/
theorem of_count_zero (h : Accounted g held f) {q : Nat} (hq : q < n) (h0 : f.count q = 0) :
    g q = none ∧ g.Unmapped f.memory q ∧ q ∉ held := by
  have hcount := h.count q hq
  rw [h0] at hcount
  refine ⟨?_, Shape.unmapped_of_leafRefs h.fits (by omega), List.count_eq_zero.mp (by omega)⟩
  cases hg : g q with
  | none => rfl
  | some p =>
    simp only [hg, Option.isSome_some, Bool.toNat_true] at hcount
    omega

/-- A page in use holds a table or is mapped by some space, unless there is a handle to it. -/
theorem user (h : Accounted g [] f) {q : Nat} (hq : f.count q ≠ 0) :
    g q ≠ none ∨ ∃ r v e, g.IsRoot r ∧ f.memory.mapped r v = some e ∧ e.addr.pageNumber = q := by
  have hn : q < n := by
    by_contra hge
    exact hq (f.count_of_ge (Nat.not_lt.mp hge))
  by_contra hunused
  obtain ⟨hnone, hunmapped⟩ := not_or.mp hunused
  have hg : g q = none := not_not.mp hnone
  have hu : g.Unmapped f.memory q := fun q1 r i s hq1 hs hp => by
    have hm := h.fits.mapped_of_slot hq1 hs (Entry.present_of_page? hp)
    have hpage := h.fits.mapped_page? (h.fits.isRoot hq1) hm
    exact hunmapped ⟨r, _, _, h.fits.isRoot hq1, hm, Option.some.inj (hpage.symm.trans hp)⟩
  rw [h.count q hn, hg, hu.leafRefs] at hq
  exact hq rfl

/-- The only reference to a page is the handle. -/
theorem of_count_one {c : Nat} (h : Accounted g (c :: held) f) (h1 : f.count c = 1) :
    g.Unmapped f.memory c ∧ c ∉ held := by
  have hcount := h.count c (h.handle c List.mem_cons_self).1
  rw [h1, List.count_cons_self] at hcount
  exact ⟨Shape.unmapped_of_leafRefs h.fits (by omega), List.count_eq_zero.mp (by omega)⟩

/-! ### Changes of counts, and of pages that hold no table -/

theorem slot_congr (hb : ∀ a, g (a / pageSize) ≠ none → m'.byte a = m.byte a) (q : Nat)
    (hq : g q ≠ none) (s : Nat) (hs : s < 512) : m'.slot q s = m.slot q s :=
  Memory.slot_congr hs fun a ha => hb a (ha ▸ hq)

theorem leafRefs_eq (hb : ∀ a, g (a / pageSize) ≠ none → m'.byte a = m.byte a) (c : Nat) :
    g.leafRefs m' c = g.leafRefs m c :=
  Shape.leafRefs_congr fun q s hs => and_congr_right fun hl => by
    obtain ⟨r, i, hq⟩ := Shape.isLeafTable_iff.mp hl
    rw [slot_congr hb q (hq ▸ Option.some_ne_none _) s hs]

/-- **The accounts stay true as long as the counts and the handles change alike.** -/
theorem congr {held' : List Nat} (h : Accounted g held f)
    (hb : ∀ a, g (a / pageSize) ≠ none → f'.memory.byte a = f.memory.byte a)
    (hh : ∀ q ∈ held', q < n ∧ g q = none)
    (hc : ∀ q < n, f'.count q + held.count q = f.count q + held'.count q) :
    Accounted g held' f' where
  fits := h.fits.congr (slot_congr hb)
  handle := hh
  count q hq := by
    have hleaf := leafRefs_eq hb q
    have h1 := h.count q hq
    have h2 := hc q hq
    omega

theorem congr_in_use {held' : List Nat} (h : Accounted g held f)
    (hb : ∀ a, f.count (a / pageSize) ≠ 0 → f'.memory.byte a = f.memory.byte a)
    (hh : ∀ q ∈ held', q < n ∧ g q = none)
    (hc : ∀ q < n, f'.count q + held.count q = f.count q + held'.count q) :
    Accounted g held' f' :=
  h.congr (fun a ha => hb a (h.table_in_use ha)) hh hc

theorem sameUse (h : Accounted g held f) (hu : Frames.SameUse f f') : Accounted g held f' :=
  h.congr_in_use hu.byte h.handle fun q _ => by rw [hu.count]

theorem handedOut (h : Accounted g held f) {pn : Nat} (ho : Frames.HandedOut f pn f') :
    Accounted g (pn :: held) f' := by
  refine h.congr_in_use ho.byte_in_use ?_ fun q _ => ?_
  · intro q hq
    rcases List.mem_cons.mp hq with rfl | hq
    · exact ⟨ho.lt, (h.of_count_zero ho.lt ho.count_zero).1⟩
    · exact h.handle q hq
  · rw [ho.count, List.count_cons]
    by_cases hq : q = pn
    · simp [hq, ho.count_zero, Nat.add_comm]
    · simp [hq, Ne.symm hq]

theorem share (h : Accounted g held f) {c : Nat} (hc : c < n) (hg : g c = none) :
    Accounted g (c :: held) (f.setCount c (f.count c + 1) hc) := by
  refine h.congr (fun _ _ => rfl) ?_ fun q _ => ?_
  · intro q hq
    rcases List.mem_cons.mp hq with rfl | hq
    · exact ⟨hc, hg⟩
    · exact h.handle q hq
  · rw [Frames.count_setCount, List.count_cons]
    by_cases hq : q = c
    · simp [hq]
      omega
    · simp [hq, Ne.symm hq]

theorem release {c : Nat} (h : Accounted g (c :: held) f) (hc : c < n) :
    Accounted g held (f.setCount c (f.count c - 1) hc) := by
  have h0 := h.count_handle List.mem_cons_self
  refine h.congr (fun _ _ => rfl) (fun q hq => h.handle q (List.mem_cons_of_mem _ hq)) fun q _ => ?_
  rw [Frames.count_setCount, List.count_cons]
  by_cases hq : q = c
  · simp [hq]
    omega
  · simp [hq, Ne.symm hq]

theorem claim (h : Accounted g held f) {c : Nat} (hc : c < n) (h0 : f.count c = 0) :
    Accounted g (c :: held) (f.setCount c 1 hc) := by
  have hshare := h.share hc (h.of_count_zero hc h0).1
  rwa [h0] at hshare

/-! ### Changes of tables -/

section
variable {q r i s : Nat}

theorem setLeaf {e : Entry} (h : Accounted g (e.page?.toList ++ held) f)
    (hq : g q = some ⟨r, 0, i⟩) (hs : s < 512) :
    Accounted g ((f.memory.slot q s).page?.toList ++ held) (f.setSlot q s e) where
  fits := h.fits.setLeaf hq hs fun c hc => by
    have hmem := h.handle c (by simp [hc])
    exact hmem.symm
  handle c hc := by
    rcases List.mem_append.mp hc with hc | hc
    · exact (h.fits.leaf hq hs (Option.mem_toList.mp hc)).symm
    · exact h.handle c (List.mem_append_right _ hc)
  count c hc := by
    have hcount := h.count c hc
    have hrefs := Shape.leafRefs_setSlot (e := e) (m := f.memory) hq (h.fits.installed hq) hs c
    rw [List.count_append] at hcount ⊢
    rw [Frames.count_setSlot, Frames.memory_setSlot]
    omega

/-- A leaf that is emptied gives its reference back. -/
theorem clearLeaf {c : Nat} (h : Accounted g held f) (hq : g q = some ⟨r, 0, i⟩) (hs : s < 512)
    (hp : (f.memory.slot q s).page? = some c) : Accounted g (c :: held) (f.setSlot q s .empty) := by
  have hnone : Accounted g (Entry.empty.page?.toList ++ held) f := by rwa [Entry.page?_empty]
  have hset := hnone.setLeaf hq hs
  rwa [hp] at hset

end

section
variable {q c r l i s : Nat} {e : Entry}

/-- The handle to a vacant page becomes the one reference to a table. -/
theorem placed (h : Accounted g (c :: held) f) (h1 : f.count c = 1) (hv : f.memory.Vacant c)
    {p : Place} (hfits : Shape.Fits (Function.update g c (some p)) f'.memory)
    (hc' : ∀ q, f'.count q = f.count q) (hv' : f'.memory.Vacant c)
    (hs : ∀ q r i s, g q = some ⟨r, 0, i⟩ → q ≠ c → s < 512 →
      f'.memory.slot q s = f.memory.slot q s) :
    Accounted (Function.update g c (some p)) held f' := by
  obtain ⟨hcn, hc⟩ := h.handle c List.mem_cons_self
  obtain ⟨hu, hheld⟩ := h.of_count_one h1
  refine ⟨hfits, fun q1 hq1 => ?_, fun q1 hq1 => ?_⟩
  · rw [Function.update_of_ne fun hqc : q1 = c => hheld (hqc ▸ hq1)]
    exact h.handle q1 (List.mem_cons_of_mem _ hq1)
  · have hrefs := Shape.leafRefs_eq_of_vacant
      (fun q2 hq2 => Function.update_of_ne hq2 (some p) g) hv hv' hs q1
    have hcount := h.count q1 hq1
    rw [hc', hrefs]
    by_cases hqc : q1 = c
    · subst hqc
      rw [hc, List.count_cons_self] at hcount
      rw [Function.update_self]
      simp only [Option.isSome_some, Option.isSome_none, Bool.toNat_true, Bool.toNat_false]
        at hcount ⊢
      omega
    · rw [List.count_cons_of_ne (Ne.symm hqc)] at hcount
      rw [Function.update_of_ne hqc]
      exact hcount

/-- The one reference to a vacant table becomes a handle. -/
theorem dropped (h : Accounted g held f) {p : Place} (hc : g c = some p) (hv : f.memory.Vacant c)
    (hfits : Shape.Fits (Function.update g c none) f'.memory)
    (hc' : ∀ q, f'.count q = f.count q) (hv' : f'.memory.Vacant c)
    (hs : ∀ q r i s, g q = some ⟨r, 0, i⟩ → q ≠ c → s < 512 →
      f'.memory.slot q s = f.memory.slot q s) :
    Accounted (Function.update g c none) (c :: held) f' := by
  refine ⟨hfits, fun q1 hq1 => ?_, fun q1 hq1 => ?_⟩
  · rcases List.mem_cons.mp hq1 with rfl | hq1
    · exact ⟨h.fits.installed hc, Function.update_self ..⟩
    · obtain ⟨hlt, hnone⟩ := h.handle q1 hq1
      exact ⟨hlt, Shape.dropped_none hnone⟩
  · have hrefs := Shape.leafRefs_eq_of_vacant (fun q2 hq2 => Function.update_of_ne hq2 none g)
      hv hv' hs q1
    have hcount := h.count q1 hq1
    rw [hc', hrefs]
    by_cases hqc : q1 = c
    · subst hqc
      rw [hc] at hcount
      rw [Function.update_self, List.count_cons_self]
      simp only [Option.isSome_some, Option.isSome_none, Bool.toNat_true, Bool.toNat_false]
        at hcount ⊢
      omega
    · rw [List.count_cons_of_ne (Ne.symm hqc), Function.update_of_ne hqc]
      exact hcount

theorem hang (h : Accounted g (c :: held) f) (hq : g q = some ⟨r, l + 1, i⟩) (hs : s < 512)
    (hempty : (f.memory.slot q s).page? = none) (h1 : f.count c = 1) (hv : f.memory.Vacant c)
    (he : e.page? = some c) :
    Accounted (Function.update g c (some ⟨r, l, 512 * i + s⟩)) held (f.setSlot q s e) := by
  obtain ⟨hcn, hc⟩ := h.handle c List.mem_cons_self
  have hcq : c ≠ q := by
    rintro rfl
    rw [hc] at hq
    cases hq
  have hfits := h.fits.hang hq hs hempty hc hcn hv (h.of_count_one h1).1 he
  exact h.placed h1 hv hfits (fun _ => rfl) (hv.setSlot hs hcq)
    fun _ _ _ _ hq2 _ hs2 => Shape.slot_setSlot_leaf hq hs hq2 hs2

theorem unhang (h : Accounted g held f) (hq : g q = some ⟨r, l + 1, i⟩) (hs : s < 512)
    (hc : g c = some ⟨r, l, 512 * i + s⟩) (hv : f.memory.Vacant c) (he : e.page? = none) :
    Accounted (Function.update g c none) (c :: held) (f.setSlot q s e) := by
  have hcq : c ≠ q := by
    rintro rfl
    simp only [hq, Option.some.injEq, Place.mk.injEq] at hc
    omega
  have hfits := h.fits.unhang hq hs hc hv he
  exact h.dropped hc hv hfits (fun _ => rfl) (hv.setSlot hs hcq)
    fun _ _ _ _ hq2 _ hs2 => Shape.slot_setSlot_leaf hq hs hq2 hs2

theorem newRoot (h : Accounted g (c :: held) f) (h1 : f.count c = 1) (hv : f.memory.Vacant c) :
    Accounted (Function.update g c (some ⟨c, 3, 0⟩)) held f := by
  obtain ⟨hcn, hc⟩ := h.handle c List.mem_cons_self
  have hfits := h.fits.newRoot hc hcn hv (h.of_count_one h1).1
  exact h.placed h1 hv hfits (fun _ => rfl) hv fun _ _ _ _ _ _ _ => rfl

theorem dropRoot (h : Accounted g held f) (hc : g.IsRoot c) (hv : f.memory.Vacant c) :
    Accounted (Function.update g c none) (c :: held) f :=
  h.dropped hc hv (h.fits.dropRoot hc hv) (fun _ => rfl) hv fun _ _ _ _ _ _ _ => rfl

end

end Accounted

end PagedKernel
