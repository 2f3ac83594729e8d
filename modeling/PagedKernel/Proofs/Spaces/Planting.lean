import PagedKernel.AddressSpace.Cursor
import PagedKernel.Proofs.Spaces.Mapping

/-!
# Page tables among any references

What the operations on a page table do to the tables does not depend on what the other counts say,
nor on where the leaves point to: it is enough that the tables are trees and that each is referred
to once (`Planted`). A page that is taken for a table is free, so it is none yet, and no table is
freed. A handle that is released is one to another page. So no operation halts, one that fails
changes no table, and the others change the map of one space, at one page number.

Key definitions: `Planted`, `SamePages`, `GivenBack`, `Replanted`, `Enlarged`.
Key theorems: `PageTable.install_planted`, `PageTable.install_writes`, `PageTable.map_planted`,
`PageTable.remove_planted`.
-/

namespace PagedKernel

variable {n : Nat} {g g' g'' : Shape} {f f' f'' : Frames n} {E : Halt → Prop}

/-- The tables are trees in the memory, and there is one reference to each. -/
structure Planted (g : Shape) (f : Frames n) : Prop where
  trees : g.Trees f.memory
  count : ∀ {q p}, g q = some p → f.count q = 1

/-- The pages in `S` have the counts and the bytes that they had. -/
structure SamePages (S : Nat → Prop) (f f' : Frames n) : Prop where
  count : ∀ q, S q → f'.count q = f.count q
  byte : ∀ a, S (a / pageSize) → f'.memory.byte a = f.memory.byte a

/-- The handle to page number `c` has been given back, and nothing else that was in use has changed.
-/
structure GivenBack (c : Nat) (f f' : Frames n) : Prop where
  count : ∀ q, f'.count q + (if q = c then 1 else 0) = f.count q
  byte : ∀ a, f.count (a / pageSize) ≠ 0 → f'.memory.byte a = f.memory.byte a

/-- The tables of `g'` are those of `g` and the pages `fresh`, which were free. Each of these has
got one reference, and the other counts are the same. -/
structure Enlarged (fresh : List Nat) (g : Shape) (f : Frames n) (g' : Shape) (f' : Frames n) :
    Prop where
  nodup : fresh.Nodup
  free : ∀ q ∈ fresh, f.isFree q = true
  length_le : fresh.length ≤ f.freePages
  table : ∀ q, g' q ≠ none ↔ g q ≠ none ∨ q ∈ fresh
  count : ∀ q, f'.count q = f.count q + fresh.count q

/-- The tables of `g'` are planted in `f'` at the roots of `g`, and the space with root `r` maps
`M r`. -/
structure Replanted (g : Shape) (M : Nat → Nat → Option Entry) (g' : Shape) (f' : Frames n) :
    Prop where
  planted : Planted g' f'
  isRoot : ∀ {r}, g'.IsRoot r ↔ g.IsRoot r
  mapped : ∀ {r}, g.IsRoot r → f'.memory.mapped r = M r

namespace Enlarged

theorem of_count_eq (h : ∀ q, f'.count q = f.count q) : Enlarged [] g f g f' where
  nodup := List.nodup_nil
  free := nofun
  length_le := Nat.zero_le _
  table _ := (or_iff_left List.not_mem_nil).symm
  count := h

theorem in_use {fresh : List Nat} (h : Enlarged fresh g f g' f') {q : Nat} (hq : f.count q ≠ 0) :
    f'.count q = f.count q ∧ (g' q ≠ none ↔ g q ≠ none) := by
  have hold : q ∉ fresh := fun hmem => hq ((f.isFree_iff q).mp (h.free q hmem)).2.2
  rw [h.count, List.count_eq_zero.mpr hold, h.table]
  exact ⟨rfl, or_iff_left hold⟩

end Enlarged

namespace SamePages

theorem refl (S : Nat → Prop) (f : Frames n) : SamePages S f f :=
  ⟨fun _ _ => rfl, fun _ _ => rfl⟩

theorem slot (h : SamePages (g · ≠ none) f f') {q : Nat} (hq : g q ≠ none) {s : Nat}
    (hs : s < 512) : f'.memory.slot q s = f.memory.slot q s :=
  Accounted.slot_congr h.byte q hq s hs

theorem planted (h : SamePages (g · ≠ none) f f') (hp : Planted g f) : Planted g f' where
  trees := hp.trees.congr fun _ hq _ => h.slot hq
  count hq := (h.count _ (hq ▸ Option.some_ne_none _)).trans (hp.count hq)

theorem replanted (h : SamePages (g · ≠ none) f f') (hp : Planted g f) :
    Replanted g f.memory.mapped g f' where
  planted := h.planted hp
  isRoot := Iff.rfl
  mapped hr := hp.trees.mapped_congr (h.planted hp).trees hr hr (fun _ _ => Iff.rfl)
    fun _ _ hq _ => h.slot (hq ▸ Option.some_ne_none _)

end SamePages

/-- Where all references are accounted for, there is one to each table. -/
theorem Accounted.planted {held : List Nat} (h : Accounted g held f) : Planted g f :=
  ⟨h.fits.toTrees, h.count_table⟩

theorem GivenBack.release_ends {c : Nat} (h0 : f.count c ≠ 0) :
    Ends (Frames.release ⟨c⟩) f (fun _ f' => GivenBack c f f') E := by
  have hlt : c < n := Nat.lt_of_not_le fun hge => h0 (f.count_of_ge hge)
  refine .release hlt h0 ⟨fun q => ?_, fun _ _ => rfl⟩
  rw [Frames.count_setCount]
  by_cases hq : q = c
  · rw [if_pos hq, if_pos hq, hq]
    exact Nat.sub_add_cancel (Nat.one_le_iff_ne_zero.mpr h0)
  · rw [if_neg hq, if_neg hq, Nat.add_zero]

theorem GivenBack.of_sameUse {c : Nat} (hu : Frames.SameUse f f') (hb : GivenBack c f' f'') :
    GivenBack c f f'' where
  count q := (hb.count q).trans (hu.count q)
  byte a ha := (hb.byte a (by rwa [hu.count])).trans (hu.byte a ha)

namespace Planted

theorem count_ne_zero (h : Planted g f) {q : Nat} (hq : g q ≠ none) : f.count q ≠ 0 := by
  obtain ⟨p, hp⟩ := Option.ne_none_iff_exists'.mp hq
  rw [h.count hp]
  exact one_ne_zero

/-- A page that nobody refers to is no table. -/
theorem of_count_zero (h : Planted g f) {q : Nat} (h0 : f.count q = 0) : g q = none :=
  not_not.mp fun hq => h.count_ne_zero hq h0

theorem handedOut (h : Planted g f) {pn : Nat} (ho : Frames.HandedOut f pn f') :
    SamePages (g · ≠ none) f f' :=
  ⟨fun _ hq => ho.count_in_use (h.count_ne_zero hq),
    fun a ha => ho.byte_in_use a (h.count_ne_zero ha)⟩

theorem taken (h : Planted g f) {taken : List FrameRef} (ht : Frames.Taken f f' taken) :
    SamePages (g · ≠ none) f f' where
  count q hq := by
    rw [ht.count, List.count_eq_zero.mpr fun hmem => h.count_ne_zero hq (ht.count_zero hmem)]
    rfl
  byte a ha := ht.byte a (h.count_ne_zero ha)

theorem givenBack {c : Nat} (h : Planted g f) (hc : g c = none) (hb : GivenBack c f f') :
    SamePages (g · ≠ none) f f' where
  count q hq := by
    have hne : q ≠ c := fun heq => hq (heq ▸ hc)
    have hcount := hb.count q
    rwa [if_neg hne, Nat.add_zero] at hcount
  byte a ha := hb.byte a (h.count_ne_zero ha)

variable [Addressable n] {q r i s : Nat}

theorem hang {c l : Nat} (h : Planted g f) (hq : g q = some ⟨r, l + 1, i⟩) (hs : s < 512)
    (hempty : (f.memory.slot q s).page? = none) (hc : g c = none) (h1 : f.count c = 1)
    (hv : f.memory.Vacant c) :
    Replanted g f.memory.mapped (Function.update g c (some ⟨r, l, 512 * i + s⟩))
      (f.setSlot q s (.link (pageAt c) .table)) := by
  have hcn : c < n := Nat.lt_of_not_le fun hge => by
    rw [f.count_of_ge hge] at h1
    cases h1
  have hentry := Entry.page?_link_table hcn
  have hl : l + 1 ≤ 3 := h.trees.level_le hq
  refine ⟨⟨h.trees.hang hq hs hempty hc hcn hv hentry, fun hq1 => ?_⟩, fun {r'} => ?_,
    h.trees.mapped_hang hq hs hempty hc hcn hv hentry⟩
  · rw [Frames.count_setSlot]
    rcases Shape.placed_cases hq1 with ⟨rfl, -⟩ | ⟨-, hq1⟩
    · exact h1
    · exact h.count hq1
  · constructor
    · intro hr
      rcases Shape.placed_cases hr with ⟨-, hplace⟩ | ⟨-, hr⟩
      · have hlevel : l = 3 := congrArg Place.level hplace
        omega
      · exact hr
    · exact Shape.placed_of_some hc

omit [Addressable n] in
theorem setLeaf (h : Planted g f) (hq : g q = some ⟨r, 0, i⟩) (hs : s < 512) (e : Entry) :
    Replanted g (Function.update f.memory.mapped r
      (Function.update (f.memory.mapped r) (512 * i + s) (if e.present then some e else none))) g
      (f.setSlot q s e) := by
  refine ⟨⟨h.trees.setLeaf hq hs e, fun hq1 => ?_⟩, Iff.rfl, fun {r'} hr' => ?_⟩
  · rw [Frames.count_setSlot]
    exact h.count hq1
  · by_cases hrr : r' = r
    · subst hrr
      rw [Function.update_self]
      exact h.trees.mapped_setLeaf hq hs e
    · rw [Function.update_of_ne hrr]
      exact h.trees.mapped_setLeaf_ne hq hs e hr' hrr

end Planted

namespace PageTable

variable [Addressable n]

/-- Tables are hung one below the other on the way of `va`, down to a leaf table. -/
theorem hangTables_planted {va : VirtAddr} {r : Nat} : ∀ (fresh : List FrameRef) (q : Nat)
    (g : Shape) (f : Frames n), Planted g f →
    g q = some ⟨r, fresh.length, va.page / 512 ^ (fresh.length + 1)⟩ →
    (fresh.length ≠ 0 → (f.memory.slot q (va.page / 512 ^ fresh.length % 512)).page? = none) →
    (∀ ref ∈ fresh, g ref.number = none ∧ f.count ref.number = 1 ∧ f.memory.Vacant ref.number) →
    (fresh.map (·.number)).Nodup →
    Ends (hangTables va (pageAt q) fresh) f (fun table f' => ∃ g' q', table = pageAt q' ∧
      Replanted g f.memory.mapped g' f' ∧ g' q' = some ⟨r, 0, va.page / 512⟩ ∧
      (∀ c, g' c ≠ none ↔ g c ≠ none ∨ c ∈ fresh.map (·.number)) ∧
      ∀ c, f'.count c = f.count c) E
  | [], q, g, f, h, hq, _, _, _ => by
    rw [List.length_nil, Nat.zero_add, Nat.pow_one] at hq
    exact .pure ⟨g, q, rfl, ⟨h, Iff.rfl, fun _ => rfl⟩, hq,
      fun c => (or_iff_left List.not_mem_nil).symm, fun _ => rfl⟩
  | ref :: rest, q, g, f, h, hq, hempty, hfresh, hnodup => by
    rw [List.length_cons] at hq hempty
    rw [List.map_cons, List.nodup_cons] at hnodup
    have hs := mod_slots_lt (va.page / 512 ^ (rest.length + 1))
    have hl : rest.length + 1 ≤ 3 := h.trees.level_le hq
    obtain ⟨hnone, h1, hv⟩ := hfresh ref List.mem_cons_self
    have hnew := h.hang hq hs (hempty (Nat.succ_ne_zero _)) hnone h1 hv
    rw [slot_step] at hnew
    have hvacant : ∀ ref' ∈ ref :: rest, (f.memory.setSlot q (va.page / 512 ^ (rest.length + 1) %
        512) (.link (pageAt ref.number) .table)).Vacant ref'.number := by
      intro ref' hr
      refine (hfresh ref' hr).2.2.setSlot hs fun hrq => ?_
      have hnone' := (hfresh ref' hr).1
      rw [hrq, hq] at hnone'
      cases hnone'
    rw [hangTables, va.index_eq hl]
    refine .step (Frames.writeEntry_pageAt (h.trees.installed hq) hs) ?_
    refine (hangTables_planted rest ref.number _ _ hnew.planted (Function.update_self ..)
      (fun _ => ?_) (fun ref' hr => ?_) hnodup.2).imp ?_
    · exact hvacant ref List.mem_cons_self _ (mod_slots_lt _)
    · have hne : ref'.number ≠ ref.number := fun heq =>
        hnodup.1 (heq ▸ List.mem_map_of_mem hr)
      have hr := List.mem_cons_of_mem ref hr
      rw [Function.update_of_ne hne]
      exact ⟨(hfresh ref' hr).1, (hfresh ref' hr).2.1, hvacant ref' hr⟩
    · rintro table f' ⟨g', q', htable, h', hq', htables, hcount⟩
      refine ⟨g', q', htable, ⟨h'.planted, h'.isRoot.trans hnew.isRoot, fun hr => ?_⟩, hq',
        fun c => ?_, fun c => (hcount c).trans (f.count_setSlot ..)⟩
      · rw [h'.mapped (hnew.isRoot.mpr hr), hnew.mapped hr]
      · rw [htables, List.map_cons, List.mem_cons]
        by_cases hc : c = ref.number
        · subst hc
          rw [Function.update_self]
          exact iff_of_true (.inl (Option.some_ne_none _)) (.inr (.inl rfl))
        · rw [Function.update_of_ne hc]
          exact or_congr_right (or_iff_right hc).symm

/-- **Mapping a page**, where another one may be mapped. -/
theorem install_planted (va : VirtAddr) {r c : Nat} {perm : Permission} (h : Planted g f)
    (hr : g.IsRoot r) (h0 : f.count c ≠ 0) :
    Ends (install (pageAt r) va ⟨c⟩ perm) f (fun res f' =>
      match res with
      | .ok old => (∃ g' fresh, Replanted g (Function.update f.memory.mapped r
            (Function.update (f.memory.mapped r) va.page
              (some (.link (pageAt c) perm.toFlags)))) g' f' ∧ Enlarged fresh g f g' f' ∧
            fresh.length = (f.memory.reach va.page 3 r).2) ∧
          old = (f.memory.mapped r va.page).bind Entry.frame? ∧ va.isAligned = true ∧
          va.val ≠ 0
      | .error cause => GivenBack c f f' ∧ Refused f r va cause) E := by
  apply install_steps h.trees hr
  · -- no page in use has changed when the pages taken so far are given back
    intro cause f' huse hrefused
    rw [← huse.count] at h0
    exact (GivenBack.release_ends h0).imp fun _ f'' h' => ⟨.of_sameUse huse h', hrefused⟩
  intro ha hva fresh f1 ht hlen
  have hsame := h.taken ht
  have hplace := h.trees.reach_place (Shape.Trees.root_place hr va.page_lt)
  rw [← hlen] at hplace
  have hslot := hsame.slot (hplace.1 ▸ Option.some_ne_none _)
    (mod_slots_lt (va.page / 512 ^ fresh.length))
  refine (hangTables_planted fresh _ g f1 (hsame.planted h) hplace.1 (fun hne => ?_)
    (fun ref href => ?_) ht.nodup).imp ?_
  · rw [hslot]
    exact hplace.2 hne
  · exact ⟨h.of_count_zero (ht.count_zero (List.mem_map_of_mem href)), ht.count_one href,
      ht.vacant ref href⟩
  rintro table f2 ⟨g2, q2, rfl, h2, hq2, htables, hcount⟩
  have hs := mod_slots_lt va.page
  have hmapped : ∀ {r'}, g.IsRoot r' → f2.memory.mapped r' = f.memory.mapped r' := fun hr' =>
    (h2.mapped hr').trans ((hsame.replanted h).mapped hr')
  have hset := h2.planted.setLeaf hq2 hs (.link (pageAt c) perm.toFlags)
  have hcn : c < n := Nat.lt_of_not_le fun hge => h0 (f.count_of_ge hge)
  have hpresent : (Entry.link (pageAt c) perm.toFlags).present = true :=
    Entry.present_link (lt_of_lt_of_le hcn Addressable.le) _
  rw [hpresent, if_pos rfl, Nat.div_add_mod] at hset
  have henlarged : Enlarged (fresh.map (·.number)) g f g2
      (f2.setSlot q2 (va.page % 512) (.link (pageAt c) perm.toFlags)) := by
    refine ⟨ht.nodup, fun q hq => ?_, ?_, htables, fun q => ?_⟩
    · obtain ⟨ref, href, rfl⟩ := List.mem_map.mp hq
      exact ht.free ref href
    · rw [List.length_map, ht.freePages]
      exact Nat.le_add_left _ _
    · rw [Frames.count_setSlot, hcount, ht.count]
  refine ⟨q2, rfl, h2.planted.trees.installed hq2, ⟨g2, fresh.map (·.number),
    ⟨hset.planted, hset.isRoot.trans h2.isRoot, fun {r'} hr' => ?_⟩, henlarged,
    (List.length_map _).trans hlen⟩, ?_, ha, hva⟩
  · rw [hset.mapped (h2.isRoot.mpr hr'), hmapped hr]
    by_cases hrr : r' = r
    · rw [hrr, Function.update_self, Function.update_self]
    · rw [Function.update_of_ne hrr, Function.update_of_ne hrr, hmapped hr']
  · rw [frame?_slot h2.planted.trees hq2, hmapped hr]

/-- To hang tables writes one entry of the table that they are hung below. -/
theorem hangTables_writes {va : VirtAddr} : ∀ (fresh : List FrameRef) (q : Nat) (f : Frames n),
    q < n → (∀ ref ∈ fresh, ref.number < n) → fresh.length ≤ 3 →
    Ends (hangTables va (pageAt q) fresh) f (fun table f' => ∃ q', table = pageAt q' ∧ q' < n ∧
      (q' = q ∧ fresh = [] ∨ q' ∈ fresh.map (·.number)) ∧
      ∀ a, a / 8 ≠ 512 * q + va.page / 512 ^ fresh.length % 512 →
        a / pageSize ∉ fresh.map (·.number) → f'.memory.byte a = f.memory.byte a) E
  | [], q, f, hq, _, _ => .pure ⟨q, rfl, hq, .inl ⟨rfl, rfl⟩, fun _ _ _ => rfl⟩
  | ref :: rest, q, f, hq, hfresh, hlen => by
    have hs := mod_slots_lt (va.page / 512 ^ (rest.length + 1))
    have hlt := hfresh ref List.mem_cons_self
    rw [List.length_cons] at hlen
    rw [hangTables, va.index_eq hlen]
    refine .step (Frames.writeEntry_pageAt hq hs) ?_
    refine (hangTables_writes rest ref.number _ hlt
      (fun ref' hr => hfresh ref' (List.mem_cons_of_mem _ hr)) (by omega)).imp ?_
    rintro table f' ⟨q', htable, hq', hlast, hbyte⟩
    refine ⟨q', htable, hq', .inr ?_, fun a ha hpage => ?_⟩
    · rcases hlast with ⟨rfl, -⟩ | hmem
      · exact List.mem_cons_self
      · exact List.mem_cons_of_mem _ hmem
    · rw [List.length_cons] at ha
      rw [List.map_cons, List.mem_cons, not_or] at hpage
      rw [hbyte a _ hpage.2, Frames.memory_setSlot, Memory.byte_setSlot_of_ne ha]
      intro hword
      apply hpage.1
      have hs' := mod_slots_lt (va.page / 512 ^ rest.length)
      unfold pageSize
      omega

/-- **Of the pages in use, mapping a page writes one entry**: that where the way of `va` ends. -/
theorem install_writes (va : VirtAddr) {r c : Nat} {perm : Permission} (h : Planted g f)
    (hr : g.IsRoot r) :
    Ends (install (pageAt r) va ⟨c⟩ perm) f (fun res f' => ∀ old, res = .ok old →
      ∀ a, f.count (a / pageSize) ≠ 0 →
        a / 8 ≠ 512 * (f.memory.reach va.page 3 r).1 +
          va.page / 512 ^ (f.memory.reach va.page 3 r).2 % 512 →
        f'.memory.byte a = f.memory.byte a) fun _ => True := by
  apply install_steps h.trees hr
  · exact fun cause f' _ _ => .of_eq_ok fun _ _ _ _ hok => nomatch hok
  intro ha hva fresh f1 ht hlen
  have hplace := (h.trees.reach_place (Shape.Trees.root_place hr va.page_lt)).1
  have hlevel : (f.memory.reach va.page 3 r).2 ≤ 3 := h.trees.level_le hplace
  rw [← hlen] at hlevel ⊢
  refine (hangTables_writes fresh _ f1 (h.trees.installed hplace) (fun ref href => ?_)
    hlevel).imp ?_
  · exact ((f.isFree_iff _).mp (ht.free ref href)).2.1
  rintro table f2 ⟨q, rfl, hq, hlast, hbyte⟩
  refine ⟨q, rfl, hq, fun old _ a hused hword => ?_⟩
  have hfresh : a / pageSize ∉ fresh.map (·.number) := fun hmem => hused (ht.count_zero hmem)
  rw [Frames.memory_setSlot, Memory.byte_setSlot_of_ne, hbyte a hword hfresh, ht.byte a hused]
  -- the leaf is in the last table, be that an old one or a fresh one
  rcases hlast with ⟨rfl, rfl⟩ | hmem
  · rwa [List.length_nil, Nat.pow_zero, Nat.div_one] at hword
  · intro hleaf
    have hpage : a / pageSize = q := by
      have hs := mod_slots_lt va.page
      unfold pageSize
      omega
    exact hfresh (hpage ▸ hmem)

/-- **Mapping a page** where nothing may be mapped. -/
theorem map_planted {t : PageTable} {va : VirtAddr} {c : Nat} {perm : Permission}
    (h : Planted g f) (hr : g.IsRoot t.root.number) (h0 : f.count c ≠ 0) :
    Ends (t.map va ⟨c⟩ perm) f (fun res f' =>
      match res with
      | .ok () => (∃ g' fresh, Replanted g (Function.update f.memory.mapped t.root.number
            (Function.update (f.memory.mapped t.root.number) va.page
              (some (.link (pageAt c) perm.toFlags)))) g' f' ∧ Enlarged fresh g f g' f') ∧
          f.memory.mapped t.root.number va.page = none ∧ va.isAligned = true ∧ va.val ≠ 0
      | .error cause => GivenBack c f f' ∧
          if cause = .duplicated then
            va.isAligned = true ∧ f.memory.mapped t.root.number va.page ≠ none
          else Refused f t.root.number va cause ∧
            (va.isAligned = true → f.memory.mapped t.root.number va.page = none)) E := by
  apply map_steps h.trees hr
  · rintro cause hcause
    refine (GivenBack.release_ends h0).imp fun _ f' h' => ⟨h', ?_⟩
    rcases hcause with ⟨rfl, ha⟩ | ⟨rfl, ha, hm⟩
    · refine ⟨ha, fun ht => ?_⟩
      rw [ha] at ht
      cases ht
    · exact ⟨ha, hm⟩
  · intro ha hnone
    refine (install_planted va h hr h0).imp fun res f' h' => ?_
    cases res with
    | ok old =>
      obtain ⟨⟨g', fresh, hmap, hnew, -⟩, -, -, hva⟩ := h'
      exact ⟨⟨g', fresh, hmap, hnew⟩, hnone, ha, hva⟩
    | error cause =>
      obtain ⟨hgiven, hrefused⟩ := h'
      refine ⟨hgiven, ?_⟩
      rw [if_neg]
      · exact ⟨hrefused, fun _ => hnone⟩
      · rintro rfl
        exact hrefused

/-- **Removing a mapping.** -/
theorem remove_planted {va : VirtAddr} {r : Nat} (h : Planted g f) (hr : g.IsRoot r) :
    Ends (remove (pageAt r) va) f (fun res f' =>
      match res with
      | .ok page => (∃ g', Replanted g (Function.update f.memory.mapped r
            (Function.update (f.memory.mapped r) va.page none)) g' f' ∧ Enlarged [] g f g' f') ∧
          (f.memory.mapped r va.page).bind Entry.frame? = some page ∧ va.isAligned = true
      | .error cause => f' = f ∧ (cause = .unaligned ∧ va.isAligned = false ∨
          cause = .notExist ∧ va.isAligned = true ∧ f.memory.mapped r va.page = none)) E := by
  apply remove_steps h.trees hr
  · exact fun cause hcause => ⟨rfl, hcause⟩
  · intro ha q page hq _ hframe
    have hset := h.setLeaf hq (mod_slots_lt va.page) .empty
    rw [Entry.page?_eq_none.mp Entry.page?_empty, if_neg Bool.false_ne_true, Nat.div_add_mod]
      at hset
    exact ⟨⟨g, hset, .of_count_eq fun c => f.count_setSlot ..⟩, hframe, ha⟩

end PageTable

end PagedKernel
