import PagedKernel.Process.Fork
import PagedKernel.Proofs.Process.Spaces

/-!
# The address space of a child

Every leaf of the parent gets a counterpart in the child (`CopyOf`): the same permission for the
same page, or for one just handed out where the user can write. So no page that a user can write
becomes shared, and the child maps what a process may. A page just handed out holds what the page of
the parent does (`Duplicates`), and no other page in use has changed, but that the pages that are
shared have more references. Where the memory runs out, the space in the making is destroyed and no
space has changed. Nothing in this halts: a page has fewer references than a count can hold.

Key definitions: `CopyOf`, `Duplicates`, `CopiedInto`, `forkCost`.
Key theorems: `CopiedInto.cons`, `copyMappings_ends`, `copySpace_ends`.
-/

namespace PagedKernel

variable {n : Nat} {g : Shape} {f : Frames n} {held : List Nat} {E : Halt → Prop}

/-- The leaf `p` of a parent is copied for its child. -/
def isCopiedLeaf (p : Nat × Entry) : Bool :=
  isCopied (VirtAddr.ofPage p.1).val (.ofFlags p.2.flags)

/-- A leaf is copied if a user can write its page, or if it is in the place of the console. -/
theorem isCopiedLeaf_iff {v : Nat} {e : Entry} (hv : v < 2 ^ 36) (hp : e.present = true) :
    isCopiedLeaf (v, e) = true ↔ (e.writable = true ∧ e.user = true) ∨ v = consolePage := by
  have hflags : Permission.ofFlags e.flags = ⟨true, e.writable, !e.noExecute, e.user⟩ := by
    unfold Permission.ofFlags
    rw [if_pos (show e.flags.present = true from hp)]
    rfl
  have haddr : (VirtAddr.ofPage v).val.toNat = consoleAddr ↔ v = consolePage := by
    have hto := VirtAddr.toNat_ofPage (v := v) (by omega)
    unfold VirtAddr.toNat at hto
    rw [hto, consolePage_eq]
    unfold pageSize consoleAddr
    omega
  unfold isCopiedLeaf isCopied
  rw [hflags, Bool.or_eq_true, Bool.and_eq_true, beq_iff_eq, haddr]

theorem isCopiedLeaf_text {v c : Nat} (hv1 : userFirst ≤ v) (hv2 : v < 2 ^ 36) (hc : c < 2 ^ 40) :
    isCopiedLeaf (v, .link (pageAt c) Permission.userText.toFlags) = false := by
  rw [← Bool.not_eq_true, isCopiedLeaf_iff hv2 (Entry.present_link hc _), Entry.writable_link hc]
  rintro (⟨hw, -⟩ | rfl)
  · exact nomatch hw
  · exact absurd hv1 (by decide)

/-- The leaf `e'` is what a child has for its parent's leaf `e` at page number `v`. -/
def CopyOf (v : Nat) (e e' : Entry) : Prop :=
  ∃ c, c < 2 ^ 40 ∧ e' = .link (pageAt c) (Permission.ofFlags e.flags).toFlags ∧
    if isCopiedLeaf (v, e) then Allocatable c else pageAt c = e.addr

namespace LeafAllowed

variable {v : Nat} {e e' : Entry}

theorem present (h : LeafAllowed v e) : e.present = true := by
  obtain ⟨c, perm, hlt, rfl, -⟩ := h
  exact Entry.present_link hlt _

theorem copy (h : LeafAllowed v e) (hc : CopyOf v e e') : LeafAllowed v e' := by
  have hcopied := isCopiedLeaf_iff (lt_trans h.page_lt (by decide)) h.present
  obtain ⟨c, perm, hlt, rfl, hleaf⟩ := h
  obtain ⟨c', hlt', rfl, hcopy⟩ := hc
  rw [Entry.writable_link hlt, Entry.user_link hlt] at hcopied
  rw [Entry.addr_link hlt] at hcopy
  rw [Entry.flags_link hlt, Permission.ofFlags_toFlags]
  refine ⟨c', perm, hlt', rfl, ?_⟩
  cases hleaf with
  | kernel h1 h2 hne =>
    rw [if_neg fun hx => (hcopied.mp hx).elim (fun hwu => nomatch hwu.2) hne] at hcopy
    obtain rfl := pageAt_injective hlt' hlt hcopy
    exact .kernel h1 h2 hne
  | console _ =>
    rw [if_pos (hcopied.mpr (.inr rfl))] at hcopy
    exact .console (.inr hcopy)
  | user h1 h2 hu ha =>
    refine .user h1 h2 hu ?_
    split at hcopy
    · exact hcopy
    · rwa [pageAt_injective hlt' hlt hcopy]

theorem flags_copy (h : LeafAllowed v e) (hc : CopyOf v e e') : e'.flags = e.flags := by
  obtain ⟨c, perm, hlt, rfl, -⟩ := h
  obtain ⟨c', hlt', rfl, -⟩ := hc
  rw [Entry.flags_link hlt', Entry.flags_link hlt, Permission.ofFlags_toFlags]
  rfl

end LeafAllowed

/-! ### What a child adds -/

/-- The number of leaves among `rest` that share page number `q` with a child. -/
def sharesOf (rest : List (Nat × Entry)) (q : Nat) : Nat :=
  rest.countP fun p => !isCopiedLeaf p && p.2.addr.pageNumber == q

theorem sharesOf_cons (p : Nat × Entry) (rest : List (Nat × Entry)) (q : Nat) :
    sharesOf (p :: rest) q = sharesOf [p] q + sharesOf rest q := by
  unfold sharesOf
  rw [← List.countP_append, List.singleton_append]

/-- The page of the leaf `e'` was free in `f`, and holds in `f'` what that of `e` holds in `f`. -/
structure Duplicates (f f' : Frames n) (e e' : Entry) : Prop where
  free : f.count e'.addr.pageNumber = 0
  byte : ∀ o < pageSize, f'.memory.byte (e'.addr.pageNumber * pageSize + o) =
    f.memory.byte (e.addr.pageNumber * pageSize + o)

namespace Duplicates

variable {r : Nat} {extra : Nat → Nat} {g' : Shape} {f1 f' : Frames n} {e e' : Entry}

theorem grown_right (h : Duplicates f f1 e e') (hg : Grown r extra g f1 g' f')
    (hc : f1.count e'.addr.pageNumber ≠ 0) (ht : g e'.addr.pageNumber = none) :
    Duplicates f f' e e' := by
  refine ⟨h.free, fun o ho => ?_⟩
  rw [hg.byte, h.byte o ho]
  · rw [page_add_div _ ho]
    rintro ⟨_, _, hsome⟩
    cases ht.symm.trans hsome
  · rwa [page_add_div _ ho]

theorem grown_left (h : Duplicates f1 f' e e') (hg : Grown r extra g f g' f1)
    (hc : f.count e.addr.pageNumber ≠ 0) (ht : g e.addr.pageNumber = none) :
    Duplicates f f' e e' := by
  refine ⟨hg.count_zero h.free, fun o ho => ?_⟩
  rw [h.byte o ho, hg.byte]
  · rw [page_add_div _ ho]
    rintro ⟨_, _, hsome⟩
    cases ht.symm.trans hsome
  · rwa [page_add_div _ ho]

end Duplicates

/-- The space with root `r` maps in `f'` counterparts of the leaves `rest`, and else what it maps in
`f`; and nothing but that space has changed. -/
structure CopiedInto (r : Nat) (rest : List (Nat × Entry)) (g : Shape) (f : Frames n) (g' : Shape)
    (f' : Frames n) : Prop where
  other : ∀ v, (∀ p ∈ rest, p.1 ≠ v) → f'.memory.mapped r v = f.memory.mapped r v
  leaf : ∀ p ∈ rest, ∃ e', f'.memory.mapped r p.1 = some e' ∧ CopyOf p.1 p.2 e' ∧
    (isCopiedLeaf p = true → Duplicates f f' p.2 e')
  grown : Grown r (sharesOf rest) g f g' f'

theorem CopiedInto.nil (r : Nat) (g : Shape) (f : Frames n) : CopiedInto r [] g f g f :=
  ⟨fun _ _ => rfl, nofun, .of_in_use (fun _ _ => rfl) fun _ _ => rfl⟩

section
variable [Addressable n]

/-- What a page for a child is: one just handed out, or the parent's own with one more reference. -/
structure ChildPage (g : Shape) (held : List Nat) (f : Frames n) (v : Nat) (e : Entry) (c : Nat)
    (f' : Frames n) : Prop where
  accounted : Accounted g (c :: held) f'
  kept : Kept (fun _ => True) g f g f'
  copyOf : CopyOf v e (.link (pageAt c) (Permission.ofFlags e.flags).toFlags)
  sole : isCopiedLeaf (v, e) = true → ∀ r v flags, g.Sole f'.memory r v (.link (pageAt c) flags)
  duplicates : isCopiedLeaf (v, e) = true →
    Duplicates f f' e (.link (pageAt c) (Permission.ofFlags e.flags).toFlags)
  grown : ∀ r, Grown r (sharesOf [(v, e)]) g f g f'
  freePages : f.freePages = f'.freePages + [(v, e)].countP isCopiedLeaf

theorem childPage_ends {r v : Nat} {e : Entry} (h : Accounted g held f)
    (hn : 1 + n * 512 + held.length < maxCount) (hr : g.IsRoot r)
    (hm : f.memory.mapped r v = some e) :
    Ends (childPage (.ofPage v) e) f (fun res f' =>
      match res with
      | none => f' = f ∧ isCopiedLeaf (v, e) = true ∧ f.freePages = 0
      | some page => ChildPage g held f v e page.number f') E := by
  obtain ⟨hgc, hcn⟩ := h.fits.mapped_target hr hm
  have hn40 := Addressable.le (n := n)
  unfold childPage
  refine .ite (fun hcopied => ?_) fun hshared => ?_
  · refine .bind .alloc ?_
    intro found f1 h1
    rcases found with _ | ref
    · exact .pure ⟨h1.1, hcopied, h1.2⟩
    have h1 : Frames.HandedOutFull allocFill f ref.number f1 := h1
    have hc : ref.number < 2 ^ 40 := by
      have := h1.lt
      omega
    obtain ⟨m2, hcopy, hbyte⟩ := f1.memory.copyPage_pageAt h1.lt hcn
    rw [← e.addr_eq_pageAt] at hcopy
    refine .step (Frames.modifyMemory_ok hcopy) ?_
    -- the copy changes the page just handed out, which nobody else uses
    have ho : Frames.HandedOut f ref.number { f1 with memory := m2 } :=
      ⟨h1.free, h1.count, fun a ha => by rw [hbyte, if_neg ha, h1.byte a ha]⟩
    have hcopied : isCopiedLeaf (v, e) = true := hcopied
    refine .pure ⟨h.handedOut ho, .of_in_use h ho.byte_in_use, ⟨_, hc, rfl, ?_⟩,
      fun _ r' v' flags => sole_of_handedOut h ho hc, fun _ => ?_, fun r' => ?_, ?_⟩
    · exact (if_pos hcopied).mpr h1.allocatable
    · refine ⟨(Entry.pageNumber_link hc _).symm ▸ ho.count_zero, fun o hlt => ?_⟩
      rw [Entry.pageNumber_link hc]
      show m2.byte _ = _
      rw [hbyte, page_add_div _ hlt, if_pos rfl, page_add_mod _ hlt, h1.byte_in_use]
      rw [page_add_div _ hlt]
      exact h.count_mapped hr hm
    · refine .of_in_use (fun q hq => ?_) ho.byte_in_use
      rw [ho.count_in_use hq]
      simp [sharesOf, hcopied]
    · rw [ho.freePages]
      simp [hcopied]
  · refine .bind (PageTable.share_ends h hn hr hm) ?_
    intro page f1 hpost
    obtain ⟨rfl, h1⟩ := hpost
    have hshared : ¬ isCopiedLeaf (v, e) = true := hshared
    refine .pure ⟨h1.accounted, h1.kept, ⟨_, lt_of_lt_of_le hcn hn40, rfl, ?_⟩,
      fun hcopied => absurd hcopied hshared, fun hcopied => absurd hcopied hshared,
      fun r' => .of_in_use (fun q _ => ?_) fun _ _ => by rw [h1.memory], ?_⟩
    · exact (if_neg hshared).mpr e.addr_eq_pageAt.symm
    · rw [h1.count]
      by_cases hq : q = e.addr.pageNumber
      · simp [sharesOf, hshared, hq]
      · simp [sharesOf, hq, Ne.symm hq]
    · rw [h1.freePages]
      simp [hshared]

/-- A listing that goes past the user region has all the leaves of a process. -/
theorem Spaces.mappings_first {kr : Nat} {P : Nat → Prop} {m : Memory n} {t : PageTable} {k : Nat}
    (hs : Spaces kr P g m) (hf : g.Fits m) (hr : g.IsRoot t.root.number) (hne : t.root.number ≠ kr)
    (hk : userPast ≤ k) (hhi : k * pageSize ≤ 2 ^ 47) :
    t.mappings m 0 (k * pageSize) = .ok ((t.leaves m).map mappingOf) := by
  rw [hf.mappings_eq hr hhi, List.filter_eq_self.mpr]
  intro p hp
  have hlt := (hs.leaf hne ⟨hr, PageTable.mem_leaves.mp hp⟩).page_lt
  exact pageMeets_first.mpr (lt_of_lt_of_le hlt hk)

theorem Spaces.mappings_eq {kr : Nat} {P : Nat → Prop} {m : Memory n} {t : PageTable}
    (hs : Spaces kr P g m) (hf : g.Fits m) (hr : g.IsRoot t.root.number)
    (hne : t.root.number ≠ kr) :
    t.mappings m 0 virtualSize = .ok ((t.leaves m).map mappingOf) :=
  hs.mappings_first (k := userPast) hf hr hne le_rfl (by decide)

/-- The page for a child is mapped in the space in the making `t`, where nothing is mapped yet. -/
theorem installCopy_ends {kr rp v c : Nat} {t : PageTable} {e : Entry} (ht : t.root.number ≠ kr)
    (hpk : rp ≠ kr) (h : Accounted g (c :: held) f)
    (hs : Spaces kr (· ≠ t.root.number) g f.memory) (hr : g.IsRoot t.root.number)
    (hm : g.Maps f.memory rp v e) (hcopy : CopyOf v e
      (.link (pageAt c) (Permission.ofFlags e.flags).toFlags))
    (hsole : isCopiedLeaf (v, e) = true →
      ∀ r v flags, g.Sole f.memory r v (.link (pageAt c) flags))
    (hnew : f.memory.mapped t.root.number v = none) :
    Ends (PageTable.install t.pa (.ofPage v) ⟨c⟩ (.ofFlags e.flags)) f (fun res f' =>
      ∃ g', Accounted g' held f' ∧ Spaces kr (· ≠ t.root.number) g' f'.memory ∧
        Kept (· ≠ t.root.number) g f g' f' ∧ g'.IsRoot t.root.number ∧
        match res with
        | .ok _ => f'.memory.mapped t.root.number =
              Function.update (f.memory.mapped t.root.number) v
                (some (.link (pageAt c) (Permission.ofFlags e.flags).toFlags)) ∧
            Grown t.root.number (fun _ => 0) g f g' f' ∧
            f.freePages = f'.freePages + (f.memory.reach v 3 t.root.number).2
        | .error _ => f.freePages < (f.memory.reach v 3 t.root.number).2) E := by
  have hallowed := hs.leaf hpk hm
  have hv := hallowed.page_lt
  have hv1 := hallowed.page_pos
  rw [userPast_eq] at hv
  have hv : v < 2 ^ 36 := by omega
  refine (PageTable.install_ends (.ofPage v) h hr).imp ?_
  intro found f1 h1
  rcases found with cause | old
  · obtain ⟨h1, hk1, -, hrefused⟩ := h1
    exact ⟨g, h1, hs.kept hk1, hk1.mono fun _ _ => trivial, hr,
      (PageTable.refused_ofPage hv1 hv hrefused).2⟩
  obtain ⟨⟨g1, h1, hmap, hgrown⟩, hold, -, -, hfree⟩ := h1
  rw [VirtAddr.page_ofPage hv] at hmap hold hfree
  rw [hnew, Option.bind_none] at hold
  subst hold
  have hprivate : g1.Private f1.memory := by
    refine hs.isPrivate.install hr hmap fun r' v' e' hmaps hne ha hcons => ?_
    by_cases hcopied : isCopiedLeaf (v, e) = true
    · exact absurd (hsole hcopied _ _ _ hmaps ha) hne
    · have hnot : ¬ (e.writable = true ∧ e.user = true) := fun hwu =>
        hcopied ((isCopiedLeaf_iff hv hallowed.present).mpr (.inl hwu))
      obtain ⟨c', hc, heq, hpage⟩ := hcopy
      have hpage : pageAt c' = e.addr := (if_neg hcopied).mp hpage
      rw [heq, Entry.addr_link hc, hpage] at ha hcons
      refine ⟨fun hwu => hnot ?_, fun hwu => hnot ?_⟩
      · obtain ⟨c1, perm, hlt, he, -⟩ := hallowed
        rw [heq, he, Entry.flags_link hlt, Permission.ofFlags_toFlags, Entry.writable_link hc,
          Entry.user_link hc] at hwu
        rw [he, Entry.writable_link hlt, Entry.user_link hlt]
        exact hwu
      · -- a writable leaf with this page would be the parent's own
        obtain ⟨rfl, rfl⟩ := hs.isPrivate hmaps hm hwu.1 hwu.2 ha.symm (ha.symm ▸ hcons)
        rw [Option.some.inj (hm.2.symm.trans hmaps.2)]
        exact hwu
  exact ⟨g1, h1, hs.installed hr hmap ht (hallowed.copy hcopy) hprivate, hmap.kept, hmap.isRoot,
    hmap.mapped, hgrown, hfree⟩

/-! ### The pages that a child needs -/

/-- How many pages it takes to give a space that maps the pages `D` counterparts of the leaves
`rest`: one for each table that is missing, and one for each leaf that is copied. -/
def copyCost (D : Finset Nat) (rest : List (Nat × Entry)) : Nat :=
  (placesFor (D ∪ leafPages rest)).card - (placesFor D).card + rest.countP isCopiedLeaf

omit [Addressable n] in
theorem copyCost_cons (D : Finset Nat) (v : Nat) (e : Entry) (rest : List (Nat × Entry)) :
    copyCost D ((v, e) :: rest) = [(v, e)].countP isCopiedLeaf +
      ((placesFor (insert v D)).card - (placesFor D).card) + copyCost (insert v D) rest := by
  have hfirst : (placesFor D).card ≤ (placesFor (insert v D)).card :=
    card_placesFor_mono (Finset.subset_insert v D)
  have hrest : (placesFor (insert v D)).card ≤ (placesFor (insert v D ∪ leafPages rest)).card :=
    card_placesFor_mono Finset.subset_union_left
  have hcount : ((v, e) :: rest).countP isCopiedLeaf =
      [(v, e)].countP isCopiedLeaf + rest.countP isCopiedLeaf := by
    rw [← List.countP_append, List.singleton_append]
  unfold copyCost
  rw [leafPages_cons, Finset.union_insert, ← Finset.insert_union, hcount]
  omega

/-- How many pages it takes to duplicate the space of `parent`: one for each of its tables, and one
for each leaf that is copied. -/
def forkCost (parent : PageTable) (m : Memory n) : Nat :=
  (m.tablesBelow 3 parent.root.number).length + (parent.leaves m).countP isCopiedLeaf

omit [Addressable n] in
/-- A new space needs as many tables as its parent has. -/
theorem copyCost_empty {kr : Nat} {P : Nat → Prop} {parent : PageTable}
    (hs : Spaces kr P g f.memory) (hf : g.Fits f.memory) (hr : g.IsRoot parent.root.number)
    (hne : parent.root.number ≠ kr) :
    copyCost ∅ (parent.leaves f.memory) + 1 = forkCost parent f.memory := by
  unfold copyCost forkCost
  rw [(hs.trim hne hr).length_tables hf hr parent.mem_leafPages, Finset.empty_union,
    placesFor_empty, Finset.card_empty]
  omega

/-! ### All leaves -/

theorem CopiedInto.cons {rp v c : Nat} {t : PageTable} {e : Entry} {rest : List (Nat × Entry)}
    {g2 g3 : Shape} {f1 f2 f3 : Frames n}
    (h : Pending held rp t.root.number ((v, e) :: rest) g f) (h1 : ChildPage g held f v e c f1)
    (h2 : Accounted g2 held f2) (hr2 : g2.IsRoot t.root.number)
    (hself : f2.memory.mapped t.root.number v =
      some (.link (pageAt c) (Permission.ofFlags e.flags).toFlags))
    (hother : ∀ w, w ≠ v → f2.memory.mapped t.root.number w = f.memory.mapped t.root.number w)
    (hgrown : Grown t.root.number (fun _ => 0) g f1 g2 f2)
    (hdone : CopiedInto t.root.number rest g2 f2 g3 f3) :
    CopiedInto t.root.number ((v, e) :: rest) g f g3 f3 := by
  have hgrown2 : Grown t.root.number (fun q => sharesOf [(v, e)] q + 0) g f g2 f2 :=
    (h1.grown _).trans hgrown
  constructor
  case other =>
    intro w hw
    rw [hdone.other w fun p hp => hw p (List.mem_cons_of_mem _ hp)]
    exact hother w (Ne.symm (hw _ List.mem_cons_self))
  case leaf =>
    intro p hp
    rcases List.mem_cons.mp hp with rfl | hp
    · refine ⟨_, ?_, h1.copyOf, fun hcopied => ?_⟩
      · rw [hdone.other v fun p hp => Nat.ne_of_gt (h.lt p hp), hself]
      · -- the page of the copy is a handle first, and then mapped
        have htarget1 := h1.accounted.handle _ List.mem_cons_self
        have hcount1 := h1.accounted.count_handle List.mem_cons_self
        have hpage := Entry.pageNumber_link (lt_of_lt_of_le htarget1.1 Addressable.le)
          (Permission.ofFlags e.flags).toFlags
        have hdup : Duplicates f f2 e (.link (pageAt c) (Permission.ofFlags e.flags).toFlags) :=
          (h1.duplicates hcopied).grown_right hgrown (by rwa [hpage])
            (by rw [hpage]; exact htarget1.2)
        exact hdup.grown_right hdone.grown (h2.count_mapped hr2 hself)
          (h2.fits.mapped_target hr2 hself).1
    · obtain ⟨e', hm', hcopy', hdup⟩ := hdone.leaf p hp
      have hp' := h.mapped p (List.mem_cons_of_mem _ hp)
      exact ⟨e', hm', hcopy', fun hcopied => (hdup hcopied).grown_left hgrown2
        (h.accounted.count_mapped h.source hp') (h.accounted.fits.mapped_target h.source hp').1⟩
  case grown =>
    have hgrown3 := hgrown2.trans hdone.grown
    have hshares : (fun q => sharesOf [(v, e)] q + 0 + sharesOf rest q) =
        sharesOf ((v, e) :: rest) := funext fun q => (sharesOf_cons (v, e) rest q).symm
    rwa [hshares] at hgrown3

/-- The mappings in `rest` are copied into the space in the making `t`, which maps the pages `D`. -/
theorem copyMappings_ends {kr rp : Nat} {t : PageTable} (ht : t.root.number ≠ kr) (hpk : rp ≠ kr)
    (hn : 1 + n * 512 + held.length < maxCount) :
    ∀ (rest : List (Nat × Entry)) (D : Finset Nat) {g : Shape} {f : Frames n},
    Pending held rp t.root.number rest g f → Spaces kr (· ≠ t.root.number) g f.memory →
    (∀ v, v ∈ D ↔ f.memory.mapped t.root.number v ≠ none) →
    Ends (copyMappings t (rest.map mappingOf)) f (fun done f' => ∃ g', Accounted g' held f' ∧
      Spaces kr (· ≠ t.root.number) g' f'.memory ∧ Kept (· ≠ t.root.number) g f g' f' ∧
      g'.IsRoot t.root.number ∧
      match done with
      | true => CopiedInto t.root.number rest g f g' f' ∧
          f.freePages = f'.freePages + copyCost D rest
      | false => f.freePages < copyCost D rest) E
  | [], D, g, f, h, hs, _ => by
    refine .pure ⟨g, h.accounted, hs, .refl _ _ _, h.target, .nil _ _ _, ?_⟩
    have hnothing : copyCost D [] = 0 := by simp [copyCost, leafPages]
    rw [hnothing, Nat.add_zero]
  | (v, e) :: rest, D, g, f, h, hs, hD => by
    have hr := h.target
    have hm : f.memory.mapped rp v = some e := h.mapped _ List.mem_cons_self
    have hv := Shape.Trees.mapped_lt hm
    rw [List.map_cons, copyCost_cons]
    refine .bind (childPage_ends h.accounted hn h.source hm) ?_
    intro res f1 h1
    rcases res with _ | page
    · obtain ⟨rfl, hcopied, h0⟩ := h1
      refine .pure ⟨g, h.accounted, hs, .refl _ _ _, hr, ?_⟩
      dsimp only
      rw [h0, List.countP_singleton, if_pos hcopied]
      omega
    have h1 : ChildPage g held f v e page.number f1 := h1
    have hk1 := h1.kept
    have hm1 : f1.memory.mapped rp v = some e := by rw [hk1.mapped trivial h.source, hm]
    have hsame := hk1.mapped trivial hr
    have hfree1 := h1.freePages
    have hreach := ((hs.kept hk1).trim ht hr).card_insert h1.accounted.fits hr (hsame ▸ hD) hv
    refine .bind (installCopy_ends ht hpk h1.accounted (hs.kept hk1) hr ⟨h.source, hm1⟩ h1.copyOf
      h1.sole (hsame ▸ h.fresh _ List.mem_cons_self)) ?_
    intro res f2 hpost
    obtain ⟨g2, h2, hs2, hk2, hr2, hres⟩ := hpost
    have hk2 : Kept (· ≠ t.root.number) g f g2 f2 := (hk1.mono fun _ _ => trivial).trans hk2
    rcases res with cause | old
    · refine .pure ⟨g2, h2, hs2, hk2, hr2, ?_⟩
      dsimp only at hres ⊢
      omega
    obtain ⟨hmap, hgrown, hfree2⟩ := hres
    have hfree2 : f1.freePages = f2.freePages + (f1.memory.reach v 3 t.root.number).2 := hfree2
    have hself : f2.memory.mapped t.root.number v =
        some (.link (pageAt page.number) (Permission.ofFlags e.flags).toFlags) := by
      rw [hmap, Function.update_self]
    have hother : ∀ w, w ≠ v → f2.memory.mapped t.root.number w =
        f.memory.mapped t.root.number w := fun w hne => by
      rw [hmap, Function.update_of_ne hne, hsame]
    have hD2 : ∀ w, w ∈ insert v D ↔ f2.memory.mapped t.root.number w ≠ none := fun w => by
      rw [Finset.mem_insert]
      by_cases hw : w = v
      · rw [hw, hself]
        exact iff_of_true (.inl rfl) (Option.some_ne_none _)
      · rw [hother w hw, ← hD, or_iff_right hw]
    refine (copyMappings_ends ht hpk hn rest (insert v D) (h.next h2 hk2 hr2 hother) hs2
      hD2).imp ?_
    intro done f3 hpost
    obtain ⟨g3, h3, hs3, hk3, hr3, hdone⟩ := hpost
    refine ⟨g3, h3, hs3, hk2.trans hk3, hr3, ?_⟩
    cases done with
    | false =>
      dsimp only at hdone ⊢
      omega
    | true =>
      obtain ⟨hdone, hfree3⟩ := hdone
      exact ⟨.cons h h1 h2 hr2 hself hother hgrown hdone, by omega⟩

/-- All leaves of the parent are copied into a new space. -/
theorem copyLeaves_ends {kr : Nat} {parent t : PageTable} {g1 : Shape} {f1 : Frames n}
    (h : Accounted g held f) (hs : Spaces kr (fun _ => True) g f.memory)
    (hrp : g.IsRoot parent.root.number) (hpk : parent.root.number ≠ kr)
    (hn : 1 + n * 512 + held.length < maxCount) (hfresh : ¬ g.IsRoot t.root.number)
    (h1 : Accounted g1 held f1) (hm1 : Remapped t.root.number (fun _ => none) g f g1 f1) :
    Ends (copyMappings t ((parent.leaves f.memory).map mappingOf)) f1 (fun done f' =>
      ∃ g', Accounted g' held f' ∧ Spaces kr (· ≠ t.root.number) g' f'.memory ∧
        Kept (· ≠ t.root.number) g1 f1 g' f' ∧ g'.IsRoot t.root.number ∧
        match done with
        | true => CopiedInto t.root.number (parent.leaves f.memory) g1 f1 g' f' ∧
            f1.freePages = f'.freePages + copyCost ∅ (parent.leaves f.memory)
        | false => f1.freePages < copyCost ∅ (parent.leaves f.memory)) E := by
  have htk : t.root.number ≠ kr := fun heq => hfresh (heq ▸ hs.kernelRoot)
  have htp : parent.root.number ≠ t.root.number := fun heq => hfresh (heq ▸ hrp)
  have hs1 := (hs.mono fun _ _ => trivial).new h.fits hm1 hfresh htk
  refine copyMappings_ends htk hpk hn _ ∅ (.of_new hrp htp h1 hm1) hs1 fun v => ?_
  rw [hm1.mapped]
  simp

omit [Addressable n] in
/-- A new space with counterparts of all the leaves of the parent has one for each, and no others.
-/
theorem CopiedInto.of_new {parent : PageTable} {t : Nat} {g1 g2 : Shape} {f1 f2 : Frames n}
    (h : Accounted g held f) (hrp : g.IsRoot parent.root.number)
    (hm1 : Remapped t (fun _ => none) g f g1 f1) (hgrown1 : Grown t (fun _ => 0) g f g1 f1)
    (hdone : CopiedInto t (parent.leaves f.memory) g1 f1 g2 f2) (v : Nat) :
    match f.memory.mapped parent.root.number v with
    | none => f2.memory.mapped t v = none
    | some e => ∃ e', f2.memory.mapped t v = some e' ∧ CopyOf v e e' ∧
        (isCopiedLeaf (v, e) = true → Duplicates f f2 e e') := by
  cases hm : f.memory.mapped parent.root.number v with
  | none =>
    dsimp only
    rw [hdone.other v fun p hp hpv => ?_, hm1.mapped]
    have hp := PageTable.mem_leaves.mp hp
    rw [hpv, hm] at hp
    cases hp
  | some e =>
    obtain ⟨e', hm', hcopy, hdup⟩ := hdone.leaf (v, e) (PageTable.mem_leaves.mpr hm)
    exact ⟨e', hm', hcopy, fun hcopied => (hdup hcopied).grown_left hgrown1
      (h.count_mapped hrp hm) (h.fits.mapped_target hrp hm).1⟩

/-- **A copy of an address space**, or nothing of it. The memory suffices just if there is a free
page for each table of the parent and for each leaf that is copied. -/
theorem copySpace_ends {kr : Nat} {parent : PageTable} (h : Accounted g held f)
    (hs : Spaces kr (fun _ => True) g f.memory) (hrp : g.IsRoot parent.root.number)
    (hpk : parent.root.number ≠ kr) (hn : 1 + n * 512 + held.length < maxCount) :
    Ends (copySpace parent) f (fun res f' => ∃ g', Accounted g' held f' ∧
      Spaces kr (fun _ => True) g' f'.memory ∧
      match res with
      | none => Kept (fun _ => True) g f g' f' ∧
          f.freePages < forkCost parent f.memory
      | some t => ¬ g.IsRoot t.root.number ∧ g'.IsRoot t.root.number ∧
          Kept (· ≠ t.root.number) g f g' f' ∧
          Grown t.root.number (sharesOf (parent.leaves f.memory)) g f g' f' ∧
          f.freePages = f'.freePages + forkCost parent f.memory ∧
          ∀ v, match f.memory.mapped parent.root.number v with
            | none => f'.memory.mapped t.root.number v = none
            | some e => ∃ e', f'.memory.mapped t.root.number v = some e' ∧ CopyOf v e e' ∧
                (isCopiedLeaf (v, e) = true → Duplicates f f' e e')) E := by
  have hcost := copyCost_empty hs h.fits hrp hpk
  unfold copySpace
  refine .step (Frames.read_ok (hs.mappings_eq h.fits hrp hpk)) ?_
  refine .bind (PageTable.new?_ends h) ?_
  intro found f1 h1
  rcases found with _ | t
  · obtain ⟨rfl, h0⟩ := h1
    exact .pure ⟨g, h, hs, .refl _ _ _, by omega⟩
  obtain ⟨⟨g1, h1, hm1, hgrown1⟩, hfresh, hfree1⟩ := h1
  have htk : t.root.number ≠ kr := fun heq => hfresh (heq ▸ hs.kernelRoot)
  refine .bind (copyLeaves_ends h hs hrp hpk hn hfresh h1 hm1) ?_
  intro done f2 hpost
  obtain ⟨g2, h2, hs2, hk2, hr2, hdone⟩ := hpost
  have hk := hm1.kept.trans hk2
  cases done with
  | true =>
    obtain ⟨hdone, hfree2⟩ := hdone
    have hgrown := hgrown1.trans hdone.grown
    simp only [Nat.zero_add] at hgrown
    have hmapped := hdone.of_new h hrp hm1 hgrown1
    refine .pure ⟨g2, h2, hs2.finished fun v hv1 hv2 => ?_, hfresh, hr2, hk, hgrown, by omega,
      hmapped⟩
    -- the parent maps the whole kernel, and so does its child
    obtain ⟨e, hm⟩ := Option.ne_none_iff_exists'.mp (hs.complete trivial hrp hpk hv1 hv2)
    have hcopy := hmapped v
    rw [hm] at hcopy
    obtain ⟨e', he', -⟩ := hcopy
    rw [he']
    exact Option.some_ne_none _
  | false =>
    refine .bind (PageTable.destroy_ends h2 hr2) ?_
    intro _ f3 hpost
    obtain ⟨g3, h3, hk3, hgone⟩ := hpost
    dsimp only at hdone
    exact .pure ⟨g3, h3, hs2.dropped hk3 htk hgone, (hk.trans hk3).all h.fits h3.fits hfresh hgone,
      by omega⟩

end

end PagedKernel
