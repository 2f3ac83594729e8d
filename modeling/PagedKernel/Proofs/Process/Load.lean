import PagedKernel.Process.Load
import PagedKernel.Proofs.Process.Sharing
import PagedKernel.Proofs.Spaces.Chunks

/-!
# Loading a program

What the steps of the loader do in frames where the tables are trees is said once, whatever is to be
shown of it: how a page is brought (`mapPage_steps`), and how a segment is its pages and then its
data (`mapSegment_steps`).

The space of a new process is filled page by page. While it is, every page it maps in the user
region is mapped nowhere else (`Filling`): a fresh page was free, and a page that an earlier segment
brought is taken out before it is mapped again with more permission. The data of a segment goes to
such pages alone. Loading may halt for many reasons.

Key definition: `Filling`.
Key theorems: `Filling.map_ends`, `mapPage_steps`, `mapPage_ends`, `mapSegment_steps`,
`mapSegment_ends`.
-/

namespace PagedKernel

variable {n : Nat} {g : Shape} {f : Frames n} {held : List Nat} {E : Halt → Prop}

/-- A leaf in the user region is for the user and maps a page that was handed out. -/
theorem LeafAllowed.user {v : Nat} {e : Entry} (h : LeafAllowed v e) (hv : userFirst ≤ v) :
    ∃ (c : Nat) (perm : Permission), c < 2 ^ 40 ∧ e = .link (pageAt c) perm.toFlags ∧
      Allocatable c ∧ perm.user = true := by
  obtain ⟨c, perm, hc, he, hleaf⟩ := h
  cases hleaf with
  | kernel _ hv2 _ => exact absurd hv2 (Nat.not_lt.mpr hv)
  | console _ => exact absurd hv (by decide)
  | user _ _ huser hall => exact ⟨c, perm, hc, he, hall, huser⟩

/-- The space with root `t` maps the whole kernel, and its pages in the user region are its own. -/
structure Filling (kr : Nat) (held : List Nat) (t : Nat) (g : Shape) (f : Frames n) : Prop where
  accounted : Accounted g held f
  spaces : Spaces kr (fun _ => True) g f.memory
  isRoot : g.IsRoot t
  ne : t ≠ kr
  sole : ∀ {v e}, userFirst ≤ v → f.memory.mapped t v = some e → g.Sole f.memory t v e

namespace Filling

variable {kr : Nat} {t : PageTable} {f' : Frames n}

/-- A space that has nothing but the kernel is to be filled. -/
theorem of_sharing {t : Nat} {g' : Shape} (h : Accounted g' held f')
    (hs' : Spaces kr (fun _ => True) g' f'.memory) (hs : Spaces kr (fun _ => True) g f.memory)
    (hfresh : ¬ g.IsRoot t) (hm : Remapped t kernelLeaf g f g' f') : Filling kr held t g' f' := by
  refine ⟨h, hs', hm.isRoot, fun heq => hfresh (heq ▸ hs.kernelRoot), fun {v e} hv he => ?_⟩
  rw [hm.mapped] at he
  exact absurd (LeafAllowed.of_kernelLeaf he).2.1 (Nat.not_lt.mpr hv)

theorem handedOut {t : Nat} (h : Filling kr held t g f) {c : Nat} (ho : Frames.HandedOut f c f') :
    Filling kr (c :: held) t g f' := by
  have hk : Kept (fun _ => True) g f g f' := .of_in_use h.accounted ho.byte_in_use
  refine ⟨h.accounted.handedOut ho, h.spaces.kept hk, h.isRoot, h.ne, fun hv hm => ?_⟩
  rw [hk.mapped trivial h.isRoot] at hm
  exact (h.sole hv hm).of_sub fun _ _ _ hmaps => (Shape.Maps.of_kept hk trivial).mp hmaps

theorem wrote {t : Nat} (h : Filling kr held t g f) {S : Nat → Prop} (hw : Wrote S f f')
    (hS : ∀ q, S q → ∃ v e, userFirst ≤ v ∧ f.memory.mapped t v = some e ∧
      e.addr.pageNumber = q) : Filling kr held t g f' ∧ Kept (· ≠ t) g f g f' := by
  have hfits := h.accounted.fits
  have hnone : ∀ q, S q → g q = none := fun q hq => by
    obtain ⟨v, e, -, hm, rfl⟩ := hS q hq
    exact (hfits.mapped_target h.isRoot hm).1
  have hmapped : ∀ {r}, g.IsRoot r → f'.memory.mapped r = f.memory.mapped r :=
    hw.mapped hnone hfits
  refine ⟨⟨hw.accounted hnone h.accounted, h.spaces.wrote hw hnone hfits, h.isRoot, h.ne,
    fun hv hm => ?_⟩, hw.kept hnone hfits fun {r v e} hr hroot hm hpage => ?_⟩
  · rw [hmapped h.isRoot] at hm
    exact (h.sole hv hm).of_sub fun _ _ _ hmaps => ⟨hmaps.1, hmapped hmaps.1 ▸ hmaps.2⟩
  · obtain ⟨v', e', hv', hm', hpage⟩ := hS _ hpage
    have haddr : e.addr = e'.addr := by
      rw [e.addr_eq_pageAt, e'.addr_eq_pageAt, hpage]
    exact hr (h.sole hv' hm' ⟨hroot, hm⟩ haddr).1

/-- A page that nothing else maps is mapped in the user region, maybe in the place of itself. -/
theorem installed {t v c : Nat} {perm : Permission} {held' : List Nat} {g' : Shape}
    (h : Filling kr held t g f) (hacc : Accounted g' held' f')
    (hm : Remapped t (Function.update (f.memory.mapped t) v
      (some (.link (pageAt c) perm.toFlags))) g f g' f') (hc : c < 2 ^ 40)
    (hleaf : UserLeaf v c perm) (hsole : g.Sole f.memory t v (.link (pageAt c) perm.toFlags)) :
    Filling kr held' t g' f' := by
  refine ⟨hacc, ?_, hm.isRoot, h.ne, fun {w e} hw hmapped => ?_⟩
  · exact h.spaces.installed h.isRoot hm h.ne ⟨c, perm, hc, rfl, hleaf⟩
      (h.spaces.isPrivate.install_sole h.isRoot hm hsole)
  · rw [hm.mapped] at hmapped
    by_cases hwv : w = v
    · subst hwv
      rw [Function.update_self, Option.some.injEq] at hmapped
      exact hmapped ▸ hsole.install h.isRoot hm fun _ => ⟨rfl, rfl⟩
    · rw [Function.update_of_ne hwv] at hmapped
      refine (h.sole hw hmapped).install h.isRoot hm fun ha => ?_
      exact absurd (hsole ⟨h.isRoot, hmapped⟩ ha.symm).2 hwv

section
variable [Addressable n]

/-- A page that is mapped nowhere is mapped in the user region. -/
theorem map_ends {va : VirtAddr} {c : Nat} {perm : Permission}
    (h : Filling kr (c :: held) t.root.number g f) (hv1 : userFirst ≤ va.page)
    (hv2 : va.page < userPast) (hall : Allocatable c) (huser : perm.user = true)
    (hsole : g.Sole f.memory t.root.number va.page (.link (pageAt c) perm.toFlags)) :
    Ends (t.map va ⟨c⟩ perm) f (fun res f' =>
      match res with
      | .ok () => (∃ g', Filling kr held t.root.number g' f' ∧
          Kept (· ≠ t.root.number) g f g' f' ∧ Grown t.root.number (fun _ => 0) g f g' f') ∧
          f'.memory.mapped t.root.number = Function.update (f.memory.mapped t.root.number) va.page
            (some (.link (pageAt c) perm.toFlags)) ∧
          f.freePages = f'.freePages + (f.memory.reach va.page 3 t.root.number).2
      | .error cause =>
          if cause = .duplicated then f.memory.mapped t.root.number va.page ≠ none
          else PageTable.Refused f t.root.number va cause) E := by
  refine (PageTable.map_ends h.accounted h.isRoot).imp ?_
  intro found f' hmap
  rcases found with cause | _
  · exact hmap.2.2.2
  obtain ⟨⟨g', hacc, hm, hgrown⟩, -, hfree⟩ := hmap
  have hc : c < 2 ^ 40 :=
    lt_of_lt_of_le (h.accounted.handle c List.mem_cons_self).1 (Addressable.le (n := n))
  have hfilled := h.installed hacc hm hc (.user hv1 hv2 huser hall) hsole
  exact ⟨⟨g', hfilled, hm.kept, hgrown⟩, hm.mapped, hfree⟩

/-- A page that was free and is full of zeros is mapped in the user region. -/
theorem mapFresh_ends {v c : Nat} {perm : Permission} {f1 : Frames n}
    (h : Filling kr held t.root.number g f) (ho : Frames.HandedOutFull 0 f c f1)
    (hv1 : userFirst ≤ v) (hv2 : v < userPast) (huser : perm.user = true) :
    Ends (t.map (.ofPage v) ⟨c⟩ perm) f1 (fun res f' =>
      match res with
      | .ok () => (∃ g', Filling kr held t.root.number g' f' ∧
          Kept (· ≠ t.root.number) g f g' f' ∧ Grown t.root.number (fun _ => 0) g f g' f') ∧
          f'.memory.mapped t.root.number = Function.update (f.memory.mapped t.root.number) v
            (some (.link (pageAt c) perm.toFlags)) ∧
          f.freePages ≤ f'.freePages + 4
      | .error _ => f.memory.mapped t.root.number v = none → f.freePages < 4) E := by
  have hv36 : v < 2 ^ 36 := by
    rw [userPast_eq] at hv2
    omega
  have hpage : (VirtAddr.ofPage v).page = v := VirtAddr.page_ofPage hv36
  have hc := lt_of_lt_of_le ho.lt (Addressable.le (n := n))
  have hk : Kept (fun _ => True) g f g f1 := .of_in_use h.accounted ho.byte_in_use
  have hg : Grown t.root.number (fun _ => 0) g f g f1 :=
    .of_in_use (fun _ => ho.count_in_use) ho.byte_in_use
  have hfree := ho.freePages
  have hreach := Shape.Trees.reach_le f1.memory v 3 t.root.number
  have hmap := (h.handedOut ho.toHandedOut).map_ends (E := E) (by rwa [hpage])
    (by rwa [hpage]) ho.allocatable huser (sole_of_handedOut h.accounted ho.toHandedOut hc)
  rw [hpage, hk.mapped trivial h.isRoot] at hmap
  refine hmap.imp ?_
  rintro (cause | _) f' h'
  · intro hnone
    dsimp only at h'
    split at h'
    · exact absurd hnone h'
    · have hv0 : 1 ≤ v := le_trans (by decide) hv1
      have hlt := (PageTable.refused_ofPage hv0 hv36 h').2
      omega
  · obtain ⟨⟨g', h', hk', hg'⟩, hm, hfree'⟩ := h'
    exact ⟨⟨g', h', .trans (hk.mono fun _ _ => trivial) hk', hg.trans hg'⟩, hm, by omega⟩

/-- A page of the user region that was taken out of it is mapped there again. In between a table may
lead to nothing. -/
theorem remap_ends {va : VirtAddr} {e : Entry} {page : FrameRef} {perm : Permission} {f1 : Frames n}
    (h : Filling kr held t.root.number g f) (hv : userFirst ≤ va.page)
    (hm : f.memory.mapped t.root.number va.page = some e) (huser : perm.user = true)
    (hacc : Accounted g (page.number :: held) f1)
    (hout : Remapped t.root.number (Function.update (f.memory.mapped t.root.number) va.page none)
      g f g f1)
    (hpage : (f.memory.mapped t.root.number va.page).bind Entry.frame? = some page) :
    Ends (t.map va page perm) f1 (fun res f' => res = .ok () → ∃ g',
      Filling kr held t.root.number g' f' ∧ Kept (· ≠ t.root.number) g f g' f') E := by
  have hallowed := h.spaces.leaf h.ne ⟨h.isRoot, hm⟩
  have hpast := hallowed.page_lt
  obtain ⟨c, old, hc, rfl, hall, -⟩ := hallowed.user hv
  rw [hm, Option.bind_some, Entry.frame?_of_page? (Entry.page?_link hc rfl) (by omega)] at hpage
  obtain rfl := Option.some.inj hpage
  refine (PageTable.map_ends hacc hout.isRoot).imp ?_
  rintro found f' hmap rfl
  obtain ⟨⟨g', hacc', hback, -⟩, -, -⟩ := hmap
  rw [hout.mapped, Function.update_idem] at hback
  have hm' := hout.trans hback fun w hw => by
    by_cases hwv : w = va.page
    · rw [hwv, Function.update_self]
      exact Option.some_ne_none _
    · rwa [Function.update_of_ne hwv] at hw ⊢
  have hsole : g.Sole f.memory t.root.number va.page (.link (pageAt c) perm.toFlags) :=
    fun r' v' e' hmaps ha => by
      rw [Entry.addr_link hc] at ha
      exact h.sole hv hm hmaps (by rw [ha, Entry.addr_link hc])
  exact ⟨g', h.installed hacc' hm' hc (.user hv hpast huser hall) hsole, hm'.kept⟩

end

end Filling

section
variable [Addressable n] {kr : Nat} {t : PageTable}

/-- A page that is mapped stays or is taken out and mapped again with more permission; if none is,
a page of zeros is mapped. -/
theorem mapPage_steps {program : String} {va : VirtAddr} {perm : Permission} {Q : Frames n → Prop}
    (h : g.Trees f.memory) (hr : g.IsRoot t.root.number) (hE : ∀ e, E e)
    (hnew : f.memory.mapped t.root.number va.page = none → ∀ c f1, Frames.HandedOutFull 0 f c f1 →
      Ends (t.map va ⟨c⟩ perm) f1 (fun res f' => res = .ok () → Q f') E)
    (hsame : ∀ e, f.memory.mapped t.root.number va.page = some e →
      (Permission.ofFlags e.flags).contains perm = true → Q f)
    (hmore : ∀ e, f.memory.mapped t.root.number va.page = some e →
      Ends (t.unmap va) f (fun res f1 => ∀ page, res = .ok page →
        Ends (t.map va page ((Permission.ofFlags e.flags).union perm)) f1
          (fun res f' => res = .ok () → Q f') E) E) :
    Ends (mapPage program t va perm) f (fun _ f' => Q f') E := by
  unfold mapPage
  refine .step (Frames.read_ok (h.walk_eq t va hr)) ?_
  -- what is left to do once the page is mapped, or is not
  have last : ∀ {f1 : Frames n} {page : FrameRef} {perm' : Permission},
      Ends (t.map va page perm') f1 (fun res f' => res = .ok () → Q f') E →
      Ends (do
        match ← t.map va page perm' with
        | .ok () => return ()
        | .error cause => throw (.loadFailedAt program cause va)) f1 (fun _ f' => Q f') E := by
    intro f1 page perm' hmap
    refine .bind hmap ?_
    rintro (cause | _) f2 h2
    · exact .throw (hE _)
    · exact .pure (h2 rfl)
  cases hm : f.memory.mapped t.root.number va.page with
  | none =>
    refine .bind .allocFilled ?_
    rintro (_ | page) f1 h1
    · exact .throw_bind (hE _)
    · exact last (hnew hm page.number f1 h1)
  | some e =>
    refine .ite (fun hcontains => .pure (hsame e hm hcontains)) fun _ => ?_
    refine .bind (hmore e hm) ?_
    rintro (cause | page) f1 h1
    · exact .throw (hE _)
    · exact last (h1 page rfl)

/-- **A page for a segment**, new or with more permission than before. -/
theorem mapPage_ends {program : String} {v : Nat} {perm : Permission}
    (h : Filling kr held t.root.number g f) (hv1 : userFirst ≤ v) (hv2 : v < userPast)
    (huser : perm.user = true) (hE : ∀ e, E e) :
    Ends (mapPage program t (.ofPage v) perm) f (fun _ f' => ∃ g',
      Filling kr held t.root.number g' f' ∧ Kept (· ≠ t.root.number) g f g' f') E := by
  have hpage : (VirtAddr.ofPage v).page = v := VirtAddr.page_ofPage (by
    rw [userPast_eq] at hv2
    omega)
  apply mapPage_steps h.accounted.fits.toTrees h.isRoot hE
  · rintro - c f1 h1
    refine (h.mapFresh_ends h1 hv1 hv2 huser).imp ?_
    rintro found f2 hmap rfl
    obtain ⟨⟨g2, h2, hk2, -⟩, -⟩ := hmap
    exact ⟨g2, h2, hk2⟩
  · exact fun _ _ _ => ⟨g, h, .refl _ _ _⟩
  · intro e hm
    refine (PageTable.remove_ends h.accounted h.isRoot).imp ?_
    rintro found f1 h1 page rfl
    obtain ⟨hacc, hout, hframe, -⟩ := h1
    refine h.remap_ends (by rwa [hpage]) hm ?_ hacc hout hframe
    rw [Permission.union, huser, Bool.or_true]

/-! ### Segments -/

theorem VirtAddr.userFirst_le_page {va : VirtAddr} (h1 : procStart ≤ va.toNat)
    (h2 : va.toNat < virtualSize) : userFirst ≤ va.page := by
  unfold VirtAddr.page pagesPerSpace pageSize
  rw [userFirst_eq]
  unfold procStart at h1
  unfold virtualSize at h2
  omega

/-- Data that lies in the user region goes to pages that the space maps there. -/
theorem writeFrom_ends {va : VirtAddr} {S : Nat → Prop} {data : List UInt8}
    (hva : procStart ≤ va.toNat) (hend : va.toNat + data.length ≤ virtualSize)
    (h : Filling kr held t.root.number g f)
    (hS : ∀ {v e}, userFirst ≤ v → f.memory.mapped t.root.number v = some e →
      S e.addr.pageNumber) (hnone : ∀ q, S q → g q = none) :
    Ends (t.writeFrom va 0 data) f (fun _ f' => Wrote S f f') E := by
  refine PageTable.writeFrom_steps (I := fun _ f' => Wrote S f f')
    (hend.trans (by decide)) ?_ ?_ ?_ ?_ 0 f (Nat.zero_le _) (.refl _ _)
  · exact fun hw place => (hw.fits hnone h.accounted.fits).byteAddr?_eq t place h.isRoot
  · exact fun hw _ _ _ => hw
  · intro k f1 place e hw hk hplace hm1
    have hacc := hw.accounted hnone h.accounted
    have hpage : userFirst ≤ place.page := VirtAddr.userFirst_le_page (by omega) (by omega)
    obtain ⟨m, hwrite, hbyte⟩ := Memory.writeBytes_chunk hacc.fits h.isRoot hm1 (data.drop k)
    refine ⟨m, hwrite, hw.trans ⟨fun _ => rfl, fun a ha => hbyte a fun heq => ha ?_⟩⟩
    rw [hw.mapped hnone h.accounted.fits h.isRoot] at hm1
    exact heq ▸ hS hpage hm1
  · exact fun hw => hw

theorem writeBytes_ends (va : VirtAddr) {data : List UInt8} (h : Filling kr held t.root.number g f)
    (hva : procStart ≤ va.toNat) (hend : va.toNat + data.length ≤ virtualSize) :
    Ends (t.writeBytes va data) f (fun _ f' => Filling kr held t.root.number g f' ∧
      Kept (· ≠ t.root.number) g f g f') E := by
  let S : Nat → Prop := fun q => ∃ v e, userFirst ≤ v ∧
    f.memory.mapped t.root.number v = some e ∧ e.addr.pageNumber = q
  have hfits := h.accounted.fits
  have hnone : ∀ q, S q → g q = none := by
    intro _ hpost
    obtain ⟨v, e, -, hm, rfl⟩ := hpost
    exact (hfits.mapped_target h.isRoot hm).1
  unfold PageTable.writeBytes
  refine .bind (writeFrom_ends (S := S) hva hend h (fun hv hm => ⟨_, _, hv, hm, rfl⟩) hnone)
    fun _ f' hw => .pure (h.wrote hw fun _ hq => hq)

theorem VirtAddr.eq_of_ofWord {a : UInt64} {va : VirtAddr} (h : VirtAddr.ofWord a = .ok va) :
    va = ⟨a⟩ := by
  unfold VirtAddr.ofWord VirtAddr.ofWord? at h
  split at h
  · next hsome =>
    split at hsome
    · cases h
      cases hsome
      rfl
    · cases hsome
  · cases h

/-- The pages of a segment begin before its end, and the first is the one that it begins in. -/
theorem mem_segmentPages {lo hi a : Nat} : a ∈ segmentPages lo hi ↔
    ∃ v, a = v * pageSize ∧ lo / pageSize ≤ v ∧ v * pageSize < hi := by
  unfold segmentPages
  simp only [List.mem_map, List.mem_range]
  constructor
  · rintro ⟨i, hi, rfl⟩
    refine ⟨_, rfl, Nat.le_add_right _ _, ?_⟩
    unfold pageSize at *
    omega
  · rintro ⟨v, rfl, hv, hlt⟩
    refine ⟨v - lo / pageSize, ?_, by rw [Nat.add_sub_cancel' hv]⟩
    unfold pageSize at *
    omega

omit [Addressable n] in
theorem mapPage_ofWord {program : String} {v : Nat} {perm : Permission} {Q : Frames n → Prop}
    (h : Ends (mapPage program t (.ofPage v) perm) f (fun _ f' => Q f') E) (hE : ∀ e, E e) :
    Ends (do mapPage program t (← VirtAddr.ofWord (UInt64.ofNat (v * pageSize))) perm) f
      (fun _ f' => Q f') E := by
  refine .bind (.lift_cases (Q := fun va f1 => va = .ofPage v ∧ f1 = f)
    (fun va hva => ⟨VirtAddr.eq_of_ofWord hva, rfl⟩) fun _ _ => hE _) ?_
  rintro _ f1 ⟨rfl, rfl⟩
  exact h

/-- A page of a segment that lies in the user region. -/
theorem mapSegmentPage_ends {program : String} {seg : Segment} {stop a : Nat}
    (hlow : procStart ≤ seg.va.toNat) (hhigh : stop ≤ stackPage)
    (ha : a ∈ segmentPages seg.va.toNat stop) (h : Filling kr held t.root.number g f)
    (hE : ∀ e, E e) :
    Ends (do mapPage program t (← VirtAddr.ofWord (UInt64.ofNat a)) seg.permission) f
      (fun _ f' => ∃ g', Filling kr held t.root.number g' f' ∧ Kept (· ≠ t.root.number) g f g' f')
      E := by
  have huser : seg.permission.user = true := by
    unfold Segment.permission
    split <;> rfl
  obtain ⟨v, rfl, hv1, hv2⟩ := mem_segmentPages.mp ha
  have hfirst : userFirst ≤ v := by
    refine le_trans ?_ hv1
    unfold userFirst
    exact Nat.div_le_div_right hlow
  have hpast : v < userPast := by
    rw [userPast_eq]
    unfold stackPage virtualSize pageSize at *
    omega
  exact mapPage_ofWord (mapPage_ends h hfirst hpast huser hE) hE

omit [Addressable n] in
/-- A segment that lies in the user region, and below the stack, has its pages mapped and then its
data written. -/
theorem mapSegment_steps {program : String} {seg : Segment} {P Q : Frames n → Prop}
    (hpages : procStart ≤ seg.va.toNat → seg.va.toNat + seg.size.toNat ≤ stackPage →
      Ends ((segmentPages seg.va.toNat (seg.va.toNat + seg.size.toNat)).forM fun a => do
        mapPage program t (← VirtAddr.ofWord (UInt64.ofNat a)) seg.permission) f
        (fun _ f' => P f') E)
    (hdata : procStart ≤ seg.va.toNat → seg.va.toNat + seg.size.toNat ≤ stackPage → ∀ f', P f' →
      Ends (t.writeBytes ⟨seg.va⟩ (seg.data.take seg.size.toNat)) f'
        (fun res f'' => res = .ok () → Q f'') E)
    (hE : ∀ e, E e) : Ends (mapSegment program t seg) f (fun _ f' => Q f') E := by
  unfold mapSegment
  dsimp only
  refine .ite (fun _ => .throw_bind (hE _)) fun hlow => ?_
  refine .bind (.lift_cases (Q := fun stop f1 =>
    stop.toNat = seg.va.toNat + seg.size.toNat ∧ f1 = f) (fun stop hstop => ⟨?_, rfl⟩)
    fun _ _ => hE _) ?_
  · unfold Word.add at hstop
    split at hstop
    · next hlt =>
      obtain rfl := Except.ok.inj hstop
      rw [UInt64.toNat_add, Nat.mod_eq_of_lt hlt]
    · cases hstop
  rintro stop f ⟨hstop, rfl⟩
  refine .ite (fun _ => .throw_bind (hE _)) fun hhigh => ?_
  rw [Nat.not_lt] at hlow hhigh
  rw [hstop] at hhigh ⊢
  refine .bind (hpages hlow hhigh) fun _ f1 h1 => ?_
  refine .bind (.lift_cases (Q := fun va f2 => va = ⟨seg.va⟩ ∧ f2 = f1)
    (fun va hva => ⟨VirtAddr.eq_of_ofWord hva, rfl⟩) fun _ _ => hE _) ?_
  rintro _ f1 ⟨rfl, rfl⟩
  refine .bind (hdata hlow hhigh _ h1) ?_
  rintro (cause | _) f2 h2
  · exact .throw (hE _)
  · exact .pure (h2 rfl)

/-- **A segment** changes the space that is filled, and no other. -/
theorem mapSegment_ends {program : String} {seg : Segment}
    (h : Filling kr held t.root.number g f) (hE : ∀ e, E e) :
    Ends (mapSegment program t seg) f (fun _ f' => ∃ g',
      Filling kr held t.root.number g' f' ∧ Kept (· ≠ t.root.number) g f g' f') E := by
  refine mapSegment_steps (P := fun f' => ∃ g', Filling kr held t.root.number g' f' ∧
    Kept (· ≠ t.root.number) g f g' f') (fun hlow hhigh => ?_) (fun hlow hhigh f1 hf1 => ?_) hE
  · refine .forM (I := fun f' => ∃ g', Filling kr held t.root.number g' f' ∧
      Kept (· ≠ t.root.number) g f g' f') _ _ ⟨g, h, .refl _ _ _⟩ fun a ha f1 hf1 => ?_
    obtain ⟨g1, h1, hk1⟩ := hf1
    refine (mapSegmentPage_ends hlow hhigh ha h1 hE).imp fun _ f2 h2 => ?_
    obtain ⟨g2, h2, hk2⟩ := h2
    exact ⟨g2, h2, hk1.trans hk2⟩
  · obtain ⟨g1, h1, hk1⟩ := hf1
    refine (writeBytes_ends ⟨seg.va⟩ h1 hlow ?_).imp ?_
    · rw [List.length_take, show (VirtAddr.mk seg.va).toNat = seg.va.toNat from rfl]
      unfold stackPage at hhigh
      omega
    · rintro res f2 ⟨h2, hk2⟩ -
      exact ⟨g1, h2, hk1.trans hk2⟩

theorem mapSegments_ends {program : String} {segments : List Segment}
    (h : Filling kr held t.root.number g f) (hE : ∀ e, E e) :
    Ends (segments.forM (mapSegment program t)) f (fun _ f' => ∃ g',
      Filling kr held t.root.number g' f' ∧ Kept (· ≠ t.root.number) g f g' f') E := by
  refine .forM (I := fun f' => ∃ g', Filling kr held t.root.number g' f' ∧
    Kept (· ≠ t.root.number) g f g' f') _ _ ⟨g, h, .refl _ _ _⟩ fun seg _ f1 hf1 => ?_
  obtain ⟨g1, h1, hk1⟩ := hf1
  refine (mapSegment_ends h1 hE).imp fun _ f2 hf2 => ?_
  obtain ⟨g2, h2, hk2⟩ := hf2
  exact ⟨g2, h2, hk1.trans hk2⟩

end

end PagedKernel
