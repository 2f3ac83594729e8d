import PagedKernel.Proofs.Process.Load
import PagedKernel.Proofs.Process.Fork
import PagedKernel.Proofs.Process.PageAlloc
import PagedKernel.Proofs.Spaces.Twins

/-!
# Spaces of processes in twin frames

Whatever is done to the space of a process ends alike in frames that differ in free pages only: a
space is copied or built, its data is written, a page is added to it. A page that comes into use is
filled, or is a copy of a page that some space maps; so what it held before does not matter.

Key theorems: `Pending.install_ends`, `copySpace_coincide`, `buildSpace_coincide`,
`pageAlloc_coincide`.
-/

namespace PagedKernel

variable {n : Nat} {g : Shape} {f f' : Frames n} {held : List Nat} {E : Halt → Prop}

section
variable [Addressable n] {r : Nat} {t : PageTable}

/-- Once the next leaf has its page, mapping that leaves the others to do. -/
theorem Pending.install_ends {c v : Nat} {e : Entry} {rest : List (Nat × Entry)} {f1 : Frames n}
    (h : Pending held r t.root.number ((v, e) :: rest) g f) (h1 : Accounted g (c :: held) f1)
    (hk : Kept (fun _ => True) g f g f1) (perm : Permission) :
    Ends (PageTable.install t.pa (.ofPage v) ⟨c⟩ perm) f1 (fun res f2 => ∀ old, res = .ok old →
      ∃ g2, Pending held r t.root.number rest g2 f2) E := by
  have hv : v < pagesPerSpace := Shape.Trees.mapped_lt (h.mapped _ List.mem_cons_self)
  have hpage : (VirtAddr.ofPage v).page = v := VirtAddr.page_ofPage (by
    unfold pagesPerSpace at hv
    omega)
  refine (PageTable.install_ends (.ofPage v) h1 h.target).imp ?_
  rintro _ f2 h2 old rfl
  obtain ⟨⟨g2, h2, hmap, -⟩, hold, -⟩ := h2
  rw [hpage] at hmap hold
  have hsame := hk.mapped trivial h.target
  rw [hsame, h.fresh _ List.mem_cons_self, Option.bind_none] at hold
  subst hold
  refine ⟨g2, h.next h2 ((hk.mono fun _ _ => trivial).trans hmap.kept) hmap.isRoot fun w hw => ?_⟩
  rw [hmap.mapped, Function.update_of_ne hw, hsame]

/-! ### Sharing the kernel -/

theorem shareMappings_coincide (hn : 1 + n * 512 + held.length < maxCount) :
    ∀ (rest : List (Nat × Entry)) {g : Shape} {f f' : Frames n},
    Pending held r t.root.number rest g f → f.Twin f' →
    Coincide Frames.Twin (shareMappings t (rest.map mappingOf)) f f'
  | [], _, _, _, _, ht => .pure ht
  | (v, e) :: rest, g, f, f', h, ht => by
    rw [List.map_cons, mappingOf, shareMappings]
    have hm := h.mapped _ List.mem_cons_self
    refine .bind_ends (.share ht e.addr) (PageTable.share_ends h.accounted hn h.source hm) ?_
    rintro _ f1 f1' ⟨rfl, h1⟩ ht1
    refine .bind_ends (PageTable.install_coincide _ _ _ h1.accounted h.target ht1)
      (h.install_ends h1.accounted h1.kept _) ?_
    intro res f2 f2' h2 ht2
    cases res with
    | error cause => exact .pure ht2
    | ok old =>
      obtain ⟨g2, h2⟩ := h2 old rfl
      exact shareMappings_coincide hn rest h2 ht2

/-- **Sharing the kernel with a new space.** -/
theorem sharingKernel_coincide {kernel : PageTable} (h : Accounted g held f)
    (hs : Spaces kernel.root.number (fun _ => True) g f.memory)
    (hn : 1 + n * 512 + held.length < maxCount) (ht : f.Twin f') :
    Coincide Frames.Twin (sharingKernel kernel) f f' := by
  unfold sharingKernel
  refine .bind_ends (PageTable.new?_coincide ht) (PageTable.new?_ends h) ?_
  intro found f1 f1' h1 ht1
  rcases found with _ | t
  · exact .pure ht1
  obtain ⟨⟨g1, h1, hm1, -⟩, hfresh, -⟩ := h1
  have htk : t.root.number ≠ kernel.root.number := fun heq => hfresh (heq ▸ hs.kernelRoot)
  have hs1 := (hs.mono fun _ _ => trivial).new h.fits hm1 hfresh htk
  have hlist : kernel.mappings f1.memory 0 procStart = .ok _ :=
    h1.fits.mappings_eq hs1.kernelRoot (by decide)
  have hlist' := (h1.mappings_twin ht1 hs1.kernelRoot (by decide)).trans hlist
  refine .step (Frames.read_ok hlist) (Frames.read_ok hlist') ?_
  have hempty : ∀ v, f1.memory.mapped t.root.number v = none := fun v => by rw [hm1.mapped]
  have hpending := Pending.of_empty h1 hs1.kernelRoot hm1.isRoot (Ne.symm htk) hempty
    fun p => pageMeets 0 procStart p.1
  refine .bind_ends (shareMappings_coincide hn _ hpending ht1)
    (shareLeaves_ends h1 hs1 htk hm1.isRoot hempty hn) ?_
  intro res f2 f2' hpost ht2
  obtain ⟨g2, h2, -, -, hr2, -⟩ := hpost
  cases res with
  | ok u => exact .pure ht2
  | error cause => exact .bind (PageTable.destroy_coincide h2 hr2 ht2) fun _ _ _ ht3 => .pure ht3

/-! ### Copying a space -/

/-- A copy of a page that some space maps holds the same in twin frames, whatever the page handed
out for it held before. -/
theorem childPage_coincide {v : Nat} {e : Entry} (h : Accounted g held f) (hr : g.IsRoot r)
    (hm : f.memory.mapped r v = some e) (ht : f.Twin f') :
    Coincide Frames.Twin (childPage (.ofPage v) e) f f' := by
  have hcn := (h.fits.mapped_target hr hm).2
  unfold childPage
  refine .ite (fun _ => ?_) fun _ => .bind (.share ht e.addr) fun _ _ _ ht1 => .pure ht1
  refine .bind_ends (.alloc ht pageSize) .alloc ?_
  intro found f1 f1' h1 ht1
  rcases found with _ | ref
  · exact .pure ht1
  have h1 : Frames.HandedOutFull allocFill f ref.number f1 := h1
  obtain ⟨m, hcopy, hbyte⟩ := f1.memory.copyPage_pageAt h1.lt hcn
  obtain ⟨m', hcopy', hbyte'⟩ := f1'.memory.copyPage_pageAt h1.lt hcn
  rw [← e.addr_eq_pageAt] at hcopy hcopy'
  refine .step (Frames.modifyMemory_ok hcopy) (Frames.modifyMemory_ok hcopy') (.pure ?_)
  refine ht1.setMemory fun a ha => ?_
  rw [hbyte', hbyte]
  by_cases hpage : a / pageSize = ref.number
  · rw [if_pos hpage, if_pos hpage]
    apply ht1.byte
    have hcount := h.count_mapped hr hm
    rwa [page_add_div _ (mod_pageSize_lt a), h1.count_in_use hcount]
  · rw [if_neg hpage, if_neg hpage, ht1.byte a ha]

theorem copyMappings_coincide (hn : 1 + n * 512 + held.length < maxCount) :
    ∀ (rest : List (Nat × Entry)) {g : Shape} {f f' : Frames n},
    Pending held r t.root.number rest g f → f.Twin f' →
    Coincide Frames.Twin (copyMappings t (rest.map mappingOf)) f f'
  | [], _, _, _, _, ht => .pure ht
  | (v, e) :: rest, g, f, f', h, ht => by
    rw [List.map_cons, mappingOf, copyMappings]
    have hm := h.mapped _ List.mem_cons_self
    refine .bind_ends (childPage_coincide h.accounted h.source hm ht)
      (childPage_ends h.accounted hn h.source hm) ?_
    intro found f1 f1' h1 ht1
    rcases found with _ | page
    · exact .pure ht1
    have h1 : ChildPage g held f v e page.number f1 := h1
    refine .bind_ends (PageTable.install_coincide _ _ _ h1.accounted h.target ht1)
      (h.install_ends h1.accounted h1.kept _) ?_
    intro res f2 f2' h2 ht2
    cases res with
    | error cause => exact .pure ht2
    | ok old =>
      obtain ⟨g2, h2⟩ := h2 old rfl
      exact copyMappings_coincide hn rest h2 ht2

/-- **Copying a space.** -/
theorem copySpace_coincide {kr : Nat} {parent : PageTable} (h : Accounted g held f)
    (hs : Spaces kr (fun _ => True) g f.memory) (hrp : g.IsRoot parent.root.number)
    (hpk : parent.root.number ≠ kr) (hn : 1 + n * 512 + held.length < maxCount) (ht : f.Twin f') :
    Coincide Frames.Twin (copySpace parent) f f' := by
  unfold copySpace
  have hlist := hs.mappings_eq h.fits hrp hpk
  have hlist' := (h.mappings_twin ht hrp (by decide)).trans hlist
  refine .step (Frames.read_ok hlist) (Frames.read_ok hlist') ?_
  refine .bind_ends (PageTable.new?_coincide ht) (PageTable.new?_ends h) ?_
  intro found f1 f1' h1 ht1
  rcases found with _ | t
  · exact .pure ht1
  obtain ⟨⟨g1, h1, hm1, -⟩, hfresh, -⟩ := h1
  have htp : parent.root.number ≠ t.root.number := fun heq => hfresh (heq ▸ hrp)
  have hpending := Pending.of_new hrp htp h1 hm1
  refine .bind_ends (copyMappings_coincide hn _ hpending ht1)
    (copyLeaves_ends h hs hrp hpk hn hfresh h1 hm1) ?_
  intro done f2 f2' hpost ht2
  obtain ⟨g2, h2, -, -, hr2, -⟩ := hpost
  refine .ite (fun _ => .pure ht2) fun _ => ?_
  exact .bind (PageTable.destroy_coincide h2 hr2 ht2) fun _ _ _ ht3 => .pure ht3

/-! ### Loading -/

/-- Data is copied to the same pages, which are in use. -/
theorem writeFrom_coincide (va : VirtAddr) (hr : g.IsRoot t.root.number) (done : Nat)
    (data : List UInt8) {f f' : Frames n} (h : Accounted g held f) (ht : f.Twin f') :
    Coincide Frames.Twin (t.writeFrom va done data) f f' := by
  rw [PageTable.writeFrom]
  refine .ite (fun _ => .pure ht) fun hne => .lift_bind ht fun place _ => ?_
  have hlook := h.fits.byteAddr?_eq t place hr
  have hlook' := (h.twin ht).fits.byteAddr?_eq t place hr
  rw [h.mapped_twin ht hr] at hlook'
  refine .step (Frames.read_ok hlook) (Frames.read_ok hlook') ?_
  cases hm : f.memory.mapped t.root.number place.page with
  | none => exact .pure ht
  | some e =>
    obtain ⟨m, hwrite, hbyte⟩ := Memory.writeBytes_chunk h.fits hr hm data
    have hw : Wrote (· = e.addr.pageNumber) f { f with memory := m } := ⟨fun _ => rfl, hbyte⟩
    have h1 := hw.accounted (fun _ heq => heq ▸ (h.fits.mapped_target hr hm).1) h
    refine .bind_ends (P := fun _ f1 => f1 = { f with memory := m }) (.writeBytes ht _ _)
      (.of_ok (Frames.modifyMemory_ok hwrite) rfl) ?_
    rintro _ _ f1' rfl ht1
    exact writeFrom_coincide va hr _ _ h1 ht1
termination_by data.length
decreasing_by
  rw [List.length_drop]
  exact Nat.sub_lt (List.length_pos_iff.mpr (by simpa using hne)) (PageTable.roomInPage_pos _)

theorem writeBytes_coincide (va : VirtAddr) (data : List UInt8) (h : Accounted g held f)
    (hr : g.IsRoot t.root.number) (ht : f.Twin f') :
    Coincide Frames.Twin (t.writeBytes va data) f f' :=
  .bind (writeFrom_coincide va hr 0 data h ht) fun _ _ _ ht1 => .pure ht1

theorem mapPage_coincide (program : String) (va : VirtAddr) (perm : Permission)
    (h : Accounted g held f) (hr : g.IsRoot t.root.number) (ht : f.Twin f') :
    Coincide Frames.Twin (mapPage program t va perm) f f' := by
  unfold mapPage
  have hwalk := h.fits.walk_eq t va hr
  refine .step (Frames.read_ok hwalk) (Frames.read_ok ((h.walk_twin ht hr va).trans hwalk)) ?_
  cases f.memory.mapped t.root.number va.page with
  | none =>
    refine .bind_ends (.allocFilled ht 0) .allocFilled ?_
    intro found f1 f1' h1 ht1
    rcases found with _ | ref
    · exact .throw_bind ht1
    · have h1 : Frames.HandedOutFull 0 f ref.number f1 := h1
      refine .bind (PageTable.map_coincide va _ _ (h.handedOut h1.toHandedOut) hr ht1) ?_
      rintro (cause | u) _ _ ht2
      · exact .throw ht2
      · exact .pure ht2
  | some e =>
    refine .ite (fun _ => .pure ht) fun _ => ?_
    refine .bind_ends (PageTable.remove_coincide va h hr ht) (PageTable.remove_ends h hr) ?_
    intro res f1 f1' h1 ht1
    cases res with
    | error cause => exact .throw ht1
    | ok page =>
      refine .bind (PageTable.map_coincide va _ _ h1.1 hr ht1) ?_
      rintro (cause | u) _ _ ht2
      · exact .throw ht2
      · exact .pure ht2

/-- **A segment** is mapped and written alike. -/
theorem mapSegment_coincide {kr : Nat} (program : String) (seg : Segment)
    (h : Filling kr held t.root.number g f) (ht : f.Twin f') :
    Coincide Frames.Twin (mapSegment program t seg) f f' := by
  unfold mapSegment
  refine .ite (fun _ => .throw_bind ht) fun hlow => .lift_bind ht fun stop _ => ?_
  refine .ite (fun _ => .throw_bind ht) fun hhigh => ?_
  rw [Nat.not_lt] at hlow hhigh
  let I : Frames n → Prop := fun f1 => ∃ g1, Filling kr held t.root.number g1 f1
  have page : ∀ a ∈ segmentPages seg.va.toNat stop.toNat, ∀ f1, I f1 →
      Ends (do mapPage program t (← VirtAddr.ofWord (UInt64.ofNat a)) seg.permission) f1
        (fun _ f2 => I f2) fun _ => True := by
    intro a ha f1 h1
    obtain ⟨g1, h1⟩ := h1
    refine (mapSegmentPage_ends hlow hhigh ha h1 fun _ => trivial).imp fun _ f2 h2 => ?_
    obtain ⟨g2, h2, -⟩ := h2
    exact ⟨g2, h2⟩
  refine .bind_ends (.forM (I := I) _ f f' ⟨g, h⟩ ht page fun a _ f1 f1' h1 ht1 => ?_)
    (.forM (I := I) _ f ⟨g, h⟩ page) ?_
  · obtain ⟨g1, h1⟩ := h1
    exact .lift_bind ht1 fun va _ => mapPage_coincide program va _ h1.accounted h1.isRoot ht1
  intro _ f1 f1' h1 ht1
  obtain ⟨g1, h1⟩ := h1
  refine .lift_bind ht1 fun va _ => ?_
  refine .bind (writeBytes_coincide va _ h1.accounted h1.isRoot ht1) fun res _ _ ht2 => ?_
  cases res with
  | ok u => exact .pure ht2
  | error cause => exact .throw ht2

/-- **The space of a new process.** -/
theorem buildSpace_coincide {kernel : PageTable} (program : Program) (h : Accounted g held f)
    (hs : Spaces kernel.root.number (fun _ => True) g f.memory)
    (hn : 1 + n * 512 + held.length < maxCount) (ht : f.Twin f') :
    Coincide Frames.Twin (buildSpace kernel program) f f' := by
  unfold buildSpace
  refine .bind_ends (sharingKernel_coincide h hs hn ht) (sharingKernel_ends h hs hn) ?_
  intro found f1 f1' hpost ht1
  obtain ⟨g1, h1, hs1, hres⟩ := hpost
  rcases found with cause | t
  · exact .throw ht1
  have hfill := Filling.of_sharing h1 hs1 hs hres.1 hres.2.1
  let I : Frames n → Prop := fun f2 => ∃ g2, Filling kernel.root.number held t.root.number g2 f2
  refine .bind_ends (.forM (I := I) program.segments f1 f1' ⟨g1, hfill⟩ ht1
    (fun seg _ f2 h2 => ?_) fun seg _ f2 f2' h2 ht2 => ?_)
    (mapSegments_ends hfill fun _ => trivial) ?_
  · obtain ⟨g2, h2⟩ := h2
    refine (mapSegment_ends h2 fun _ => trivial).imp fun _ f3 h3 => ?_
    obtain ⟨g3, h3, -⟩ := h3
    exact ⟨g3, h3⟩
  · obtain ⟨g2, h2⟩ := h2
    exact mapSegment_coincide program.name seg h2 ht2
  intro _ f2 f2' hpost ht2
  obtain ⟨g2, h2, -⟩ := hpost
  refine .bind_ends (.allocFilled ht2 0) .allocFilled ?_
  intro found f3 f3' h3 ht3
  rcases found with _ | stack
  · exact .throw ht3
  have h3 : Frames.HandedOutFull 0 f2 stack.number f3 := h3
  refine .bind (PageTable.map_coincide _ _ _ (h2.accounted.handedOut h3.toHandedOut) h2.isRoot ht3)
    fun res _ _ ht4 => ?_
  cases res with
  | ok u => exact .pure ht4
  | error cause => exact .throw ht4

/-! ### The call for a page -/

/-- **The call for a page** does the same in twin frames. -/
theorem pageAlloc_coincide (addr : UInt64) (h : Accounted g held f) (hr : g.IsRoot t.root.number)
    (ht : f.Twin f') : Coincide Frames.Twin (pageAlloc t addr) f f' := by
  unfold pageAlloc
  refine .ite (fun _ => .pure ht) fun _ => .ite (fun _ => .pure ht) fun _ => ?_
  refine .bind_ends (.allocFilled ht 0) .allocFilled ?_
  intro found f1 f1' h1 ht1
  rcases found with _ | ref
  · exact .pure ht1
  have h1 : Frames.HandedOutFull 0 f ref.number f1 := h1
  refine .bind (PageTable.install_coincide _ _ _ (h.handedOut h1.toHandedOut) hr ht1)
    fun res _ _ ht2 => ?_
  rcases res with cause | _ | old
  · exact .pure ht2
  · exact .pure ht2
  · exact .bind (.release ht2 old) fun _ _ _ ht3 => .pure ht3

end

end PagedKernel
