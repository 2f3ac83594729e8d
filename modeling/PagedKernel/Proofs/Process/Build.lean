import PagedKernel.Proofs.Process.Load

/-!
# The space of a new process

A new process has the whole kernel, the segments of its program, and a stack. Which pages that takes
is not said for every program, since its segments may lie anywhere. It is for a program that has no
segments, or one with a page of text: twelve free pages are enough, four to share the kernel, and
one with three for tables for the text and for the stack. Then the text is where the program has it.

Key definitions: `Memory.HasText`, `Program.Plain`, `Memory.Holds`.
Key theorems: `mapSegment_text`, `buildSpace_ends`.
-/

namespace PagedKernel

variable {n : Nat} {g : Shape} {f : Frames n} {held : List Nat} {E : Halt → Prop}

def Memory.HasStack (m : Memory n) (r : Nat) : Prop :=
  ∃ c, c < 2 ^ 40 ∧ Allocatable c ∧
    m.mapped r (stackPage / pageSize) = some (.link (pageAt c) Permission.userData.toFlags)

/-- The space with root `r` has nothing but the kernel and its stack. -/
def Memory.Bare (m : Memory n) (r : Nat) : Prop :=
  ∀ v, v ≠ stackPage / pageSize → m.mapped r v = kernelLeaf v

/-- The user can write the stack, and its page was handed out. -/
theorem Memory.HasStack.leaf {m : Memory n} {r : Nat} (h : m.HasStack r) :
    ∃ e, m.mapped r (stackPage / pageSize) = some e ∧ e.writable = true ∧ e.user = true ∧
      e.large = false ∧ Allocatable e.addr.pageNumber := by
  obtain ⟨c, hc, hall, hm⟩ := h
  refine ⟨_, hm, Entry.writable_link hc _, Entry.user_link hc _, Entry.large_link hc _, ?_⟩
  rwa [Entry.addr_link hc, pageAt_pageNumber (by omega)]

/-! ### Pages of text -/

/-- The segment is a page of text, which has page number `v`. -/
structure Segment.IsText (seg : Segment) (v : Nat) : Prop where
  va : seg.va = (VirtAddr.ofPage v).val
  first : userFirst ≤ v
  past : v < stackPage / pageSize
  pos : 0 < seg.size.toNat
  size : seg.size.toNat ≤ pageSize
  data : seg.data.length ≤ seg.size.toNat
  text : seg.writable = false

theorem Segment.IsText.unique {seg : Segment} {v v' : Nat} (h : seg.IsText v) (h' : seg.IsText v') :
    v = v' := by
  have hlt : ∀ {w}, seg.IsText w → seg.va.toNat = w * pageSize := fun {w} hw => by
    have hw2 : w < 0x2ff := hw.past
    exact hw.va ▸ VirtAddr.toNat_ofPage (by omega)
  exact Nat.eq_of_mul_eq_mul_right (by decide) ((hlt h).symm.trans (hlt h'))

/-- The program has no segments, or one with a page of text. -/
def Program.Plain (program : Program) : Prop :=
  program.segments = [] ∨ ∃ seg v, program.segments = [seg] ∧ seg.IsText v

/-- The space with root `r` maps at page number `v` a page of text that begins with `data`. -/
def Memory.HasText (m : Memory n) (r v : Nat) (data : List UInt8) : Prop :=
  data.length ≤ pageSize ∧ ∃ c, c < 2 ^ 40 ∧ Allocatable c ∧
    m.mapped r v = some (.link (pageAt c) Permission.userText.toFlags) ∧
    ∀ (i : Nat) (h : i < data.length), m.byte (c * pageSize + i) = data[i]

theorem Memory.HasText.congr {m m' : Memory n} {r r' v : Nat} {data : List UInt8}
    (h : m.HasText r v data) (hm : m'.mapped r' v = m.mapped r v)
    (hb : ∀ e, m.mapped r v = some e → Allocatable e.addr.pageNumber →
      ∀ a, a / pageSize = e.addr.pageNumber → m'.byte a = m.byte a) : m'.HasText r' v data := by
  obtain ⟨hlen, c, hc, hall, hmap, hdata⟩ := h
  refine ⟨hlen, c, hc, hall, hm.trans hmap, fun i hi => ?_⟩
  have hpage := Entry.pageNumber_link hc Permission.userText.toFlags
  rw [← hdata i hi]
  exact hb _ hmap (hpage.symm ▸ hall) _ (by rw [hpage, page_add_div c (by omega)])

/-- The space with root `r` has nothing but the kernel, its stack and page number `v`. -/
def Memory.BareBut (m : Memory n) (r v : Nat) : Prop :=
  ∀ w, w ≠ stackPage / pageSize → w ≠ v → m.mapped r w = kernelLeaf w

/-- The space with root `r` has a stack; and if `program` is a page of text, it has that and no
more. -/
def Memory.Holds (m : Memory n) (r : Nat) (program : Program) : Prop :=
  m.HasStack r ∧ ∀ seg v, program.segments = [seg] → seg.IsText v →
    m.HasText r v seg.data ∧ m.BareBut r v

section
variable [Addressable n] {kr : Nat} {t : PageTable}

theorem VirtAddr.ofWord_ofPage {v : Nat} (h : v < 2 ^ 35) :
    VirtAddr.ofWord (VirtAddr.ofPage v).val = .ok (.ofPage v) := by
  have hv := VirtAddr.toNat_ofPage (v := v) (by omega)
  unfold VirtAddr.toNat pageSize at hv
  unfold VirtAddr.ofWord VirtAddr.ofWord?
  rw [if_pos (.inl (by omega))]

theorem mapPage_new {program : String} {v : Nat} {perm : Permission}
    (h : Filling kr held t.root.number g f) (hv1 : userFirst ≤ v) (hv2 : v < userPast)
    (huser : perm.user = true) (hnone : f.memory.mapped t.root.number v = none)
    (hE : f.freePages < 4 → ∀ e, E e) :
    Ends (mapPage program t (.ofPage v) perm) f (fun _ f' => ∃ g' c,
      Filling kr held t.root.number g' f' ∧ Kept (· ≠ t.root.number) g f g' f' ∧
      c < n ∧ Allocatable c ∧ f'.memory.mapped t.root.number =
        Function.update (f.memory.mapped t.root.number) v (some (.link (pageAt c) perm.toFlags)) ∧
      f.freePages ≤ f'.freePages + 4) E := by
  have hpage : (VirtAddr.ofPage v).page = v := VirtAddr.page_ofPage (by
    rw [userPast_eq] at hv2
    omega)
  unfold mapPage
  refine .step (Frames.read_ok (h.accounted.fits.walk_eq t _ h.isRoot)) ?_
  rw [hpage, hnone]
  refine .bind .allocFilled ?_
  rintro (_ | page) f1 h1
  · exact .throw_bind (hE (by have := h1.2; omega) _)
  have h1 : Frames.HandedOutFull 0 f page.number f1 := h1
  refine .bind (h.mapFresh_ends h1 hv1 hv2 huser) ?_
  rintro (cause | _) f2 h2
  · exact .throw (hE (h2 hnone) _)
  · obtain ⟨⟨g2, h2, hk2, -⟩, hm2, hfree2⟩ := h2
    exact .pure ⟨g2, page.number, h2, hk2, h1.lt, h1.allocatable, hm2, hfree2⟩

theorem writeBytes_page {v c : Nat} {perm : Permission} {data : List UInt8}
    (h : Accounted g held f) (hr : g.IsRoot t.root.number) (hv : v < 2 ^ 36) (hc : c < n)
    (hm : f.memory.mapped t.root.number v = some (.link (pageAt c) perm.toFlags))
    (hlen : data.length ≤ pageSize) :
    Ends (t.writeBytes (.ofPage v) data) f (fun res f' => res = .ok () ∧ Wrote (· = c) f f' ∧
      ∀ (i : Nat) (h : i < data.length), f'.memory.byte (c * pageSize + i) = data[i]) E := by
  have hc40 := lt_of_lt_of_le hc (Addressable.le (n := n))
  have hto := VirtAddr.toNat_ofPage (v := v) (by omega)
  have hoff : (VirtAddr.ofPage v).pageOffset = 0 := by
    unfold VirtAddr.pageOffset
    rw [hto, Nat.mul_mod_left]
  have hroom : PageTable.roomInPage (.ofPage v) = pageSize := by
    unfold PageTable.roomInPage
    rw [hoff, Nat.sub_zero]
  have hadd : (VirtAddr.ofPage v).add (UInt64.ofNat 0) = .ok (.ofPage v) := by
    unfold VirtAddr.add Word.add
    rw [if_pos (by simpa using (VirtAddr.ofPage v).val.toNat_lt)]
    show Except.ok (VirtAddr.mk ((VirtAddr.ofPage v).val + 0)) = _
    rw [UInt64.add_zero]
  unfold PageTable.writeBytes
  refine .bind (P := fun done f' => done = true ∧ Wrote (· = c) f f' ∧
    ∀ (i : Nat) (h : i < data.length), f'.memory.byte (c * pageSize + i) = data[i]) ?_ ?_
  · rw [PageTable.writeFrom]
    refine .ite (fun hempty => .pure ⟨rfl, .refl _ _, fun i hi => ?_⟩) fun _ => ?_
    · rw [List.isEmpty_iff.mp hempty] at hi
      exact absurd hi (Nat.not_lt_zero i)
    refine .lift hadd (.step (Frames.read_ok (h.fits.byteAddr?_eq t _ hr)) ?_)
    rw [VirtAddr.page_ofPage hv, hm, Option.map_some, Entry.addr_link hc40, hoff]
    dsimp only
    rw [hroom, List.take_of_length_le hlen, List.drop_of_length_le hlen]
    have hd : 0 + data.length ≤ pageSize := by omega
    obtain ⟨m, hwrite, hbyte⟩ := f.memory.writeBytes_inPage data hc (by decide) hd
    refine .step (Frames.modifyMemory_ok hwrite) ?_
    rw [PageTable.writeFrom]
    refine .pure ⟨rfl, ⟨fun _ => rfl, hbyte⟩, fun i hi => ?_⟩
    have hdata := Memory.byte_writeBytes hc hd hwrite hi
    rwa [Nat.zero_add] at hdata
  · rintro _ f' ⟨rfl, hw, hdata⟩
    exact .pure ⟨rfl, hw, hdata⟩

/-- **A page of text** is mapped and holds what the segment says. -/
theorem mapSegment_text {program : String} {seg : Segment} {v : Nat} (hseg : seg.IsText v)
    (h : Filling kr held t.root.number g f) (hnone : f.memory.mapped t.root.number v = none)
    (hE : f.freePages < 4 → ∀ e, E e) :
    Ends (mapSegment program t seg) f (fun _ f' => ∃ g',
      Filling kr held t.root.number g' f' ∧ Kept (· ≠ t.root.number) g f g' f' ∧
      (∀ w, w ≠ v → f'.memory.mapped t.root.number w = f.memory.mapped t.root.number w) ∧
      f'.memory.HasText t.root.number v seg.data ∧ f.freePages ≤ f'.freePages + 4) E := by
  obtain ⟨hva, hv1, hv2, hpos, hsize, hdata, htext⟩ := hseg
  have hpast : v < userPast := lt_of_lt_of_le hv2 (by decide)
  have hstack : stackPage = 0x2ff * pageSize := rfl
  rw [hstack, Nat.mul_div_cancel _ (by decide)] at hv2
  have hto : seg.va.toNat = v * pageSize := hva ▸ VirtAddr.toNat_ofPage (by omega)
  have hnext : v * pageSize + pageSize = (v + 1) * pageSize := (Nat.succ_mul v pageSize).symm
  have hhigh : (v + 1) * pageSize ≤ 0x2ff * pageSize := Nat.mul_le_mul_right _ hv2
  have hsum : seg.va.toNat + seg.size.toNat < UInt64.size := by
    have hlarge : 0x2ff * pageSize < UInt64.size := by decide
    omega
  have hstop : (seg.va + seg.size).toNat = v * pageSize + seg.size.toNat := by
    rw [UInt64.toNat_add, Nat.mod_eq_of_lt hsum, hto]
  have hpages : segmentPages (v * pageSize) (v * pageSize + seg.size.toNat) = [v * pageSize] := by
    have hlast : (v * pageSize + seg.size.toNat + pageSize - 1) / pageSize = v + 1 := by
      unfold pageSize at *
      omega
    unfold segmentPages
    rw [Nat.mul_div_cancel _ (by decide), hlast]
    dsimp only
    rw [Nat.add_sub_cancel_left]
    rfl
  unfold mapSegment
  dsimp only
  refine .ite (fun hlow => absurd hlow ?_) fun _ => ?_
  · rw [hto, Nat.not_lt]
    exact Nat.mul_le_mul_right pageSize hv1
  refine .lift (if_pos hsum) (.ite (fun hlate => absurd hlate ?_) fun _ => ?_)
  · rw [hstop, hstack]
    omega
  have hperm : seg.permission = .userText := if_neg (by simp [htext])
  rw [hstop, hto, hpages, hva, List.take_of_length_le hdata, hperm]
  refine .bind (.forM_one (.lift (VirtAddr.ofWord_ofPage (by omega))
    (mapPage_new h hv1 hpast rfl hnone hE))) ?_
  rintro _ f1 ⟨g1, c, h1, hk1, hc, hall, hm1, hfree1⟩
  have hself : f1.memory.mapped t.root.number v =
      some (.link (pageAt c) Permission.userText.toFlags) := by
    rw [hm1, Function.update_self]
  have hc40 := lt_of_lt_of_le hc (Addressable.le (n := n))
  refine .lift (VirtAddr.ofWord_ofPage (by omega)) (.bind (writeBytes_page h1.accounted h1.isRoot
    (by omega) hc hself (hdata.trans hsize)) ?_)
  rintro _ f2 ⟨rfl, hw, hbytes⟩
  have hpage := Entry.pageNumber_link hc40 Permission.userText.toFlags
  obtain ⟨h2, hk2⟩ := h1.wrote hw fun q hq => ⟨v, _, hv1, hself, hpage.trans hq.symm⟩
  have hnone : g1 c = none := hpage ▸ (h1.accounted.fits.mapped_target h1.isRoot hself).1
  have hm2 : f2.memory.mapped t.root.number = f1.memory.mapped t.root.number :=
    hw.mapped (fun q hq => hq ▸ hnone) h1.accounted.fits h1.isRoot
  refine .pure ⟨g1, h2, hk1.trans hk2, fun w hw => ?_,
    ⟨hdata.trans hsize, c, hc40, hall, ?_, hbytes⟩, ?_⟩
  · rw [hm2, hm1, Function.update_of_ne hw]
  · rw [hm2, hself]
  · rwa [Frames.freePages_congr hw.count]

/-- The segments of a program go to a space that has nothing in the user region. -/
theorem mapProgram_ends {program : Program} (h : Filling kr held t.root.number g f)
    (hempty : ∀ v, userFirst ≤ v → f.memory.mapped t.root.number v = none)
    (hE : ¬ (program.Plain ∧ 4 ≤ f.freePages) → ∀ e, E e) :
    Ends (program.segments.forM (mapSegment program.name t)) f (fun _ f' => ∃ g',
      Filling kr held t.root.number g' f' ∧ Kept (· ≠ t.root.number) g f g' f' ∧
      (program.segments = [] → f' = f) ∧
      (program.Plain → f'.memory.mapped t.root.number (stackPage / pageSize) = none ∧
        f.freePages ≤ f'.freePages + 4) ∧
      ∀ seg v, program.segments = [seg] → seg.IsText v →
        v ≠ stackPage / pageSize ∧ f'.memory.HasText t.root.number v seg.data ∧
        ∀ w, w ≠ v → f'.memory.mapped t.root.number w = f.memory.mapped t.root.number w) E := by
  have hstack := hempty (stackPage / pageSize) (by decide)
  by_cases hplain : program.Plain
  · have hE : f.freePages < 4 → ∀ e, E e := fun hfew => hE fun h' => Nat.not_le.mpr hfew h'.2
    rcases hplain with hsegs | ⟨seg, v, hsegs, hseg⟩
    · rw [hsegs]
      exact .pure ⟨g, h, .refl _ _ _, fun _ => rfl, fun _ => ⟨hstack, Nat.le_add_right _ _⟩, nofun⟩
    · rw [hsegs]
      refine .forM_one ((mapSegment_text hseg h (hempty v hseg.first) hE).imp ?_)
      rintro _ f1 ⟨g1, h1, hk1, hother, htext, hfree1⟩
      refine ⟨g1, h1, hk1, nofun, fun _ => ⟨?_, hfree1⟩, fun seg' v' hsegs' hseg' => ?_⟩
      · rw [hother _ hseg.past.ne', hstack]
      · obtain rfl := List.singleton_inj.mp hsegs'
        obtain rfl := hseg.unique hseg'
        exact ⟨hseg.past.ne, htext, hother⟩
  · refine (mapSegments_ends h (hE fun h' => hplain h'.1)).imp fun _ f1 hf1 => ?_
    obtain ⟨g1, h1, hk1⟩ := hf1
    exact ⟨g1, h1, hk1, fun hsegs => absurd (.inl hsegs) hplain, fun h' => absurd h' hplain,
      fun seg v hsegs hseg => absurd (.inr ⟨seg, v, hsegs, hseg⟩) hplain⟩

/-- **The space of a new process** is complete, has a stack, and changes no other. Twelve free pages
are enough for a plain program; the text of that is where it has to be, and without segments it has
nothing else. -/
theorem buildSpace_ends {kernel : PageTable} {program : Program} (h : Accounted g held f)
    (hs : Spaces kernel.root.number (fun _ => True) g f.memory)
    (hn : 1 + n * 512 + held.length < maxCount)
    (hE : ¬ (program.Plain ∧ 12 ≤ f.freePages) → ∀ e, E e) :
    Ends (buildSpace kernel program) f (fun t f' => ∃ g', Accounted g' held f' ∧
      Spaces kernel.root.number (fun _ => True) g' f'.memory ∧
      ¬ g.IsRoot t.root.number ∧ g'.IsRoot t.root.number ∧ Kept (· ≠ t.root.number) g f g' f' ∧
      f'.memory.Holds t.root.number program ∧
      (program.segments = [] → f'.memory.Bare t.root.number) ∧
      (program.Plain → f.freePages ≤ f'.freePages + 12)) E := by
  unfold buildSpace
  refine .bind (sharingKernel_ends h hs hn) ?_
  intro found f1 hpost
  obtain ⟨g1, h1, hs1, hres⟩ := hpost
  rcases found with cause | t
  · exact .throw (hE (fun hfew => by have := hres.2; omega) _)
  obtain ⟨hfresh, hm1, hfree1⟩ := hres
  have hfill := Filling.of_sharing h1 hs1 hs hfresh hm1
  have hempty : ∀ v, userFirst ≤ v → f1.memory.mapped t.root.number v = none := fun v hv => by
    rw [hm1.mapped, kernelLeaf, if_neg (by omega)]
  dsimp only
  refine .bind (mapProgram_ends hfill hempty fun hfew => hE fun h' => hfew ⟨h'.1, by omega⟩) ?_
  rintro _ f2 ⟨g2, h2, hk2, hsame, hplain, htext⟩
  refine .bind .allocFilled ?_
  rintro (_ | stack) f3 h3
  · refine .throw (hE (fun hfew => ?_) _)
    have hfree2 := (hplain hfew.1).2
    have h0 := h3.2
    omega
  have h3 : Frames.HandedOutFull 0 f2 stack.number f3 := h3
  have hc := lt_of_lt_of_le h3.lt (Addressable.le (n := n))
  have hstack : stackPage / pageSize = 0x2ff := rfl
  rw [show (⟨UInt64.ofNat stackPage⟩ : VirtAddr) = .ofPage 0x2ff from rfl]
  refine .bind (h2.mapFresh_ends h3 (by decide) (by decide) rfl) ?_
  rintro (cause | _) f4 h4
  · refine .throw (hE (fun hfew => ?_) _)
    obtain ⟨hnone, hfree2⟩ := hplain hfew.1
    have hlt := h4 hnone
    omega
  obtain ⟨⟨g4, h4, hk4, hgrown⟩, hm4, hfree4⟩ := h4
  refine .pure ⟨g4, h4.accounted, h4.spaces, hfresh, h4.isRoot, (hm1.kept.trans hk2).trans hk4,
    ⟨⟨_, hc, h3.allocatable, ?_⟩, fun seg v hsegs hseg => ?_⟩, fun hsegs v hv => ?_, fun h' => ?_⟩
  · rw [hm4, hstack, Function.update_self]
  · obtain ⟨hne, htext, hother⟩ := htext seg v hsegs hseg
    refine ⟨htext.congr ?_ fun e hm _ => hgrown.byte_mapped h2.accounted h2.isRoot hm,
      fun w hw hwv => ?_⟩
    · rw [hm4, Function.update_of_ne (hstack ▸ hne)]
    · rw [hm4, Function.update_of_ne (hstack ▸ hw), hother w hwv, hm1.mapped]
  · rw [hm4, Function.update_of_ne (hstack ▸ hv), hsame hsegs, hm1.mapped]
  · have hfree2 := (hplain h').2
    omega

end

end PagedKernel
