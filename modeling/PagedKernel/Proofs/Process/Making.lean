import PagedKernel.Proofs.Process.Picture
import PagedKernel.Proofs.Spaces.Destruction

/-!
# A space in the making

While the space of a new process is filled, one invariant says all there is to say about it
(`Making`). Every page that it maps in the user region is its own: it has one reference, so it is
mapped nowhere else and nobody has a handle to it (`OwnPage.sole`). Which pages these are, what they
may and what they hold is given by functions of the address, and each step of the loader changes
those. What there is besides, other spaces and handles alike, is a list of references. The pages
that are held so keep what they hold, and may get more references, for below the user region the new
space maps pages of the kernel.

Key definitions: `OwnPage`, `Surroundings`, `Making`.
Key theorems: `Making.changed`, `Making.mapPage_ends`, `Making.writeBytes_ends`,
`Making.mapSegments_ends`.
-/

namespace PagedKernel

variable {n : Nat} {g g' : Shape} {f f' : Frames n} {held : List Nat} {E : Halt → Prop}

/-! ### Pages of one's own -/

/-- A page that is mapped and has one reference is mapped there only, and nobody has a handle to it.
-/
theorem Accounted.sole (h : Accounted g held f) {r v : Nat} {e : Entry} (hr : g.IsRoot r)
    (hm : f.memory.mapped r v = some e) (h1 : f.count e.addr.pageNumber = 1) :
    e.addr.pageNumber ∉ held ∧ ∀ {v' e'}, f.memory.mapped r v' = some e' →
      e'.addr.pageNumber = e.addr.pageNumber → v' = v := by
  obtain ⟨hnone, hlt⟩ := h.fits.mapped_target hr hm
  have hpos := Shape.leafRefs_pos h.fits hr hm
  have hcount := h.count _ hlt
  rw [h1, hnone, Option.isSome_none, Bool.toNat_false] at hcount
  have hone : (g.leafSlots f.memory e.addr.pageNumber).card ≤ 1 := by
    change g.leafRefs f.memory e.addr.pageNumber ≤ 1
    omega
  have hslot : ∀ {v' e'}, f.memory.mapped r v' = some e' →
      e'.addr.pageNumber = e.addr.pageNumber → ∃ q, g q = some ⟨r, 0, v' / 512⟩ ∧
        (q, v' % 512) ∈ g.leafSlots f.memory e.addr.pageNumber := by
    intro v' e' hm' hpage
    obtain ⟨q, hq, hslot, -⟩ := (h.fits.mapped_iff hr).mp hm'
    have htarget := h.fits.mapped_page? hr hm'
    rw [← hslot, hslot, hpage] at htarget
    exact ⟨q, hq, Shape.mem_leafSlots.mpr ⟨h.fits.installed hq, mod_slots_lt v',
      Shape.isLeafTable_iff.mpr ⟨r, _, hq⟩, by rw [hslot, htarget]⟩⟩
  -- the slot of the leaf is the only one that points to the page
  refine ⟨List.count_eq_zero.mp (by omega), fun hm' hpage => ?_⟩
  obtain ⟨q, hq, hmem⟩ := hslot hm rfl
  obtain ⟨q', hq', hmem'⟩ := hslot hm' hpage
  have heq := Finset.card_le_one.mp hone _ hmem' _ hmem
  rw [Prod.mk.injEq] at heq
  obtain ⟨rfl, hmod⟩ := heq
  rw [hq, Option.some.injEq, Place.mk.injEq] at hq'
  omega

/-- The space with root `r` maps page number `v` with permission `perm` to page number `c`, which
has no other reference. It holds what `B` says of the addresses in it. -/
structure OwnPage (f : Frames n) (r v : Nat) (perm : Permission) (B : Nat → UInt8) (c : Nat) :
    Prop where
  mapped : f.memory.mapped r v = some (.link (pageAt c) perm.toFlags)
  count : f.count c = 1
  byte : ∀ i < pageSize, f.memory.byte (c * pageSize + i) = B (v * pageSize + i)

/-- What there is besides a space in the making: the references `held`, to pages that hold what they
do in `memory`. -/
structure Surroundings (n : Nat) where
  held : List Nat
  memory : Memory n

/-- The space with root `r` is in the making among `u`. Below the user region it maps what `L` says.
In the user region it maps what `P` says, page by page: each page is its own, and `B` is what it
holds. -/
structure Making (u : Surroundings n) (r : Nat) (L : Nat → Option Entry)
    (P : Nat → Option Permission) (B : Nat → UInt8) (g : Shape) (f : Frames n) : Prop where
  accounted : Accounted g u.held f
  isRoot : g.IsRoot r
  only : ∀ {r'}, g.IsRoot r' → r' = r
  byte : ∀ a, a / pageSize ∈ u.held → f.memory.byte a = u.memory.byte a
  page : ∀ {v perm}, userFirst ≤ v → P v = some perm →
    perm.read = true ∧ ∃ c, OwnPage f r v perm B c
  absent : ∀ {v}, userFirst ≤ v → P v = none → f.memory.mapped r v = none ∧
    ∀ i < pageSize, B (v * pageSize + i) = 0
  low : ∀ {v}, v < userFirst → f.memory.mapped r v = L v

section
variable [Addressable n] {u : Surroundings n} {r v c : Nat} {L L' : Nat → Option Entry}
  {P P' : Nat → Option Permission} {B : Nat → UInt8} {perm : Permission} {t : PageTable}

namespace OwnPage

omit [Addressable n] in
theorem lt (h : OwnPage f r v perm B c) : c < n := by
  by_contra hge
  have h1 := h.count
  rw [f.count_of_ge (Nat.not_lt.mp hge)] at h1
  cases h1

theorem pageNumber (h : OwnPage f r v perm B c) :
    (Entry.link (pageAt c) perm.toFlags).addr.pageNumber = c :=
  Entry.pageNumber_link (lt_of_lt_of_le h.lt (Addressable.le (n := n))) _

theorem sole (h : OwnPage f r v perm B c) (ha : Accounted g held f) (hr : g.IsRoot r) :
    g c = none ∧ c ∉ held ∧ ∀ {v' e'}, f.memory.mapped r v' = some e' → e'.addr.pageNumber = c →
      v' = v := by
  have hpage := h.pageNumber
  have hnone := (ha.fits.mapped_target hr h.mapped).1
  have hsole := ha.sole hr h.mapped (by rw [hpage, h.count])
  rw [hpage] at hsole hnone
  exact ⟨hnone, hsole⟩

theorem byte_grown {extra : Nat → Nat} (h : OwnPage f r v perm B c) (ha : Accounted g held f)
    (hr : g.IsRoot r) (hg : Grown r extra g f g' f') {i : Nat} (hi : i < pageSize) :
    f'.memory.byte (c * pageSize + i) = B (v * pageSize + i) := by
  rw [← h.byte i hi]
  refine hg.byte_mapped ha hr h.mapped _ ?_
  rw [h.pageNumber, page_add_div c hi]

end OwnPage

namespace Making

omit [Addressable n] in
theorem of_mapped (h : Making u r L P B g f) (hv : userFirst ≤ v) {e : Entry}
    (hm : f.memory.mapped r v = some e) : ∃ perm c, P v = some perm ∧ perm.read = true ∧
      e = .link (pageAt c) perm.toFlags ∧ OwnPage f r v perm B c := by
  cases hP : P v with
  | none => cases (h.absent hv hP).1.symm.trans hm
  | some perm =>
    obtain ⟨hread, c, hown⟩ := h.page hv hP
    exact ⟨perm, c, rfl, hread, Option.some.inj (hm.symm.trans hown.mapped), hown⟩

omit [Addressable n] in
theorem eq_none_of_mapped (h : Making u r L P B g f) (hv : userFirst ≤ v)
    (hm : f.memory.mapped r v = none) : P v = none := by
  rw [Option.eq_none_iff_forall_ne_some]
  intro perm hP
  obtain ⟨-, c, hown⟩ := h.page hv hP
  cases hown.mapped.symm.trans hm

omit [Addressable n] in
theorem congr_low (h : Making u r L P B g f) (hL : ∀ v < userFirst, L' v = L v) :
    Making u r L' P B g f :=
  { h with low := fun hv => (h.low hv).trans (hL _ hv).symm }

/-- The space changes at page number `v`. Of what is used besides nothing does, but for the pages
that are held, which may get more references. -/
theorem changed {extra : Nat → Nat} (h : Making u r L P B g f) (ha : Accounted g' u.held f')
    (hk : Kept (· ≠ r) g f g' f') (hr : g'.IsRoot r) (hg : Grown r extra g f g' f')
    (hextra : ∀ q ∉ u.held, extra q = 0)
    (hm : ∀ w, w ≠ v → f'.memory.mapped r w = f.memory.mapped r w)
    (hL : ∀ w, w < userFirst → w ≠ v → L' w = L w)
    (hP : ∀ w, userFirst ≤ w → w ≠ v → P' w = P w)
    (hlow : v < userFirst → f'.memory.mapped r v = L' v)
    (hpage : userFirst ≤ v → ∃ perm, P' v = some perm ∧ perm.read = true ∧
      ∃ c, OwnPage f' r v perm B c) :
    Making u r L' P' B g' f' where
  accounted := ha
  isRoot := hr
  only {r'} hr' := by
    by_contra hne
    exact hne (h.only ((hk.isRoot hne).mp hr'))
  byte a ha := by
    rw [hg.byte a _ (h.accounted.count_handle ha), h.byte a ha]
    rintro ⟨l, i, hq⟩
    rw [(h.accounted.handle _ ha).2] at hq
    cases hq
  page {w perm} hw hPw := by
    by_cases hwv : w = v
    · subst hwv
      obtain ⟨perm', hperm', hread, hown⟩ := hpage hw
      obtain rfl := Option.some.inj (hperm'.symm.trans hPw)
      exact ⟨hread, hown⟩
    · obtain ⟨hread, c, hown⟩ := h.page hw ((hP w hw hwv).symm.trans hPw)
      have hsole := hown.sole h.accounted h.isRoot
      refine ⟨hread, c, (hm w hwv).trans hown.mapped, ?_, fun i hi => ?_⟩
      · rw [hg.count c (hown.count ▸ one_ne_zero), hown.count, hextra c hsole.2.1]
      · exact hown.byte_grown h.accounted h.isRoot hg hi
  absent {w} hw hPw := by
    by_cases hwv : w = v
    · subst hwv
      obtain ⟨perm, hperm, -⟩ := hpage hw
      cases hperm.symm.trans hPw
    · rw [hm w hwv]
      exact h.absent hw ((hP w hw hwv).symm.trans hPw)
  low {w} hw := by
    by_cases hwv : w = v
    · subst hwv
      exact hlow hw
    · rw [hm w hwv, h.low hw, hL w hw hwv]

theorem mapped {F : Nat → Option Entry} (h : Making u r L P B g f) (ha : Accounted g' u.held f')
    (hk : Kept (· ≠ r) g f g' f') (hr : g'.IsRoot r) (hg : Grown r (fun _ => 0) g f g' f')
    (hv : userFirst ≤ v) (hread : perm.read = true)
    (hm : f'.memory.mapped r = Function.update F v (some (.link (pageAt c) perm.toFlags)))
    (hF : ∀ w, w ≠ v → F w = f.memory.mapped r w) (hcount : f'.count c = 1)
    (hbyte : ∀ i < pageSize, f'.memory.byte (c * pageSize + i) = B (v * pageSize + i)) :
    Making u r L (Function.update P v (some perm)) B g' f' := by
  refine h.changed ha hk hr hg (fun _ _ => rfl) (fun w hw => ?_) (fun _ _ _ => rfl)
    (fun w _ hw => Function.update_of_ne hw _ _) (fun hlow => absurd hv (Nat.not_le.mpr hlow))
    fun _ => ⟨perm, Function.update_self .., hread, c, ?_, hcount, hbyte⟩
  · rw [hm, Function.update_of_ne hw, hF w hw]
  · rw [hm, Function.update_self]

/-- A free page full of zeros is mapped, if none is there. -/
theorem mapFresh_ends (h : Making u t.root.number L P B g f) {f1 : Frames n}
    (ho : Frames.HandedOutFull 0 f c f1) (hv1 : userFirst ≤ v) (hv2 : v < 2 ^ 36)
    (hread : perm.read = true) :
    Ends (t.map (.ofPage v) ⟨c⟩ perm) f1 (fun res f' => res = .ok () → P v = none ∧
      ∃ g', Making u t.root.number L (Function.update P v (some perm)) B g' f') E := by
  have ha1 := h.accounted.handedOut ho.toHandedOut
  have hk1 : Kept (fun _ => True) g f g f1 := .of_in_use h.accounted ho.byte_in_use
  have hg1 : Grown t.root.number (fun _ => 0) g f g f1 :=
    .of_in_use (fun _ => ho.count_in_use) ho.byte_in_use
  have hone : f1.count c = 1 := by rw [ho.count, if_pos rfl]
  refine (PageTable.map_ends ha1 h.isRoot).imp ?_
  rintro res f' hmap rfl
  obtain ⟨⟨g', ha', hmap, hg'⟩, hnone, -⟩ := hmap
  rw [VirtAddr.page_ofPage hv2, hk1.mapped trivial h.isRoot] at hmap hnone
  have hP := h.eq_none_of_mapped hv1 hnone
  refine ⟨hP, g', h.mapped ha' (.trans (hk1.mono fun _ _ => trivial) hmap.kept) hmap.isRoot
    (hg1.trans hg') hv1 hread hmap.mapped (fun _ _ => rfl) ?_ fun i hi => ?_⟩
  · rw [hg'.count c (hone ▸ one_ne_zero), hone]
  · have hpage := page_add_div c hi
    have hc := (ha1.handle c List.mem_cons_self).2
    rw [(h.absent hv1 hP).2 i hi, ← ho.fill _ hpage]
    refine hg'.byte _ ?_ ?_
    · rintro ⟨l, i', hq⟩
      rw [hpage, hc] at hq
      cases hq
    · rw [hpage, hone]
      exact one_ne_zero

/-- A page that was taken out is mapped again with another permission. -/
theorem remap_ends {old : Permission} {page : FrameRef} {f1 : Frames n}
    (h : Making u t.root.number L P B g f) (hv1 : userFirst ≤ v) (hv2 : v < 2 ^ 36)
    (hP : P v = some old) (hread : perm.read = true) (ha1 : Accounted g (page.number :: u.held) f1)
    (hout : Remapped t.root.number (Function.update (f.memory.mapped t.root.number) v none)
      g f g f1)
    (hpage : (f.memory.mapped t.root.number v).bind Entry.frame? = some page)
    (hg1 : Grown t.root.number (fun _ => 0) g f g f1) :
    Ends (t.map (.ofPage v) page perm) f1 (fun res f' => res = .ok () →
      ∃ g', Making u t.root.number L (Function.update P v (some perm)) B g' f') E := by
  obtain ⟨-, c, hown⟩ := h.page hv1 hP
  have hc40 := lt_of_lt_of_le hown.lt (Addressable.le (n := n))
  have hlink := Entry.page?_link (f := old.toFlags) hc40 rfl
  rw [hown.mapped, Option.bind_some, Entry.frame?_of_page? hlink (by omega)] at hpage
  obtain rfl := Option.some.inj hpage
  refine (PageTable.map_ends ha1 hout.isRoot).imp ?_
  rintro res f' hmap rfl
  obtain ⟨⟨g', ha', hback, hg'⟩, -⟩ := hmap
  rw [VirtAddr.page_ofPage hv2] at hback
  have hg := hg1.trans hg'
  have hused : f.count c ≠ 0 := hown.count ▸ one_ne_zero
  refine ⟨g', h.mapped ha' (hout.kept.trans hback.kept) hback.isRoot hg hv1 hread hback.mapped
    (fun w hw => ?_) ((hg.count c hused).trans hown.count) fun i hi => ?_⟩
  · rw [hout.mapped, Function.update_of_ne hw]
  · exact hown.byte_grown h.accounted h.isRoot hg hi

/-- **A page of a segment** may what it did and what the segment asks for. -/
theorem mapPage_ends {program : String} (h : Making u t.root.number L P B g f)
    (hv1 : userFirst ≤ v) (hv2 : v < 2 ^ 36) (hread : perm.read = true) :
    Ends (mapPage program t (.ofPage v) perm) f (fun _ f' => ∃ g', Making u t.root.number L
      (Function.update P v (some (perm.grant (P v)))) B g' f') fun _ => True := by
  have hpage : (VirtAddr.ofPage v).page = v := VirtAddr.page_ofPage hv2
  have htrees := h.accounted.fits.toTrees
  apply mapPage_steps htrees h.isRoot fun _ => trivial
  · rintro - c f1 h1
    refine (h.mapFresh_ends h1 hv1 hv2 hread).imp fun res f2 h2 hres => ?_
    obtain ⟨hP, h2⟩ := h2 hres
    rwa [hP]
  all_goals
    intro e hm
    rw [hpage] at hm
    obtain ⟨old, c, hP, hold, rfl, hown⟩ := h.of_mapped hv1 hm
    rw [Permission.ofFlags_link (lt_of_lt_of_le hown.lt (Addressable.le (n := n))) hold]
  · intro hcontains
    have hsame : perm.grant (some old) = old := Permission.union_of_contains hcontains
    rw [hP, hsame, ← hP, Function.update_eq_self]
    exact ⟨g, h⟩
  · have htouch : Ends (t.unmap (.ofPage v)) f (fun _ f' =>
        Touched t.root.number (fun q => f.count q = 0) g f g f') fun _ => True :=
      PageTable.remove_touches htrees h.isRoot
    refine ((PageTable.remove_ends h.accounted h.isRoot).and htouch).imp ?_
    rintro res f1 ⟨h1, ht1⟩ page rfl
    obtain ⟨ha1, hout, hframe, hcount1⟩ := h1
    rw [hpage] at hout hframe
    have hunion : (old.union perm).read = true := by rw [Permission.union, hold, Bool.true_or]
    rw [hP, Permission.grant, Option.elim_some]
    exact h.remap_ends hv1 hv2 hP hunion ha1 hout hframe ⟨ht1, fun q _ => hcount1 q⟩

/-- **The pages of a segment** may what they did and what the segment asks for. -/
theorem mapPages_ends (program : String) (hread : perm.read = true) : ∀ (addrs : List Nat)
    {P : Nat → Option Permission} {g : Shape} {f : Frames n},
    (∀ a ∈ addrs, ∃ v, a = v * pageSize ∧ userFirst ≤ v ∧ v < 2 ^ 36) →
    Making u t.root.number L P B g f →
    Ends (addrs.forM fun a => do mapPage program t (← VirtAddr.ofWord (UInt64.ofNat a)) perm) f
      (fun _ f' => ∃ g', Making u t.root.number L
        (fun v => if v * pageSize ∈ addrs then some (perm.grant (P v)) else P v) B g' f')
      fun _ => True
  | [], P, g, f, _, h => by
    simp only [List.not_mem_nil, if_false]
    exact .pure ⟨g, h⟩
  | a :: addrs, P, g, f, haddrs, h => by
    obtain ⟨v, rfl, hv1, hv2⟩ := haddrs a List.mem_cons_self
    refine .bind (mapPage_ofWord (h.mapPage_ends hv1 hv2 hread) fun _ => trivial) ?_
    rintro _ f1 ⟨g1, h1⟩
    have hrest := fun a ha => haddrs a (List.mem_cons_of_mem _ ha)
    refine (mapPages_ends program hread addrs hrest h1).imp ?_
    rintro _ f2 ⟨g2, h2⟩
    refine ⟨g2, ?_⟩
    convert h2 using 2 with w
    -- an address that comes twice is given the permission once
    by_cases hw : w = v
    · subst hw
      rw [if_pos List.mem_cons_self, Function.update_self, Permission.grant_grant, ite_self]
    · have hmem : w * pageSize ∈ v * pageSize :: addrs ↔ w * pageSize ∈ addrs := by
        rw [List.mem_cons, or_iff_right]
        exact fun heq => hw (Nat.eq_of_mul_eq_mul_right (by decide) heq)
      simp only [hmem, Function.update_of_ne hw]

theorem wrote {off : Nat} {data : List UInt8} {m : Memory n} (h : Making u r L P B g f)
    (hv : userFirst ≤ v) (hP : P v = some perm) (hown : OwnPage f r v perm B c)
    (hoff : off + data.length ≤ pageSize) (hm : m = f.memory.putBytes (c * pageSize + off) data) :
    Making u r L P (overwrite B (v * pageSize + off) data) g { f with memory := m } := by
  obtain ⟨hnone, hheld, hsole⟩ := hown.sole h.accounted h.isRoot
  have hbyte : ∀ a, a / pageSize ≠ c → m.byte a = f.memory.byte a := fun a ha => by
    rw [hm]
    refine Memory.byte_putBytes_of_lt _ _ ?_
    unfold pageSize at *
    omega
  have hw : Wrote (· = c) f { f with memory := m } := ⟨fun _ => rfl, hbyte⟩
  have hS : ∀ q, q = c → g q = none := fun q hq => hq ▸ hnone
  have hmapped : m.mapped r = f.memory.mapped r := hw.mapped hS h.accounted.fits h.isRoot
  have hother : ∀ w, w ≠ v → ∀ i < pageSize, overwrite B (v * pageSize + off) data
      (w * pageSize + i) = B (w * pageSize + i) := fun w hwv i hi => by
    refine overwrite_of_outside ?_
    unfold pageSize at *
    omega
  refine ⟨hw.accounted hS h.accounted, h.isRoot, h.only, fun a ha => ?_, fun {w perm'} hw hPw => ?_,
    fun {w} hw hPw => ?_, fun hw => (congrFun hmapped _).trans (h.low hw)⟩
  · rw [← h.byte a ha]
    exact hbyte a fun heq => hheld (heq ▸ ha)
  · obtain ⟨hread, c', hown'⟩ := h.page hw hPw
    refine ⟨hread, c', (congrFun hmapped w).trans hown'.mapped, hown'.count, fun i hi => ?_⟩
    by_cases hwv : w = v
    · subst hwv
      have hentry := Option.some.inj (hown'.mapped.symm.trans hown.mapped)
      obtain rfl : c' = c := by rw [← hown'.pageNumber, ← hown.pageNumber, hentry]
      have hlt : (c' * pageSize + i) / pageSize < n := by
        rw [page_add_div c' hi]
        exact hown'.lt
      calc m.byte (c' * pageSize + i)
          = overwrite f.memory.byte (c' * pageSize + off) data (c' * pageSize + i) := by
            rw [hm, f.memory.byte_putBytes_eq_overwrite _ data hlt]
        _ = overwrite B (w * pageSize + off) data (w * pageSize + i) :=
            overwrite_shift (hown'.byte i hi)
    · rw [hother w hwv i hi, ← hown'.byte i hi]
      refine hbyte _ fun heq => hwv ?_
      rw [page_add_div c' hi] at heq
      exact hsole hown'.mapped (hown'.pageNumber.trans heq)
  · obtain ⟨hnone, hzero⟩ := h.absent hw hPw
    refine ⟨(congrFun hmapped w).trans hnone, fun i hi => ?_⟩
    have hwv : w ≠ v := by
      rintro rfl
      cases hPw.symm.trans hP
    rw [hother w hwv i hi, hzero i hi]

/-- **The data of a segment** is where it has to be. -/
theorem writeBytes_ends (va : VirtAddr) {data : List UInt8} (h : Making u t.root.number L P B g f)
    (hva : procStart ≤ va.toNat) (hend : va.toNat + data.length ≤ virtualSize) :
    Ends (t.writeBytes va data) f (fun res f' => res = .ok () →
      Making u t.root.number L P (overwrite B va.toNat data) g f') E := by
  have hwrite : Ends (t.writeFrom va 0 data) f (fun done f' => done = true →
      Making u t.root.number L P (overwrite B va.toNat data) g f') E := by
    refine PageTable.writeFrom_steps (I := fun k f' =>
      Making u t.root.number L P (overwrite B va.toNat (data.take k)) g f')
      (hend.trans (by decide)) ?_ ?_ ?_ ?_ 0 f (Nat.zero_le _) ?_
    · exact fun h' place => h'.accounted.fits.byteAddr?_eq t place h'.isRoot
    · exact fun _ _ _ _ => nofun
    · intro k f1 place e h1 hk hplace hm
      have hpage : userFirst ≤ place.page := VirtAddr.userFirst_le_page (by omega) (by omega)
      obtain ⟨perm, c, hP, -, rfl, hown⟩ := h1.of_mapped hpage hm
      have hc40 := lt_of_lt_of_le hown.lt (Addressable.le (n := n))
      have hoff : place.pageOffset < pageSize := mod_pageSize_lt _
      have hchunk := PageTable.length_chunk_le place (data.drop k)
      have hat : place.page * pageSize + place.pageOffset =
          va.toNat + (data.take k).length := by
        rw [List.length_take_of_le hk.le, ← hplace]
        unfold virtualSize at hend
        unfold VirtAddr.page VirtAddr.pageOffset pagesPerSpace pageSize
        omega
      have h2 := h1.wrote hpage hP hown hchunk rfl
      rw [hat, overwrite_append, ← take_add_chunk] at h2
      refine ⟨_, ?_, h2⟩
      rw [Entry.addr_link hc40]
      exact f1.memory.writeBytes_eq_putBytes _ hown.lt hoff hchunk
    · intro f' h' _
      rwa [List.take_length] at h'
    · rwa [List.take_zero, overwrite_nil]
  unfold PageTable.writeBytes
  refine .bind hwrite fun done f' h' => .pure fun hres => h' ?_
  cases done with
  | true => rfl
  | false => cases hres

/-- **A segment** is added to what is there. -/
theorem mapSegment_ends (program : String) {seg : Segment}
    (h : Making u t.root.number L P B g f) :
    Ends (mapSegment program t seg) f (fun _ f' => ∃ g', Making u t.root.number L
      (fun v => if seg.Covers (v * pageSize) then some (seg.permission.grant (P v)) else P v)
      (overwrite B seg.va.toNat (seg.data.take seg.size.toNat)) g' f') fun _ => True := by
  refine mapSegment_steps (P := fun f' => ∃ g', Making u t.root.number L
    (fun v => if seg.Covers (v * pageSize) then some (seg.permission.grant (P v)) else P v) B g' f')
    (fun hlow hhigh => ?_) (fun hlow hhigh f1 hf1 => ?_) fun _ => trivial
  · have hpages : ∀ a ∈ segmentPages seg.va.toNat (seg.va.toNat + seg.size.toNat),
        ∃ v, a = v * pageSize ∧ userFirst ≤ v ∧ v < 2 ^ 36 := by
      intro a ha
      obtain ⟨v, rfl, hv1, hv2⟩ := mem_segmentPages.mp ha
      refine ⟨v, rfl, le_trans (Nat.div_le_div_right hlow) hv1, ?_⟩
      unfold stackPage virtualSize pageSize at *
      omega
    have hmap := h.mapPages_ends program seg.permission_read _ hpages
    simp only [Segment.covers_iff] at hmap
    exact hmap
  · obtain ⟨g1, h1⟩ := hf1
    refine (h1.writeBytes_ends ⟨seg.va⟩ hlow ?_).imp fun _ f2 h2 hres => ⟨g1, h2 hres⟩
    rw [List.length_take, show (VirtAddr.mk seg.va).toNat = seg.va.toNat from rfl]
    unfold stackPage at hhigh
    omega

/-- **The segments of a program**, one after the other. -/
theorem mapSegments_ends (program : String) : ∀ (rest done : List Segment) {g : Shape}
    {f : Frames n}, Making u t.root.number L (fun v => Segment.unionOf done (v * pageSize))
      (Segment.lastOf done) g f →
    Ends (rest.forM (mapSegment program t)) f (fun _ f' => ∃ g', Making u t.root.number L
      (fun v => Segment.unionOf (done ++ rest) (v * pageSize)) (Segment.lastOf (done ++ rest))
      g' f') fun _ => True
  | [], done, g, f, h => by
    rw [List.append_nil]
    exact .pure ⟨g, h⟩
  | seg :: rest, done, g, f, h => by
    refine .bind (h.mapSegment_ends program) ?_
    rintro _ f1 ⟨g1, h1⟩
    rw [← Segment.lastOf_append] at h1
    simp only [← Segment.unionOf_append] at h1
    have hrest := mapSegments_ends program rest (done ++ [seg]) h1
    rwa [List.append_assoc, List.singleton_append] at hrest

end Making

end

end PagedKernel
