import PagedKernel.Process.SystemCall
import PagedKernel.Proofs.Process.Spaces

/-!
# A page for a process

The system call for a page maps a page that nobody else has at the address asked for, if that lies
in the user region or is the console's. So the spaces stay as they have to be, and no other space
changes. Nothing else changes in the space of the process either, and nothing at all if the page is
refused. The call itself never halts.

Key definition: `PageGiven`.
Key theorems: `PageGiven.mapped`, `pageAlloc_ends`.
-/

namespace PagedKernel

variable {n : Nat} {g : Shape} {f f' : Frames n} {held : List Nat} {E : Halt → Prop}

theorem page_of_requested {addr : UInt64}
    (h : ¬ ((addr.toNat < procStart ∨ virtualSize ≤ addr.toNat) ∧ addr.toNat ≠ consoleAddr)) :
    (VirtAddr.mk addr).page = addr.toNat / pageSize ∧
      (addr.toNat / pageSize = consolePage ∨
        userFirst ≤ addr.toNat / pageSize ∧ addr.toNat / pageSize < userPast) := by
  have hpage : (VirtAddr.mk addr).page = addr.toNat / pageSize % pagesPerSpace := rfl
  have hlt : addr.toNat < virtualSize := by
    unfold virtualSize procStart consoleAddr at *
    omega
  have hmod : addr.toNat / pageSize < pagesPerSpace := by
    unfold pagesPerSpace pageSize
    unfold virtualSize at hlt
    omega
  rw [Nat.mod_eq_of_lt hmod] at hpage
  refine ⟨hpage, ?_⟩
  rw [consolePage_eq, userFirst_eq, userPast_eq]
  unfold procStart consoleAddr virtualSize at *
  unfold pageSize
  omega

/-- What is left of the space with root `r` when a page at `addr` has been asked for. -/
structure PageGiven (r : Nat) (addr : UInt64) (res : Except PageAllocError Unit)
    (f f' : Frames n) : Prop where
  granted : res = .ok () → addr.toNat / pageSize < userPast ∧ ∃ c, c < 2 ^ 40 ∧
    f'.memory.mapped r = Function.update (f.memory.mapped r) (addr.toNat / pageSize)
      (some (.link (pageAt c) Permission.userData.toFlags))
  refused : ∀ cause, res = .error cause → f'.memory.mapped r = f.memory.mapped r
  byte : ∀ v e, v ≠ addr.toNat / pageSize → f.memory.mapped r v = some e →
    ∀ a, a / pageSize = e.addr.pageNumber → f'.memory.byte a = f.memory.byte a

namespace PageGiven

variable {r : Nat} {addr : UInt64} {res : Except PageAllocError Unit} {f'' : Frames n} {g' : Shape}

theorem mapped (h : PageGiven r addr res f f') {v : Nat} (hv : v ≠ addr.toNat / pageSize) :
    f'.memory.mapped r v = f.memory.mapped r v := by
  cases res with
  | error cause => exact congrFun (h.refused cause rfl) v
  | ok _ =>
    obtain ⟨-, c, -, hm⟩ := h.granted rfl
    rw [hm, Function.update_of_ne hv]

theorem kept (h : PageGiven r addr res f f') (hr : g.IsRoot r)
    (hk : Kept (fun _ => True) g f' g' f'') : PageGiven r addr res f f'' := by
  have hm : f''.memory.mapped r = f'.memory.mapped r := hk.mapped trivial hr
  refine ⟨fun hok => hm ▸ h.granted hok, fun cause herr => hm.trans (h.refused cause herr),
    fun v e hv he a ha => ?_⟩
  rw [hk.byte trivial hr ((h.mapped hv).trans he) a ha, h.byte v e hv he a ha]

theorem of_kept (hr : g.IsRoot r) (hk : Kept (fun _ => True) g f g f') (cause : PageAllocError) :
    PageGiven r addr (.error cause) f f' :=
  ⟨nofun, fun _ _ => hk.mapped trivial hr, fun _ _ _ hm => hk.byte trivial hr hm⟩

end PageGiven

/-- **The call for a page** changes the mapping of one address of one space. -/
theorem pageAlloc_ends [Addressable n] {kr : Nat} {P : Nat → Prop} {t : PageTable} {addr : UInt64}
    (h : Accounted g held f) (hs : Spaces kr P g f.memory) (hr : g.IsRoot t.root.number)
    (ht : t.root.number ≠ kr) :
    Ends (pageAlloc t addr) f (fun res f' => PageGiven t.root.number addr res f f' ∧
      ∃ g', Accounted g' held f' ∧ Spaces kr P g' f'.memory ∧
        Kept (· ≠ t.root.number) g f g' f' ∧ g'.IsRoot t.root.number) E := by
  have refused : ∀ cause : PageAllocError, PageGiven t.root.number addr (.error cause) f f ∧
      ∃ g', Accounted g' held f ∧ Spaces kr P g' f.memory ∧
        Kept (· ≠ t.root.number) g f g' f ∧ g'.IsRoot t.root.number :=
    fun cause => ⟨.of_kept hr (.refl _ _ _) cause, g, h, hs, .refl _ _ _, hr⟩
  unfold pageAlloc
  refine .ite (fun _ => .pure (refused _)) fun _ => ?_
  refine .ite (fun _ => .pure (refused _)) fun hrange => ?_
  obtain ⟨hpage, hplace⟩ := page_of_requested hrange
  refine .bind .allocFilled ?_
  intro found f1 h1
  rcases found with _ | ref
  · obtain ⟨rfl, -⟩ := h1
    exact .pure (refused _)
  have h1 : Frames.HandedOutFull 0 f ref.number f1 := h1
  have h' := h.handedOut h1.toHandedOut
  have hk1 : Kept (fun _ => True) g f g f1 := .of_in_use h h1.byte_in_use
  have hs1 := hs.kept hk1
  have hc := lt_of_lt_of_le h1.lt (Addressable.le (n := n))
  unfold PageTable.replace
  rw [show t.pa = pageAt t.root.number from rfl]
  refine .bind (PageTable.install_ends _ h' hr) ?_
  intro found f2 h2
  rw [hpage] at h2
  rcases found with cause | old
  · obtain ⟨h2, hk2, -⟩ := h2
    have hk := hk1.trans hk2
    exact .pure ⟨.of_kept hr hk _, g, h2, hs1.kept hk2, hk.mono fun _ _ => trivial, hr⟩
  obtain ⟨⟨g2, h2, hm, hgrown⟩, -⟩ := h2
  have hleaf : LeafAllowed (addr.toNat / pageSize)
      (.link (pageAt ref.number) Permission.userData.toFlags) := by
    refine ⟨ref.number, .userData, hc, rfl, ?_⟩
    rcases hplace with heq | ⟨hv1, hv2⟩
    · rw [heq]
      exact .console (.inr h1.allocatable)
    · exact .user hv1 hv2 rfl h1.allocatable
  have hs2 : Spaces kr P g2 f2.memory := hs1.installed hr hm ht hleaf
    (hs1.isPrivate.install_sole hr hm (sole_of_handedOut h h1.toHandedOut hc))
  have hk2 := (hk1.mono fun _ _ => trivial).trans hm.kept
  have hgiven : PageGiven t.root.number addr (.ok ()) f f2 := by
    refine ⟨fun _ => ⟨hleaf.page_lt, _, hc, ?_⟩, nofun, fun v e _ hmapped a ha => ?_⟩
    · rw [hm.mapped, hk1.mapped trivial hr]
    · rw [hgrown.byte_mapped h' hr ((congrFun (hk1.mapped trivial hr) v).trans hmapped) a ha,
        hk1.byte trivial hr hmapped a ha]
  cases old with
  | none => exact .pure ⟨hgiven, g2, h2, hs2, hk2, hm.isRoot⟩
  | some old =>
    refine .bind (PageTable.release_ends h2) fun _ f3 h3 => ?_
    obtain ⟨h3, hk3, -⟩ := h3
    exact .pure ⟨hgiven.kept hm.isRoot hk3, g2, h3, hs2.kept hk3,
      hk2.trans (hk3.mono fun _ _ => trivial), hm.isRoot⟩

/-- Next to a page that is mapped, a request for a page needs no table. It is refused only if no
page is free. -/
theorem pageAlloc_beside [Addressable n] {t : PageTable} {v w : Nat} {e : Entry}
    (h : Accounted g held f) (hr : g.IsRoot t.root.number)
    (hw : f.memory.mapped t.root.number w = some e) (hbeside : v / 512 = w / 512)
    (hlow : userFirst ≤ v) (hhigh : v < userPast)
    (hnone : f.memory.mapped t.root.number v = none) :
    Ends (pageAlloc t (VirtAddr.ofPage v).val) f (fun res f' =>
      (res = .error .outOfMemory ∧ f.freePages = 0) ∨
        res = .ok () ∧ f.freePages = f'.freePages + 1) E := by
  rw [userFirst_eq] at hlow
  rw [userPast_eq] at hhigh
  have hto : (VirtAddr.ofPage v).val.toNat = v * pageSize := VirtAddr.toNat_ofPage (by omega)
  have haligned : (VirtAddr.ofPage v).val.toNat % pageSize = 0 := by rw [hto, Nat.mul_mod_left]
  have hrange : ¬ (((VirtAddr.ofPage v).val.toNat < procStart ∨
      virtualSize ≤ (VirtAddr.ofPage v).val.toNat) ∧
        (VirtAddr.ofPage v).val.toNat ≠ consoleAddr) := by
    rw [hto]
    unfold procStart virtualSize pageSize
    omega
  have hv : v < 2 ^ 36 := by omega
  unfold pageAlloc
  refine .ite (fun hmis => absurd haligned hmis) fun _ => .ite (fun hout => absurd hout hrange)
    fun _ => .bind .allocFilled ?_
  intro found f1 h1
  rcases found with _ | ref
  · obtain ⟨rfl, hfree⟩ := h1
    exact .pure (.inl ⟨rfl, hfree⟩)
  have h1 : Frames.HandedOutFull 0 f ref.number f1 := h1
  have hkept : Kept (fun _ => True) g f g f1 := .of_in_use h h1.byte_in_use
  have hmapped := hkept.mapped trivial hr
  have h' := h.handedOut h1.toHandedOut
  have hreach : (f1.memory.reach v 3 t.root.number).2 = 0 := by
    rw [Shape.Trees.reach_congr hbeside]
    exact h'.fits.toTrees.reach_of_mapped hr (hmapped ▸ hw)
  unfold PageTable.replace
  rw [show t.pa = pageAt t.root.number from rfl]
  refine .bind (PageTable.install_ends _ h' hr) ?_
  intro found f2 h2
  rcases found with cause | old
  · obtain ⟨-, -, -, hrefused⟩ := h2
    obtain ⟨-, hlt⟩ := PageTable.refused_ofPage (by omega) hv hrefused
    exact absurd (hreach ▸ hlt) (Nat.not_lt_zero _)
  · obtain ⟨-, rfl, -, -, hfree⟩ := h2
    rw [VirtAddr.page_ofPage hv] at hfree ⊢
    rw [hmapped, hnone]
    exact .pure (.inr ⟨rfl, by rw [h1.freePages, hfree, hreach]⟩)

end PagedKernel
