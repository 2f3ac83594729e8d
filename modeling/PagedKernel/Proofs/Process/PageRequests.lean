import PagedKernel.Process.SystemCall
import PagedKernel.Proofs.Spaces.Atomicity
import PagedKernel.Proofs.Spaces.Destruction

/-!
# A request for a page is granted or changes nothing

The address that a process passes with a request for a page is any word. Among consistent page
tables the request is refused for the first of three causes that there is, and which one it is
depends on the address, the free pages and the tables that are missing on its way. Refused, it
changes no count, no mapping and no page in use. Granted, it maps a free page full of zeros there,
gives back the reference to the page that was there before, and writes one entry of one table
besides; what else there is to change are pages that nobody used.

Key definitions: `PageRefused`, `PageGranted`, `PageAnswered`.
Key theorem: `Frames.Consistent.pageAlloc_exact`.
-/

namespace PagedKernel

variable {n : Nat} {g g' : Shape} {f f' f'' : Frames n} {ts : List PageTable}
  {handles : List FrameRef} {held : List Nat} {t : PageTable} {addr : UInt64} {va : VirtAddr}

/-- A process may ask for a page at this address: it is in the user region, or the console. -/
def Requestable (addr : UInt64) : Prop :=
  addr.toNat = consoleAddr ∨ procStart ≤ addr.toNat ∧ addr.toNat < virtualSize

/-- When a request is refused, for each cause. -/
def PageRefused (ts : List PageTable) (t : PageTable) (addr : UInt64) (f : Frames n) :
    PageAllocError → Prop
  | .unaligned => addr.toNat % pageSize ≠ 0
  | .outOfRange => addr.toNat % pageSize = 0 ∧ ¬ Requestable addr
  | .outOfMemory => addr.toNat % pageSize = 0 ∧ Requestable addr ∧
    f.freePages < 1 + f.memory.tablesMissing {t | t ∈ ts} t ⟨addr⟩

/-- Nothing has changed from `f` to `f'` that anybody refers to. -/
structure Frames.Unchanged (ts : List PageTable) (f f' : Frames n) : Prop
    extends Frames.SameUse f f' where
  walk : ∀ t ∈ ts, ∀ va, t.walk f'.memory va = t.walk f.memory va

/-- From `f` to `f'` page number `page`, which was free, has been mapped at `va` in `t`. The page
that was mapped there has lost a reference, as many free pages as there were tables missing are
tables, and no other count has changed. No other mapping has, and a single entry is all that was
written in pages in use. -/
structure PageGranted (ts : List PageTable) (t : PageTable) (va : VirtAddr) (page : Nat)
    (f f' : Frames n) : Prop where
  free : f.isFree page = true
  walk : t.walk f'.memory va = .ok (some (.link (pageAt page) Permission.userData.toFlags))
  count_page : f'.count page = 1
  zeros : ∀ a, a / pageSize = page → f'.memory.byte a = 0
  count_old : ∀ e, t.walk f.memory va = .ok (some e) →
    f'.count e.addr.pageNumber + 1 = f.count e.addr.pageNumber
  count : ∀ q, f.count q ≠ 0 →
    (∀ e, t.walk f.memory va = .ok (some e) → e.addr.pageNumber ≠ q) → f'.count q = f.count q
  tables : ∃ fresh : List Nat, fresh.Nodup ∧
    fresh.length = f.memory.tablesMissing {t | t ∈ ts} t va ∧
    (∀ q ∈ fresh, f.isFree q = true ∧ q ≠ page ∧ f'.count q = 1) ∧
    ∀ q, f.count q = 0 → q ≠ page → q ∉ fresh → f'.count q = 0
  walk_other : ∀ t' ∈ ts, ∀ va', t' ≠ t ∨ va'.page ≠ va.page →
    t'.walk f'.memory va' = t'.walk f.memory va'
  byte : ∃ q p s, f.memory.TableAt {t | t ∈ ts} q p ∧ p.root = t.root.number ∧ s < 512 ∧
    ∀ a, f.count (a / pageSize) ≠ 0 → a / 8 ≠ 512 * q + s → f'.memory.byte a = f.memory.byte a

/-- What a request for a page comes to. -/
structure PageAnswered (ts : List PageTable) (handles : List FrameRef) (t : PageTable)
    (addr : UInt64) (f : Frames n) (answer : Except PageAllocError Unit) (f' : Frames n) :
    Prop where
  cause : ∀ cause, answer = .error cause ↔ PageRefused ts t addr f cause
  refused : ∀ cause, answer = .error cause → f.Unchanged ts f'
  granted : answer = .ok () → ∃ page, PageGranted ts t ⟨addr⟩ page f f'
  consistent : f'.Consistent ts handles
  count_table : ∀ q, f'.memory.HoldsTable {t | t ∈ ts} q → f'.count q = 1

/-! ### Causes -/

theorem PageRefused.unique {cause cause' : PageAllocError} (h : PageRefused ts t addr f cause)
    (h' : PageRefused ts t addr f cause') : cause' = cause := by
  cases cause with
  | unaligned =>
    cases cause' with
    | unaligned => rfl
    | outOfRange => exact absurd h'.1 h
    | outOfMemory => exact absurd h'.1 h
  | outOfRange =>
    cases cause' with
    | unaligned => exact absurd h.1 h'
    | outOfRange => rfl
    | outOfMemory => exact absurd h'.2.1 h.2
  | outOfMemory =>
    cases cause' with
    | unaligned => exact absurd h.1 h'
    | outOfRange => exact absurd h.2.1 h'.2
    | outOfMemory => rfl

/-! ### Counts -/

/-- From `f` to `f'` the pages `fresh`, which were free, have each got a reference, and the pages
`old`, which were in use, have lost one. -/
structure Exchanged (fresh old : List Nat) (f f' : Frames n) : Prop where
  free : ∀ q ∈ fresh, f.isFree q = true
  nodup : fresh.Nodup
  used : ∀ q ∈ old, f.count q ≠ 0
  count : ∀ q, f'.count q + old.count q = f.count q + fresh.count q

namespace Exchanged

variable {fresh old : List Nat} {q : Nat}

theorem count_zero (h : Exchanged fresh old f f') (hq : q ∈ fresh) : f.count q = 0 :=
  ((f.isFree_iff q).mp (h.free q hq)).2.2

theorem count_fresh (h : Exchanged fresh old f f') (hq : q ∈ fresh) : f'.count q = 1 := by
  have hold : q ∉ old := fun hmem => h.used q hmem (h.count_zero hq)
  have hcount := h.count q
  rwa [List.count_eq_zero.mpr hold, h.count_zero hq, List.count_eq_one_of_mem h.nodup hq] at hcount

theorem count_used (h : Exchanged fresh old f f') (hq : f.count q ≠ 0) :
    f'.count q + old.count q = f.count q := by
  rw [h.count, List.count_eq_zero.mpr fun hmem => hq (h.count_zero hmem), Nat.add_zero]

theorem count_unused (h : Exchanged fresh old f f') (hq : f.count q = 0) (hf : q ∉ fresh) :
    f'.count q = 0 := by
  have hcount := h.count q
  rw [hq, List.count_eq_zero.mpr hf] at hcount
  omega

/-- A page is handed out, then tables are taken, then references are given back. -/
theorem of_enlarged {page : Nat} (hpage : Frames.HandedOut f page f') (hnew : Enlarged fresh g f' g' f'')
    {f₃ : Frames n} (hused : ∀ q ∈ old, f.count q ≠ 0)
    (hback : ∀ q, f₃.count q + old.count q = f''.count q) :
    Exchanged (page :: fresh) old f f₃ := by
  have hone : f'.count page = 1 := by rw [hpage.count, if_pos rfl]
  have hfree : ∀ q ∈ fresh, q ≠ page ∧ f.isFree q = true := by
    intro q hq
    obtain ⟨hlow, hlt, hzero⟩ := (f'.isFree_iff q).mp (hnew.free q hq)
    have hne : q ≠ page := by
      rintro rfl
      exact absurd hone (hzero ▸ Nat.zero_ne_one)
    rw [hpage.count, if_neg hne] at hzero
    exact ⟨hne, (f.isFree_iff q).mpr ⟨hlow, hlt, hzero⟩⟩
  refine ⟨?_, List.nodup_cons.mpr ⟨fun hmem => (hfree page hmem).1 rfl, hnew.nodup⟩, hused, ?_⟩
  · intro q hq
    rcases List.mem_cons.mp hq with rfl | hq
    · exact hpage.free
    · exact (hfree q hq).2
  · intro q
    rw [hback, hnew.count, hpage.count]
    by_cases hq : q = page
    · subst hq
      rw [if_pos rfl, hpage.count_zero, List.count_cons_self]
      omega
    · rw [if_neg hq, List.count_cons_of_ne (Ne.symm hq)]

end Exchanged

/-! ### The answers -/

section
variable [Addressable n]

/-- Changes of pages that nobody uses do not concern the page tables. -/
theorem Accounted.unchanged (ha : Accounted g held f) (hts : PageTable.AllOf g ts)
    (hu : Frames.SameUse f f') : f.Unchanged ts f' where
  toSameUse := hu
  walk t ht va := by
    have hsame := ha.sameSpace hu.byte (hts.isRoot t ht)
    rw [hts.walk_eq (ha.sameUse hu).fits ht, hts.walk_eq ha.fits ht, hsame.mapped]

namespace PageAnswered

theorem of_error {cause : PageAllocError} (ha : Accounted g (handles.map (·.number)) f)
    (hts : PageTable.AllOf g ts) (hcause : PageRefused ts t addr f cause)
    (hu : Frames.SameUse f f') : PageAnswered ts handles t addr f (.error cause) f' where
  cause cause' := by
    constructor
    · rintro ⟨⟩
      exact hcause
    · exact fun h => congrArg Except.error (h.unique hcause)
  refused _ _ := ha.unchanged hts hu
  granted := nofun
  consistent := (ha.sameUse hu).consistent hts
  count_table _ hq := hts.count_holdsTable (ha.sameUse hu) hq

omit [Addressable n] in
theorem of_ok {page : Nat} (hcause : ∀ cause, ¬ PageRefused ts t addr f cause)
    (hgranted : PageGranted ts t ⟨addr⟩ page f f') (ha' : Accounted g' (handles.map (·.number)) f')
    (hts' : PageTable.AllOf g' ts) : PageAnswered ts handles t addr f (.ok ()) f' where
  cause cause := iff_of_false nofun (hcause cause)
  refused := nofun
  granted _ := ⟨page, hgranted⟩
  consistent := ha'.consistent hts'
  count_table _ hq := hts'.count_holdsTable ha' hq

end PageAnswered

/-- The frames when a page has been handed out, mapped, and the reference to the page that it
replaces has been given back. -/
theorem PageGranted.of_installed {f₁ f₂ f₃ : Frames n} {page : Nat} {fresh : List Nat}
    (ha : Accounted g held f) (hts : PageTable.AllOf g ts) (ht : t ∈ ts)
    (hpage : Frames.HandedOutFull 0 f page f₁)
    (hcounts : Exchanged (page :: fresh)
      ((f.memory.mapped t.root.number va.page).toList.map (·.addr.pageNumber)) f f₃)
    (hmap : Remapped t.root.number (Function.update (f.memory.mapped t.root.number) va.page
      (some (.link (pageAt page) Permission.userData.toFlags))) g f g' f₂)
    (hlen : fresh.length = (f.memory.reach va.page 3 t.root.number).2)
    (hwrites : ∀ a, f₁.count (a / pageSize) ≠ 0 →
      a / 8 ≠ 512 * (f.memory.reach va.page 3 t.root.number).1 +
        va.page / 512 ^ (f.memory.reach va.page 3 t.root.number).2 % 512 →
      f₂.memory.byte a = f₁.memory.byte a)
    (ha' : Accounted g' held f₃) (hts' : PageTable.AllOf g' ts) (hmemory : f₃.memory = f₂.memory) :
    PageGranted ts t va page f f₃ := by
  have hr : g.IsRoot t.root.number := hts.isRoot t ht
  have hplace := (ha.fits.reach_place (Shape.Trees.root_place hr va.page_lt)).1
  have hs := mod_slots_lt (va.page / 512 ^ (f.memory.reach va.page 3 t.root.number).2)
  have hwalk : ∀ e, t.walk f.memory va = .ok (some e) →
      f.memory.mapped t.root.number va.page = some e := fun e he =>
    Except.ok.inj ((hts.walk_eq ha.fits ht va).symm.trans he)
  have hwalk' : ∀ t' ∈ ts, ∀ va', t'.walk f₃.memory va' =
      .ok (f₂.memory.mapped t'.root.number va'.page) := fun t' ht' va' => by
    rw [hts'.walk_eq ha'.fits ht', hmemory]
  have hone : f₁.count page = 1 := by rw [hpage.count, if_pos rfl]
  constructor
  case free => exact hpage.free
  case walk => rw [hwalk' t ht va, hmap.mapped, Function.update_self]
  case count_page => exact hcounts.count_fresh List.mem_cons_self
  case zeros =>
    intro a hap
    rw [hmemory, hwrites a (by rw [hap, hone]; decide), hpage.fill a hap]
    -- the entry that is written is one of a table, and the page is none
    intro hword
    have htable : (f.memory.reach va.page 3 t.root.number).1 = page := by
      unfold pageSize at hap
      omega
    rw [htable] at hplace
    exact ha.table_in_use (hplace ▸ Option.some_ne_none _) hpage.count_zero
  case count_old =>
    intro e he
    have hcount := hcounts.count_used (ha.count_mapped hr (hwalk e he))
    rw [hwalk e he] at hcount
    simpa using hcount
  case count =>
    intro q hq hother
    have hcount := hcounts.count_used hq
    rwa [List.count_eq_zero.mpr, Nat.add_zero] at hcount
    intro hmem
    obtain ⟨e, he, heq⟩ := List.mem_map.mp hmem
    have he := Option.mem_toList.mp he
    exact hother e ((hts.walk_eq ha.fits ht va).trans (congrArg Except.ok he)) heq
  case tables =>
    have hnodup := List.nodup_cons.mp hcounts.nodup
    refine ⟨fresh, hnodup.2, ?_, fun q hq => ?_, fun q hq hqp hqf => ?_⟩
    · rw [hlen, (hts.plantedAt ha).tablesMissing_eq ht]
    · have hmem := List.mem_cons_of_mem page hq
      exact ⟨hcounts.free q hmem, fun heq => hnodup.1 (heq ▸ hq), hcounts.count_fresh hmem⟩
    · exact hcounts.count_unused hq fun hmem => (List.mem_cons.mp hmem).elim hqp hqf
  case walk_other =>
    intro t' ht' va' hne
    rw [hwalk' t' ht' va', hts.walk_eq ha.fits ht']
    by_cases hroot : t'.root.number = t.root.number
    · have hva : va'.page ≠ va.page := by
        refine hne.resolve_left fun hne => hne ?_
        obtain ⟨⟨r⟩⟩ := t
        obtain ⟨⟨r'⟩⟩ := t'
        exact congrArg (fun r => PageTable.mk ⟨r⟩) hroot
      rw [hroot, hmap.mapped, Function.update_of_ne hva]
    · rw [hmap.kept.mapped hroot (hts.isRoot t' ht')]
  case byte =>
    refine ⟨(f.memory.reach va.page 3 t.root.number).1, _,
      va.page / 512 ^ (f.memory.reach va.page 3 t.root.number).2 % 512,
      (hts.plantedAt ha).tableAt_iff.mpr hplace, rfl, hs, fun a hused hword => ?_⟩
    rw [hmemory, hwrites a (by rwa [hpage.count_in_use hused]) hword, hpage.byte_in_use a hused]

omit [Addressable n] in
theorem frames_mapped (hf : g.Fits f.memory) {r : Nat} (hr : g.IsRoot r) (v : Nat) :
    ((f.memory.mapped r v).bind Entry.frame?).toList.map (·.number) =
      (f.memory.mapped r v).toList.map (·.addr.pageNumber) := by
  cases he : f.memory.mapped r v with
  | none => rfl
  | some e =>
    have hpage := hf.mapped_page? hr he
    rw [Option.bind_some, Entry.frame?_of_page? hpage (lt_trans (Entry.page?_lt hpage) (by decide))]
    rfl

omit [Addressable n] in
/-- The cause by which mapping the page fails is that there are too few pages for tables. -/
theorem PageRefused.of_refused {f₁ : Frames n} {cause : MapError}
    (h : PageTable.Refused f₁ t.root.number ⟨addr⟩ cause) (haligned : addr.toNat % pageSize = 0)
    (hrange : Requestable addr) (hfree : f.freePages = f₁.freePages + 1)
    (hmissing : f.memory.tablesMissing {t | t ∈ ts} t ⟨addr⟩ =
      (f₁.memory.reach (VirtAddr.mk addr).page 3 t.root.number).2) :
    PageRefused ts t addr f (.ofMapError cause) := by
  have hne : addr ≠ 0 := by
    rintro rfl
    exact absurd hrange (by unfold Requestable; decide)
  obtain ⟨rfl, hlt⟩ := h.outOfMemory (beq_iff_eq.mpr haligned) hne
  exact ⟨haligned, hrange, by omega⟩

/-- When the page has been handed out, it is mapped, and then whatever gives back the reference to
the page it replaces answers the request; or there are too few pages for tables. -/
theorem replace_answers {f₁ : Frames n} {page : FrameRef}
    (ha : Accounted g (handles.map (·.number)) f) (hts : PageTable.AllOf g ts) (ht : t ∈ ts)
    (haligned : addr.toNat % pageSize = 0) (hrange : Requestable addr)
    (hpage : Frames.HandedOutFull 0 f page.number f₁) :
    Ends (t.replace ⟨addr⟩ page .userData) f₁ (fun res f₂ =>
      match res with
      | .error cause => PageAnswered ts handles t addr f (.error (.ofMapError cause)) f₂
      | .ok old => ∃ g₂, Accounted g₂ (old.toList.map (·.number) ++ handles.map (·.number)) f₂ ∧
        ∀ f₃, Accounted g₂ (handles.map (·.number)) f₃ → f₃.memory = f₂.memory →
          (∀ q, f₃.count q + (old.toList.map (·.number)).count q = f₂.count q) →
          PageAnswered ts handles t addr f (.ok ()) f₃) E := by
  have hr := hts.isRoot t ht
  have hfree := hpage.freePages
  have hsame := ha.sameSpace hpage.byte_in_use hr
  have hreach := Memory.SameBelow.reach (v := (VirtAddr.mk addr).page) hsame
  have hmissing := (hts.plantedAt ha).tablesMissing_eq ht ⟨addr⟩
  have ha₁ := ha.handedOut hpage.toHandedOut
  have hinstall : Ends (PageTable.install (pageAt t.root.number) ⟨addr⟩ page .userData) f₁ _ E :=
    PageTable.install_ends ⟨addr⟩ ha₁ hr
  have hplanted : Ends (PageTable.install (pageAt t.root.number) ⟨addr⟩ page .userData) f₁ _ E :=
    PageTable.install_planted ⟨addr⟩ ha₁.planted hr (ha₁.count_handle List.mem_cons_self)
  have hwrites : Ends (PageTable.install (pageAt t.root.number) ⟨addr⟩ page .userData) f₁ _ _ :=
    PageTable.install_writes ⟨addr⟩ ha₁.planted hr
  refine (hinstall.and (hplanted.and hwrites)).imp fun res f₂ h₂ => ?_
  cases res with
  | error cause =>
    obtain ⟨⟨-, -, -, hrefused⟩, ⟨hgiven, -⟩, -⟩ := h₂
    refine .of_error ha hts (.of_refused hrefused haligned hrange hfree ?_) ⟨fun q => ?_, ?_⟩
    · rw [hmissing, hreach]
    · -- the page is free again
      have hcount := hgiven.count q
      rw [hpage.count] at hcount
      by_cases hq : q = page.number
      · rw [hq, hpage.count_zero]
        simpa [hq] using hcount
      · simpa [hq] using hcount
    · intro a hused
      rw [hgiven.byte a (by rwa [hpage.count_in_use hused]), hpage.byte_in_use a hused]
  | ok old =>
    obtain ⟨⟨⟨g₂, ha₂, hmap, -⟩, hold, -, -, hfree₂⟩, ⟨⟨_, fresh, -, hnew, hlen⟩, -⟩,
      hwrites⟩ := h₂
    rw [hsame.mapped] at hmap hold
    rw [hreach] at hlen hwrites hfree₂
    have hmap := Remapped.of_kept (.of_in_use ha hpage.byte_in_use) hmap
    have hts₂ : PageTable.AllOf g₂ ts := hts.congr (hmap.isRoot_iff hr)
    have hback := frames_mapped ha.fits hr (VirtAddr.mk addr).page
    rw [← hold] at hback
    refine ⟨g₂, ha₂, fun f₃ ha₃ hmemory hcount => ?_⟩
    rw [hback] at hcount
    have hused : ∀ q ∈ (f.memory.mapped t.root.number (VirtAddr.mk addr).page).toList.map
        (·.addr.pageNumber), f.count q ≠ 0 := by
      intro q hq
      obtain ⟨e, he, rfl⟩ := List.mem_map.mp hq
      exact ha.count_mapped hr (Option.mem_toList.mp he)
    have hcounts := Exchanged.of_enlarged hpage.toHandedOut hnew hused hcount
    refine .of_ok ?_ (.of_installed ha hts ht hpage hcounts hmap hlen (hwrites old rfl) ha₃ hts₂
      hmemory) ha₃ hts₂
    rintro (_ | _ | _) hcause
    · exact hcause haligned
    · exact hcause.2 hrange
    · have hlt := hcause.2.2
      omega

/-- **A request for a page** never halts. It is refused for the cause that the address, the free
pages and the missing tables decide, and then changes nothing, or it is granted. -/
theorem Frames.Consistent.pageAlloc_exact (h : f.Consistent ts handles)
    (hone : ∀ q, f.memory.HoldsTable {t | t ∈ ts} q → f.count q = 1) (ht : t ∈ ts)
    (addr : UInt64) : ∃ answer f', pageAlloc t addr f = .ok answer f' ∧
      PageAnswered ts handles t addr f answer f' := by
  have ha := h.accounted_of_count hone
  have hts := h.allOf
  generalize h.shape = g at ha hts
  have hends : Ends (pageAlloc t addr) f (PageAnswered ts handles t addr f) fun _ => False := by
    unfold pageAlloc
    refine .ite (fun hmis => .pure (.of_error ha hts hmis (.refl f))) fun haligned => ?_
    have haligned : addr.toNat % pageSize = 0 := not_not.mp haligned
    refine .ite (fun hout => .pure (.of_error ha hts ⟨haligned, ?_⟩ (.refl f))) fun hin => ?_
    · unfold Requestable
      omega
    have hrange : Requestable addr := by
      unfold Requestable
      omega
    refine .bind .allocFilled ?_
    intro found f₁ h₁
    rcases found with _ | page
    · obtain ⟨rfl, hfree⟩ := h₁
      exact .pure (.of_error ha hts ⟨haligned, hrange, by omega⟩ (.refl _))
    refine .bind (replace_answers ha hts ht haligned hrange h₁) ?_
    intro res f₂ h₂
    rcases res with cause | old
    · exact .pure h₂
    obtain ⟨g₂, ha₂, hdone⟩ := h₂
    cases old with
    | none => exact .pure (hdone f₂ ha₂ rfl fun _ => rfl)
    | some old =>
      have hlt := (ha₂.handle old.number List.mem_cons_self).1
      have hused := ha₂.count_handle (q := old.number) List.mem_cons_self
      have hreleased := Released.release (S := fun _ => False) hlt hused
      have hrelease : Ends (Frames.release old) f₂ (fun _ f₃ =>
          PageAnswered ts handles t addr f (.ok ()) f₃) fun _ => False :=
        .release hlt hused (hdone _ (ha₂.release hlt) rfl hreleased.count)
      exact .bind hrelease fun _ _ h₃ => .pure h₃
  exact hends.ok

/-- The first page of the user region is granted where a page table maps another page. -/
theorem pageAlloc_exact_one_page : ∃ (t : PageTable) (f f' : Frames physicalPages),
    f.Consistent [t] [] ∧ (∀ q, f.memory.HoldsTable {t' | t' ∈ [t]} q → f.count q = 1) ∧
    pageAlloc t 0x100000 f = .ok (.ok ()) f' ∧ PageAnswered [t] [] t 0x100000 f (.ok ()) f' := by
  obtain ⟨g, f, r, c, -, ha, hts, h, hfree⟩ := OnePage.exists_consistent
  have hone := fun q => hts.count_holdsTable ha (q := q)
  have hmem := List.mem_singleton_self (⟨⟨r⟩⟩ : PageTable)
  obtain ⟨answer, f', hok, hanswer⟩ := h.pageAlloc_exact hone hmem 0x100000
  have hmissing := (hts.plantedAt ha).tablesMissing_eq hmem ⟨0x100000⟩
  have hlevels := Shape.Trees.reach_le f.memory (VirtAddr.mk 0x100000).page 3
    (PageTable.mk ⟨r⟩).root.number
  have hrequestable : Requestable 0x100000 := by
    unfold Requestable
    decide
  cases answer with
  | ok _ => exact ⟨_, f, f', h, hone, hok, hanswer⟩
  | error cause =>
    have hrefused := (hanswer.cause cause).mp rfl
    cases cause with
    | unaligned => exact absurd rfl hrefused
    | outOfRange => exact absurd hrequestable hrefused.2
    | outOfMemory =>
      have hlt := hrefused.2.2
      rw [hmissing] at hlt
      omega

end

end PagedKernel
