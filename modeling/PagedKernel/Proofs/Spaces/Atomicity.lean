import Mathlib.Data.Finset.Card
import PagedKernel.Proofs.Spaces.FiniteMaps

/-!
# Mapping is all or nothing

To map a page takes as many free pages as there are tables missing on the way of the address. With
fewer, or at an address where nothing is mapped, the operation fails, and then all that has changed
for anybody who refers to a page is that the handle to the page that was to be mapped is given back.
If it succeeds, it has added just the tables that were missing. Where the leaves point to does not
matter.

Key definitions: `Memory.tablesMissing`, `PageTable.Undone`, `PageTable.Extended`.
Key theorem: `Frames.Separate.install_atomic`.
-/

namespace PagedKernel

variable {n : Nat} {f f' : Frames n} {g g' : Shape} {tables : Set PageTable} {t : PageTable}
  {va : VirtAddr}

open Classical in
/-- How many of the tables below the root are missing on the way of `va`. -/
noncomputable def Memory.tablesMissing (m : Memory n) (tables : Set PageTable) (t : PageTable)
    (va : VirtAddr) : Nat :=
  ((Finset.range (levels - 1)).filter fun l =>
    ¬ ∃ q, m.TableAt tables q ⟨t.root.number, l, va.page / 512 ^ (l + 1)⟩).card

theorem PlantedAt.tablesMissing_eq (h : PlantedAt tables g f) (ht : t ∈ tables) (va : VirtAddr) :
    f.memory.tablesMissing tables t va = (f.memory.reach va.page 3 t.root.number).2 := by
  have hle := Shape.Trees.reach_le f.memory va.page 3 t.root.number
  have hlevels : ∀ l < 3, (¬ ∃ q, f.memory.TableAt tables q
      ⟨t.root.number, l, va.page / 512 ^ (l + 1)⟩) ↔
      l < (f.memory.reach va.page 3 t.root.number).2 := fun l hl => by
    simp only [h.tableAt_iff]
    rw [← h.trees.reach_le_iff (h.isRoot.mpr ht) va.page_lt hl.le, Nat.not_le]
  unfold Memory.tablesMissing
  rw [← Finset.card_range (f.memory.reach va.page 3 t.root.number).2]
  apply congrArg Finset.card
  ext l
  simp only [Finset.mem_filter, Finset.mem_range]
  constructor
  · rintro ⟨hl, hnone⟩
    exact (hlevels l hl).mp hnone
  · intro hl
    have hl3 : l < 3 := lt_of_lt_of_le hl hle
    exact ⟨hl3, (hlevels l hl3).mpr hl⟩

namespace PageTable

/-- From `f` to `f'` the handle to `page` was given back. The other counts, the tables, what walks
find, and the bytes of the pages that were in use are the same. -/
structure Undone (tables : Set PageTable) (page : FrameRef) (f f' : Frames n) : Prop where
  count : ∀ q, f'.count q + (if q = page.number then 1 else 0) = f.count q
  tableAt : f'.memory.TableAt tables = f.memory.TableAt tables
  walk : ∀ t ∈ tables, ∀ va, t.walk f'.memory va = t.walk f.memory va
  byte : ∀ a, f.count (a / pageSize) ≠ 0 → f'.memory.byte a = f.memory.byte a

/-- From `f` to `f'` just `k` tables were added. Each is in a page that was free and has one
reference now; no other count has changed. -/
def Extended (tables : Set PageTable) (k : Nat) (f f' : Frames n) : Prop :=
  ∃ fresh : List Nat, fresh.Nodup ∧ fresh.length = k ∧
    (∀ q, f'.memory.HoldsTable tables q ↔ f.memory.HoldsTable tables q ∨ q ∈ fresh) ∧
    (∀ q ∈ fresh, f.isFree q = true ∧ ¬ f.memory.HoldsTable tables q ∧ f'.count q = 1) ∧
    ∀ q, q ∉ fresh → f'.count q = f.count q

/-- What mapping `page` at `va` comes to. -/
structure Installs (tables : Set PageTable) (t : PageTable) (va : VirtAddr) (page : FrameRef)
    (f : Frames n) (answer : Answer) (f' : Frames n) : Prop where
  unaligned : answer = .error .unaligned ↔ va.isAligned = false
  invalidAddress : answer = .error .invalidAddress ↔ va.isAligned = true ∧ va.val = 0
  outOfMemory : answer = .error .outOfMemory ↔
    va.isAligned = true ∧ va.val ≠ 0 ∧ f.freePages < f.memory.tablesMissing tables t va
  others : answer ≠ .error .notExist ∧ answer ≠ .error .duplicated
  separate : f'.Separate tables
  error : ∀ cause, answer = .error cause → Undone tables page f f'
  ok : ∀ old, answer = .ok old → Extended tables (f.memory.tablesMissing tables t va) f f'

theorem Installs.exists_ok {page : FrameRef} {answer : Answer}
    (h : Installs tables t va page f answer f') (ha : va.isAligned = true) (hva : va.val ≠ 0)
    (hfree : f.memory.tablesMissing tables t va ≤ f.freePages) : ∃ old, answer = .ok old := by
  cases answer with
  | ok old => exact ⟨old, rfl⟩
  | error cause =>
    exfalso
    cases cause with
    | unaligned => exact Bool.eq_false_iff.mp (h.unaligned.mp rfl) ha
    | invalidAddress => exact hva (h.invalidAddress.mp rfl).2
    | outOfMemory => exact Nat.not_lt.mpr hfree (h.outOfMemory.mp rfl).2.2
    | notExist => exact h.others.1 rfl
    | duplicated => exact h.others.2 rfl

end PageTable

namespace PlantedAt
open PageTable

variable [Addressable n] {page : FrameRef}

theorem undone (h : PlantedAt tables g f) (hpage : g page.number = none)
    (hb : GivenBack page.number f f') : Undone tables page f f' := by
  have h' := h.replanted ((h.givenBack hpage hb).replanted h.toPlanted)
  refine ⟨hb.count, ?_, fun t' ht' va' => ?_, hb.byte⟩
  · funext q p
    rw [h'.tableAt_iff, h.tableAt_iff]
  · have hr : g.IsRoot t'.root.number := h.isRoot.mpr ht'
    rw [h'.trees.walk_eq t' va' hr, h.trees.walk_eq t' va' hr,
      ((h.givenBack hpage hb).replanted h.toPlanted).mapped hr]

omit [Addressable n] in
theorem extended {fresh : List Nat} (h : PlantedAt tables g f) (h' : PlantedAt tables g' f')
    (he : Enlarged fresh g f g' f') : Extended tables fresh.length f f' := by
  refine ⟨fresh, he.nodup, rfl, fun q => ?_, fun q hq => ?_, fun q hq => ?_⟩
  · rw [h'.holdsTable, h.holdsTable]
    exact he.table q
  · have hfree := he.free q hq
    have hzero := ((f.isFree_iff q).mp hfree).2.2
    refine ⟨hfree, ?_, ?_⟩
    · rw [h.holdsTable]
      exact not_not.mpr (h.of_count_zero hzero)
    · rw [he.count, hzero, List.count_eq_one_of_mem he.nodup hq]
  · rw [he.count, List.count_eq_zero.mpr hq]
    rfl

end PlantedAt

section
open PageTable

variable [Addressable n]

/-- **Mapping a page is all or nothing.** It does not halt; it fails for the first of the three
causes that there is, and then no table has changed and the handle to the page is given back;
otherwise just the missing tables have been added. A page table and its cursor do the same. -/
theorem Frames.Separate.install_atomic (h : f.Separate tables) (ht : t ∈ tables) (va : VirtAddr)
    {page : FrameRef} (h0 : f.count page.number ≠ 0)
    (hpage : ¬ f.memory.HoldsTable tables page.number) (perm : Permission) :
    t.replace va page perm f = (t.cursor va).install page perm f ∧
      ∃ answer f', (t.cursor va).install page perm f = .ok answer f' ∧
        Installs tables t va page f answer f' := by
  refine ⟨rfl, ?_⟩
  have hp := h.planted
  generalize f.memory.shape tables = g at hp
  have hr : g.IsRoot t.root.number := hp.isRoot.mpr ht
  have hnone : g page.number = none := by
    rw [hp.holdsTable] at hpage
    exact not_not.mp hpage
  have hmissing := hp.tablesMissing_eq ht va
  have hinstall : Ends (install (pageAt t.root.number) va page perm) f _ fun _ => False :=
    install_planted va hp.toPlanted hr h0
  refine (hinstall.imp ?_).ok
  intro answer f' h'
  cases answer with
  | ok old =>
    obtain ⟨⟨g', fresh, hmap, henlarged, hlen⟩, -, ha, hva⟩ := h'
    have hp' := hp.replanted hmap
    refine ⟨iff_of_false nofun ?_, iff_of_false nofun fun hc => hva hc.2,
      iff_of_false nofun fun hc => ?_, ⟨nofun, nofun⟩, hp'.separate, nofun, fun _ _ => ?_⟩
    · rw [ha]
      decide
    · rw [hmissing, ← hlen] at hc
      exact absurd henlarged.length_le (Nat.not_le.mpr hc.2.2)
    · rw [hmissing, ← hlen]
      exact hp.extended hp' henlarged
  | error cause =>
    obtain ⟨hgiven, hrefused⟩ := h'
    have hsep := (hp.replanted ((hp.givenBack hnone hgiven).replanted hp.toPlanted)).separate
    have hundone : ∀ c, (Except.error cause : Answer) = .error c → Undone tables page f f' :=
      fun _ _ => hp.undone hnone hgiven
    cases cause with
    | unaligned =>
      have ha : va.isAligned ≠ true := by
        rw [show va.isAligned = false from hrefused]
        decide
      exact ⟨iff_of_true rfl hrefused, iff_of_false nofun fun hc => ha hc.1,
        iff_of_false nofun fun hc => ha hc.1, ⟨nofun, nofun⟩, hsep, hundone, nofun⟩
    | invalidAddress =>
      obtain ⟨ha, hva⟩ := hrefused
      exact ⟨iff_of_false nofun (ha ▸ Bool.noConfusion), iff_of_true rfl ⟨ha, hva⟩,
        iff_of_false nofun fun hc => hc.2.1 hva, ⟨nofun, nofun⟩, hsep, hundone, nofun⟩
    | outOfMemory =>
      obtain ⟨ha, hva, hlt⟩ := hrefused
      exact ⟨iff_of_false nofun (ha ▸ Bool.noConfusion), iff_of_false nofun fun hc => hva hc.2,
        iff_of_true rfl ⟨ha, hva, hmissing.symm ▸ hlt⟩, ⟨nofun, nofun⟩, hsep, hundone, nofun⟩
    | notExist => exact hrefused.elim
    | duplicated => exact hrefused.elim

end

/-- Pages can be handed out until there are as few free ones as one likes. -/
theorem Frames.exists_freePages_eq {k : Nat} (hk : k ≤ f.freePages) :
    ∃ f', f'.freePages = k ∧ SamePages (f.count · ≠ 0) f f' := by
  induction hm : f.freePages - k generalizing f with
  | zero => exact ⟨f, by omega, .refl _ f⟩
  | succ m ih =>
    obtain ⟨found, f₁, -, h₁⟩ := (Ends.allocFilled (v := 0) (f := f) (E := fun _ => False)).ok
    cases found with
    | none => exact absurd h₁.2 (by omega)
    | some ref =>
      have h₁ : Frames.HandedOut f ref.number f₁ := HandedOutFull.toHandedOut h₁
      have hfree := h₁.freePages
      obtain ⟨f', hk', hsame⟩ := ih (f := f₁) (by omega) (by omega)
      refine ⟨f', hk', fun q hq => ?_, fun a ha => ?_⟩
      · have hq₁ := h₁.count_in_use hq
        rw [hsame.count q (hq₁ ▸ hq), hq₁]
      · rw [hsame.byte a (h₁.count_in_use ha ▸ ha), h₁.byte_in_use a ha]

namespace PageTable.NewTable

variable {page : FrameRef} {f : Frames physicalPages}

theorem exists_freePages_eq (h : NewTable t page f) {k : Nat} (hk : k ≤ f.freePages) :
    ∃ f' : Frames physicalPages, NewTable t page f' ∧ f'.freePages = k := by
  obtain ⟨f', hk', hsame⟩ := Frames.exists_freePages_eq hk
  have htable : ∀ {q}, f.memory.HoldsTable {t} q → f.count q ≠ 0 := by
    rintro q ⟨p, hp⟩
    rw [h.separate.count hp]
    exact one_ne_zero
  refine ⟨f', h.samePages ⟨fun q hq => hsame.count q (htable hq), fun a ha =>
    hsame.byte a (htable ha)⟩ ?_, hk'⟩
  rw [hsame.count _ h.in_use]
  exact h.in_use

theorem tablesMissing_eq (h : NewTable t page f) (va : VirtAddr) :
    f.memory.tablesMissing {t} t va = levels - 1 := by
  classical
  refine (Finset.card_filter_eq_iff.mpr fun l hl => ?_).trans (Finset.card_range _)
  rintro ⟨q, hq⟩
  obtain rfl : l = 3 := h.root hq
  exact absurd (Finset.mem_range.mp hl) (by decide)

end PageTable.NewTable

open PageTable in
/-- To map a page in a new page table takes three tables. Where only two pages are free it fails,
and these are given back. -/
theorem install_atomic_three_tables :
    ∃ (t : PageTable) (f f₁ f' f₁' : Frames physicalPages) (page : FrameRef)
      (old : Option FrameRef) (va : VirtAddr),
    (f.Separate {t} ∧ f.count page.number ≠ 0 ∧ ¬ f.memory.HoldsTable {t} page.number ∧
      f.freePages = 3 ∧ (t.cursor va).install page .userData f = .ok (.ok old) f' ∧
      Extended {t} 3 f f') ∧
    (f₁.Separate {t} ∧ f₁.count page.number ≠ 0 ∧ ¬ f₁.memory.HoldsTable {t} page.number ∧
      f₁.freePages = 2 ∧ (t.cursor va).install page .userData f₁ = .ok (.error .outOfMemory) f₁' ∧
      Undone {t} page f₁ f₁') := by
  obtain ⟨t, f₀, page, hnew₀, hfree₀⟩ := exists_newTable
  have ha : (VirtAddr.ofPage 1).isAligned = true := by decide
  have hva : (VirtAddr.ofPage 1).val ≠ 0 := by decide
  -- three pages are enough
  obtain ⟨f, hnew, hfree⟩ := hnew₀.exists_freePages_eq (k := 3) hfree₀
  obtain ⟨-, answer, f', hinstall, hinstalls⟩ :=
    hnew.separate.install_atomic rfl (VirtAddr.ofPage 1) hnew.in_use hnew.not_table .userData
  obtain ⟨old, rfl⟩ := hinstalls.exists_ok ha hva (hnew.tablesMissing_eq _ ▸ hfree.ge)
  -- two pages are not
  obtain ⟨f₁, hnew₁, hfree₁⟩ := hnew₀.exists_freePages_eq (k := 2) (le_trans (by decide) hfree₀)
  obtain ⟨-, answer₁, f₁', hinstall₁, hinstalls₁⟩ :=
    hnew₁.separate.install_atomic rfl (VirtAddr.ofPage 1) hnew₁.in_use hnew₁.not_table .userData
  have hlack : answer₁ = .error .outOfMemory := by
    rw [hinstalls₁.outOfMemory, hnew₁.tablesMissing_eq, hfree₁]
    exact ⟨ha, hva, by decide⟩
  have hmissing := hinstalls.ok old rfl
  rw [hnew.tablesMissing_eq] at hmissing
  exact ⟨t, f, f₁, f', f₁', page, old, VirtAddr.ofPage 1,
    ⟨hnew.separate, hnew.in_use, hnew.not_table, hfree, hinstall, hmissing⟩,
    hnew₁.separate, hnew₁.in_use, hnew₁.not_table, hfree₁, hlack ▸ hinstall₁,
    hinstalls₁.error _ hlack⟩

end PagedKernel
