import Mathlib.Tactic.IntervalCases
import PagedKernel.Audit
import PagedKernel.Proofs.Process.Spaces

/-!
# What the audit of a page table decides

The audit compares two listings in step and gives up at the first difference. Both are in the order
of the addresses and list each address once, so they agree just if the two spaces map every page
below the user region alike, the console's excepted (`checkTable_ok_iff`). This holds of any two
page tables whose tables below the user region are installed, whatever their entries are.

Key definitions: `Memory.Mirrors`.
Key theorems: `compareMappings_ok_iff`, `checkTable_ok_iff`, `checkTable_decides`.
-/

namespace PagedKernel

/-- The comparison passes just if nothing differs. -/
theorem compareMappings_ok_iff : ∀ ours theirs : List Mapping,
    compareMappings ours theirs = .ok () ↔ ours = theirs
  | [], [] => iff_of_true rfl rfl
  | [], (_, _) :: _ => iff_of_false nofun nofun
  | (_, _) :: _, [] => iff_of_false nofun nofun
  | (va, e) :: ours, (kernelVa, kernelEntry) :: theirs => by
    rw [compareMappings, List.cons.injEq, Prod.mk.injEq]
    by_cases hva : va = kernelVa
    · by_cases he : e = kernelEntry
      · rw [if_pos hva, if_pos he, compareMappings_ok_iff ours theirs]
        exact (and_iff_right ⟨hva, he⟩).symm
      · rw [if_pos hva, if_neg he]
        exact iff_of_false nofun fun h => he h.1.2
    · rw [if_neg hva]
      exact iff_of_false nofun fun h => hva h.1.1

variable {n : Nat} {m : Memory n}

/-- Below the user region the space with root `r` maps what the one with root `kr` does, but for the
console, which a user can write there; and nothing at the null page. -/
structure Memory.Mirrors (m : Memory n) (kr r : Nat) : Prop where
  same : ∀ v, v < userFirst → v ≠ consolePage → m.mapped r v = m.mapped kr v
  null : m.mapped r 0 = none
  console : ∃ e, m.mapped r consolePage = some e ∧ e.flags.userWritable = true

/-! ### Addresses below the user region -/

theorem VirtAddr.page_low {va : VirtAddr} (ha : va.isAligned = true) (hlt : va.toNat < procStart)
    (hne : va.toNat ≠ consoleAddr) : va.page < userFirst ∧ va.page ≠ consolePage := by
  have hmod : va.toNat % pageSize = 0 := eq_of_beq ha
  have hpage := va.page_eq_div (lt_trans hlt (by decide))
  rw [userFirst_eq, consolePage_eq, hpage]
  unfold procStart at hlt
  unfold consoleAddr at hne
  unfold pageSize at *
  omega

theorem VirtAddr.ofPage_low {v : Nat} (hv : v < userFirst) (hne : v ≠ consolePage) :
    (ofPage v).isAligned = true ∧ (ofPage v).toNat < procStart ∧ (ofPage v).toNat ≠ consoleAddr ∧
      (ofPage v).page = v := by
  rw [userFirst_eq] at hv
  rw [consolePage_eq] at hne
  refine ⟨isAligned_ofPage (by omega), ?_, ?_, page_ofPage (by omega)⟩ <;>
    rw [toNat_ofPage (by omega)]
  · unfold procStart pageSize
    omega
  · unfold consoleAddr pageSize
    omega

theorem VirtAddr.page_console : (VirtAddr.mk (UInt64.ofNat consoleAddr)).page = consolePage :=
  page_ofPage (v := consolePage) (by decide)

/-! ### The comparison -/

theorem mem_withoutConsole {r : Nat} {va : VirtAddr} {e : Entry} :
    (va, e) ∈ withoutConsole (m.listing r 0 procStart) ↔
      (va.isAligned = true ∧ va.toNat < procStart ∧ va.toNat ≠ consoleAddr) ∧
        m.mapped r va.page = some e := by
  unfold withoutConsole
  rw [List.mem_filter, Memory.mem_listing (by decide), decide_eq_true_eq]
  have hpos : 0 < va.toNat + pageSize := Nat.add_pos_right _ (by decide)
  tauto

theorem withoutConsole_sorted (m : Memory n) (r : Nat) :
    (withoutConsole (m.listing r 0 procStart)).Pairwise fun a b => a.1.toNat < b.1.toNat :=
  (Memory.listing_sorted (by decide)).filter _

/-- The listings agree, but for the console, just if the spaces do. -/
theorem withoutConsole_eq_iff (m : Memory n) (kr r : Nat) :
    withoutConsole (m.listing r 0 procStart) = withoutConsole (m.listing kr 0 procStart) ↔
      ∀ v, v < userFirst → v ≠ consolePage → m.mapped r v = m.mapped kr v := by
  constructor
  · intro heq v hv hne
    obtain ⟨ha, hlt, hca, hpage⟩ := VirtAddr.ofPage_low hv hne
    refine Option.ext fun e => ?_
    have hmem := congrArg ((VirtAddr.ofPage v, e) ∈ ·) heq
    simpa only [mem_withoutConsole, ha, hlt, hca, hpage, ne_eq, not_false_eq_true, and_self,
      true_and, eq_iff_iff] using hmem
  · intro hsame
    refine List.Pairwise.eq_of_mem_iff (r := fun a b => a.1.toNat < b.1.toNat)
      (withoutConsole_sorted m r) (withoutConsole_sorted m kr) fun ⟨va, e⟩ => ?_
    rw [mem_withoutConsole, mem_withoutConsole]
    refine and_congr_right fun hva => ?_
    obtain ⟨hlt, hne⟩ := VirtAddr.page_low hva.1 hva.2.1 hva.2.2
    rw [hsame _ hlt hne]

/-! ### The audit -/

theorem Flags.userWritable_iff {f : Flags} :
    f.userWritable = true ↔ f.present = true ∧ f.writable = true ∧ f.user = true := by
  unfold userWritable
  rw [Bool.and_eq_true, Bool.and_eq_true, and_assoc]

theorem userWritable_iff (found : Option Entry) :
    ((found.map Entry.flags).getD .empty).userWritable = true ↔
      ∃ e, found = some e ∧ e.flags.userWritable = true := by
  cases found with
  | none => exact iff_of_false nofun nofun
  | some e => simp

section
variable {kernel t : PageTable}

/-- **The audit passes just if the page table mirrors the kernel's.** -/
theorem checkTable_ok_iff (hk : kernel.ListingInside m 0 procStart)
    (ht : t.ListingInside m 0 procStart) :
    checkTable m kernel t = .ok () ↔ m.Mirrors kernel.pa.pageNumber t.pa.pageNumber := by
  have hnull : t.walk m ⟨0⟩ = .ok (m.mapped t.pa.pageNumber 0) :=
    ht.walk_eq (by decide) (by decide) (by decide) (by decide)
  have hconsole : t.walk m ⟨UInt64.ofNat consoleAddr⟩ =
      .ok (m.mapped t.pa.pageNumber consolePage) := by
    rw [← VirtAddr.page_console]
    exact ht.walk_eq (by decide) (by decide) (by decide) (by decide)
  have hlists := (compareMappings_ok_iff _ _).trans
    (withoutConsole_eq_iff m kernel.pa.pageNumber t.pa.pageNumber)
  unfold checkTable
  rw [ht.mappings_eq (by decide), hk.mappings_eq (by decide), hnull, hconsole]
  dsimp only [bind, Except.bind]
  cases hcompare : compareMappings (withoutConsole (m.listing t.pa.pageNumber 0 procStart))
      (withoutConsole (m.listing kernel.pa.pageNumber 0 procStart)) with
  | error cause =>
    rw [hcompare] at hlists
    exact iff_of_false nofun fun h => nomatch hlists.mpr h.same
  | ok _ =>
    have hsame := hlists.mp hcompare
    cases hm0 : m.mapped t.pa.pageNumber 0 with
    | some e => exact iff_of_false nofun fun h => nomatch hm0.symm.trans h.null
    | none =>
      have hwritable := userWritable_iff (m.mapped t.pa.pageNumber consolePage)
      cases hflags : (((m.mapped t.pa.pageNumber consolePage).map Entry.flags).getD
          .empty).userWritable with
      | false =>
        rw [hflags] at hwritable
        exact iff_of_false nofun fun h => nomatch hwritable.mpr h.console
      | true => exact iff_of_true rfl ⟨hsame, hm0, hwritable.mp hflags⟩

/-- **The audit decides mirroring.** It passes just if, below the user region and but for the
console, the kernel's walks of both page tables find nothing at an address or the same entry, and
the process has nothing at the null page and may write the console. -/
theorem checkTable_decides (hk : kernel.ListingInside m 0 procStart)
    (ht : t.ListingInside m 0 procStart) :
    checkTable m kernel t = .ok () ↔
      (∀ va : VirtAddr, va.isAligned = true → va.toNat < procStart → va.toNat ≠ consoleAddr →
        ∃ found, t.walk m va = .ok found ∧ kernel.walk m va = .ok found) ∧
      t.walk m ⟨0⟩ = .ok none ∧
      ∃ e, t.walk m ⟨UInt64.ofNat consoleAddr⟩ = .ok (some e) ∧
        e.flags.present = true ∧ e.flags.writable = true ∧ e.flags.user = true := by
  have hwalk : ∀ {t : PageTable}, t.ListingInside m 0 procStart → ∀ va : VirtAddr,
      va.isAligned = true → va.toNat < procStart →
        t.walk m va = .ok (m.mapped t.pa.pageNumber va.page) := fun ht _ ha hlt =>
    ht.walk_eq ha (lt_trans hlt (by decide)) hlt (Nat.add_pos_right _ (by decide))
  rw [checkTable_ok_iff hk ht, hwalk ht ⟨0⟩ (by decide) (by decide),
    hwalk ht ⟨UInt64.ofNat consoleAddr⟩ (by decide) (by decide), VirtAddr.page_console]
  constructor
  · intro h
    refine ⟨fun va ha hlt hne => ?_, congrArg Except.ok h.null, ?_⟩
    · obtain ⟨hv, hvne⟩ := VirtAddr.page_low ha hlt hne
      exact ⟨_, hwalk ht va ha hlt, (h.same _ hv hvne).symm ▸ hwalk hk va ha hlt⟩
    · obtain ⟨e, he, hw⟩ := h.console
      exact ⟨e, congrArg Except.ok he, Flags.userWritable_iff.mp hw⟩
  · intro h
    obtain ⟨hsame, hnull, e, he, hw⟩ := h
    refine ⟨fun v hv hne => ?_, Except.ok.inj hnull, e, Except.ok.inj he,
      Flags.userWritable_iff.mpr hw⟩
    obtain ⟨ha, hlt, hca, hpage⟩ := VirtAddr.ofPage_low hv hne
    obtain ⟨found, hours, htheirs⟩ := hsame _ ha hlt hca
    rw [hwalk ht _ ha hlt, hpage] at hours
    rw [hwalk hk _ ha hlt, hpage] at htheirs
    rw [Except.ok.inj hours, Except.ok.inj htheirs]

end

/-! ### A page table that maps the console -/

/-- A table of each level, and a leaf that maps the console for the user. -/
def Memory.consoleOnly : Memory 4 :=
  ((((Memory.zeroed 4).setSlot 0 0 (.link (pageAt 1) .table)).setSlot 1 0
    (.link (pageAt 2) .table)).setSlot 2 0 (.link (pageAt 3) .table)).setSlot 3 consolePage
      (.link (pageAt 0) Permission.userData.toFlags)

theorem Memory.inner_consoleOnly {q s : Nat} (hq : q < 3) (hs : s < 512) :
    consoleOnly.slot q s = if s = 0 then .link (pageAt (q + 1)) .table else .empty := by
  unfold consoleOnly
  rw [slot_setSlot (by decide) (by decide) hs, slot_setSlot (by decide) (by decide) hs,
    slot_setSlot (by decide) (by decide) hs, slot_setSlot (by decide) (by decide) hs,
    slot_zeroed hs]
  interval_cases q <;> simp

theorem Memory.leaf_consoleOnly {s : Nat} (hs : s < 512) :
    consoleOnly.slot 3 s =
      if s = consolePage then .link (pageAt 0) Permission.userData.toFlags else .empty := by
  unfold consoleOnly
  rw [slot_setSlot (by decide) (by decide) hs, slot_setSlot (by decide) (by decide) hs,
    slot_setSlot (by decide) (by decide) hs, slot_setSlot (by decide) (by decide) hs,
    slot_zeroed hs]
  simp

theorem Memory.consoleOnly_child {l q s c : Nat} (hq : q + (l + 1) = 3) (hs : s < 512)
    (hc : (consoleOnly.slot q s).page? = some c) : c + l = 3 := by
  rw [inner_consoleOnly (by omega) hs] at hc
  split at hc
  · rw [Entry.page?_link (by omega) rfl, Option.some.injEq] at hc
    omega
  · cases hc

theorem Memory.listingInside_consoleOnly (lo hi : Nat) :
    PageTable.ListingInside ⟨⟨0⟩⟩ consoleOnly lo hi :=
  ListingInside.of_closed (S := fun l q => q + l = 3) (fun _ _ h => by omega)
    (fun _ _ _ _ h hs hc => consoleOnly_child h hs hc) (by decide)

theorem Memory.mapped_consoleOnly {v : Nat} (hv : v < 512) :
    consoleOnly.mapped 0 v =
      if v = consolePage then some (.link (pageAt 0) Permission.userData.toFlags) else none := by
  have hunder : ∀ l q, q + l = 3 → consoleOnly.tableUnder v l q = some 3 := by
    intro l
    induction l with
    | zero =>
      rintro q rfl
      rfl
    | succ l ih =>
      intro q hq
      have hslot : v / 512 ^ (l + 1) % 512 = 0 := by
        rw [Nat.div_eq_of_lt (lt_of_lt_of_le hv (Nat.le_self_pow l.succ_ne_zero 512))]
      rw [tableUnder, hslot, inner_consoleOnly (by omega) (by decide), if_pos rfl,
        Entry.page?_link (by omega) rfl, Option.bind_some, ih _ (by omega)]
  rw [mapped, if_pos (by unfold pagesPerSpace; omega), hunder 3 0 rfl, Option.bind_some,
    Nat.mod_eq_of_lt hv, leaf_consoleOnly hv]
  split
  · rw [Entry.present_link (by decide)]
    rfl
  · rfl

theorem checkTable_decides_console : checkTable Memory.consoleOnly ⟨⟨0⟩⟩ ⟨⟨0⟩⟩ = .ok () := by
  have hinside := Memory.listingInside_consoleOnly 0 procStart
  have hwalk : ∀ va : VirtAddr, va.isAligned = true → va.toNat < procStart →
      PageTable.walk ⟨⟨0⟩⟩ Memory.consoleOnly va = .ok (Memory.consoleOnly.mapped 0 va.page) :=
    fun va ha hlt => hinside.walk_eq ha (lt_trans hlt (by decide)) hlt
      (Nat.add_pos_right _ (by decide))
  refine (checkTable_decides hinside hinside).mpr ⟨fun va ha hlt _ => ?_, ?_, ?_⟩
  · exact ⟨_, hwalk va ha hlt, hwalk va ha hlt⟩
  · rw [hwalk _ (by decide) (by decide), Memory.mapped_consoleOnly (by decide), if_neg (by decide)]
  · refine ⟨.link (pageAt 0) Permission.userData.toFlags, ?_, ?_⟩
    · rw [hwalk _ (by decide) (by decide), VirtAddr.page_console,
        Memory.mapped_consoleOnly (by decide), if_pos rfl]
    · rw [Entry.flags_link (by decide)]
      exact ⟨rfl, rfl, rfl⟩

end PagedKernel
