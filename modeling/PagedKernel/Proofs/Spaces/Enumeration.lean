import Mathlib.Data.List.Sort
import Mathlib.Tactic.Ring
import PagedKernel.AddressSpace.Listing
import PagedKernel.Proofs.Spaces.Ways

/-!
# The listing of a range of addresses

`Memory.leavesBelow` lists the leaves below a table with their page numbers, in the order of these
and each once, and `Memory.mem_leavesBelow` says which they are: those that a walk of their page
number ends at. The kernel's listing passes over the slots that do not meet its range; it lists the
leaves of the pages that do (`Memory.leaves_eq`). As with a single walk, all that is asked of the
tables is that those which are read are installed.

Key definitions: `Memory.leavesBelow`, `Memory.tablesListed`, `Memory.ListingInside`, `pageMeets`.
Key theorems: `Memory.mem_leavesBelow`, `Memory.leavesBelow_sorted`, `Memory.leaves_eq`,
`PageTable.mappings_exact`.
-/

namespace PagedKernel

variable {n : Nat} {m : Memory n}

/-- The leaves below the `i`-th table of level `l` of its space, in page `q`, with their page
numbers. -/
def Memory.leavesBelow (m : Memory n) : Nat → Nat → Nat → List (Nat × Entry)
  | 0, q, i => tableSlots.filterMap fun s =>
    if (m.slot q s).present then some (512 * i + s, m.slot q s) else none
  | l + 1, q, i => tableSlots.flatMap fun s =>
    match (m.slot q s).page? with
    | some c => m.leavesBelow l c (512 * i + s)
    | none => []

theorem mem_tableSlots {s : Nat} : s ∈ tableSlots ↔ s < 512 :=
  List.mem_range

/-! ### The leaves -/

/-- The page numbers of the leaves below a table are those of its range. -/
theorem Memory.leavesBelow_index {v : Nat} {e : Entry} {l : Nat} : ∀ {q i : Nat},
    (v, e) ∈ m.leavesBelow l q i → v / 512 ^ (l + 1) = i := by
  induction l with
  | zero =>
    intro q i h
    rw [leavesBelow, List.mem_filterMap] at h
    obtain ⟨s, hs, h⟩ := h
    have hs := mem_tableSlots.mp hs
    rw [Nat.zero_add, Nat.pow_one]
    split at h
    · have hv := congrArg Prod.fst (Option.some.inj h)
      dsimp only at hv
      omega
    · cases h
  | succ l ih =>
    intro q i h
    rw [leavesBelow, List.mem_flatMap] at h
    obtain ⟨s, hs, h⟩ := h
    have hs := mem_tableSlots.mp hs
    split at h
    · rw [Nat.pow_succ, ← Nat.div_div_eq_div_mul, ih h]
      omega
    · cases h

/-- The leaves are listed in the order of their page numbers, each once. -/
theorem Memory.leavesBelow_sorted (m : Memory n) : ∀ l q i : Nat,
    (m.leavesBelow l q i).Pairwise fun a b => a.1 < b.1
  | 0, q, i => by
    rw [leavesBelow]
    refine List.Pairwise.filterMap _ ?_ List.pairwise_lt_range
    intro s1 s2 hs p1 hp1 p2 hp2
    split at hp1
    · split at hp2
      · cases hp1
        cases hp2
        exact Nat.add_lt_add_left hs _
      · cases hp2
    · cases hp1
  | l + 1, q, i => by
    rw [leavesBelow]
    refine List.pairwise_flatMap.mpr ⟨fun s _ => ?_, ?_⟩
    · split
      · exact leavesBelow_sorted m l _ _
      · exact List.Pairwise.nil
    · refine List.pairwise_lt_range.imp fun {s1 s2} hs p1 hp1 p2 hp2 => ?_
      split at hp1
      · split at hp2
        · have h1 := leavesBelow_index hp1
          have h2 := leavesBelow_index hp2
          refine Nat.lt_of_not_le fun hle => ?_
          have := Nat.div_le_div_right (c := 512 ^ (l + 1)) hle
          omega
        · cases hp2
      · cases hp1

/-- **The leaves below a table are those that the walks of its page numbers end at.** -/
theorem Memory.mem_leavesBelow {v : Nat} {e : Entry} : ∀ {l q i : Nat},
    (v, e) ∈ m.leavesBelow l q i ↔
      v / 512 ^ (l + 1) = i ∧
        ∃ q0, m.tableUnder v l q = some q0 ∧ m.slot q0 (v % 512) = e ∧ e.present = true
  | 0, q, i => by
    rw [leavesBelow, List.mem_filterMap, Nat.zero_add, Nat.pow_one]
    constructor
    · intro hx
      obtain ⟨s, hs, he⟩ := hx
      have hs := mem_tableSlots.mp hs
      split at he
      · next hp =>
        cases he
        have hmod : (512 * i + s) % 512 = s := by omega
        exact ⟨by omega, q, rfl, by rw [hmod], hp⟩
      · cases he
    · intro hx
      obtain ⟨rfl, q0, hq0, rfl, hp⟩ := hx
      obtain rfl := Option.some.inj hq0
      refine ⟨v % 512, mem_tableSlots.mpr (mod_slots_lt v), ?_⟩
      rw [if_pos hp, Nat.div_add_mod]
  | l + 1, q, i => by
    rw [leavesBelow, List.mem_flatMap]
    constructor
    · intro hx
      obtain ⟨s, hs, he⟩ := hx
      have hs := mem_tableSlots.mp hs
      split at he
      · next c hc =>
        obtain ⟨hv, q0, hq0, he⟩ := mem_leavesBelow.mp he
        have hslot : v / 512 ^ (l + 1) % 512 = s := by omega
        refine ⟨?_, q0, ?_, he⟩
        · rw [Nat.pow_succ, ← Nat.div_div_eq_div_mul, hv]
          omega
        · rw [tableUnder, hslot, hc]
          exact hq0
      · cases he
    · intro hx
      obtain ⟨rfl, q0, hq0, he⟩ := hx
      obtain ⟨c, hc, hq0⟩ := Option.bind_eq_some_iff.mp hq0
      refine ⟨v / 512 ^ (l + 1) % 512, mem_tableSlots.mpr (mod_slots_lt _), ?_⟩
      rw [hc]
      exact mem_leavesBelow.mpr ⟨(slot_step v (l + 1)).symm, q0, hq0, he⟩

/-- The leaves below a root are what its space maps. -/
theorem Memory.mem_leavesBelow_root {r v : Nat} {e : Entry} :
    (v, e) ∈ m.leavesBelow 3 r 0 ↔ m.mapped r v = some e := by
  rw [mem_leavesBelow, mapped, pagesPerSpace, Nat.div_eq_zero_iff_lt (by decide)]
  constructor
  · intro hx
    obtain ⟨hv, q0, hq0, rfl, hp⟩ := hx
    rw [if_pos hv, hq0, Option.bind_some, if_pos hp]
  · intro hm
    split at hm
    · next hv =>
      obtain ⟨q0, hq0, hm⟩ := Option.bind_eq_some_iff.mp hm
      split at hm
      · next hp =>
        obtain rfl := Option.some.inj hm
        exact ⟨hv, q0, hq0, rfl, hp⟩
      · cases hm
    · cases hm

/-! ### The pages of a range -/

/-- The address of page number `v` of an address space. -/
def VirtAddr.ofPage (v : Nat) : VirtAddr :=
  ⟨UInt64.ofNat (v * pageSize)⟩

theorem VirtAddr.toNat_ofPage {v : Nat} (h : v < 2 ^ 52) : (ofPage v).toNat = v * pageSize := by
  unfold ofPage toNat
  rw [UInt64.toNat_ofNat']
  unfold pageSize
  omega

theorem VirtAddr.page_ofPage {v : Nat} (h : v < 2 ^ 36) : (ofPage v).page = v := by
  unfold page pagesPerSpace
  rw [toNat_ofPage (by omega), Nat.mul_div_cancel _ (by decide)]
  exact Nat.mod_eq_of_lt (by omega)

theorem VirtAddr.isAligned_ofPage {v : Nat} (h : v < 2 ^ 52) : (ofPage v).isAligned = true := by
  unfold isAligned
  rw [toNat_ofPage h, Nat.mul_mod_left]
  rfl

/-- Page number `v` meets the addresses from `lo` to before `hi`. -/
def pageMeets (lo hi v : Nat) : Bool :=
  v * pageSize < hi && lo < v * pageSize + pageSize

/-- The pages that meet the first `k` pages of a space are these pages. -/
theorem pageMeets_first {k v : Nat} : pageMeets 0 (k * pageSize) v = true ↔ v < k := by
  unfold pageMeets pageSize
  simp only [Bool.and_eq_true, decide_eq_true_eq]
  omega

def mappingOf (p : Nat × Entry) : Mapping :=
  (VirtAddr.ofPage p.1, p.2)

theorem mappingAt_eq {v : Nat} {e : Entry} (h : v * pageSize < 2 ^ 47) :
    mappingAt (v * pageSize) e = [mappingOf (v, e)] := by
  have hv : (UInt64.ofNat (v * pageSize)).toNat = v * pageSize := by
    rw [UInt64.toNat_ofNat']
    omega
  unfold mappingAt VirtAddr.ofWord?
  rw [hv, if_pos (.inl h)]
  rfl

/-- The slots that meet a range are those of the table that do, in order. -/
theorem slotsMeeting_eq_filter (level base lo hi : Nat) :
    slotsMeeting level base lo hi = tableSlots.filter fun s =>
      base + s * slotSpan level < hi && lo < base + s * slotSpan level + slotSpan level := by
  refine List.Pairwise.eq_of_mem_iff (r := (· < ·)) ?_ (List.pairwise_lt_range.filter _) fun s => ?_
  · exact List.pairwise_lt_range'
  · rw [mem_slotsMeeting, List.mem_filter, Bool.and_eq_true, decide_eq_true_eq, decide_eq_true_eq,
      mem_tableSlots]
    rfl

theorem List.flatMapM_ok {α β : Type} {f : α → Except Halt (List β)} {k : α → List β} :
    ∀ {l : List α}, (∀ a ∈ l, f a = .ok (k a)) → l.flatMapM f = .ok (l.flatMap k)
  | [], _ => rfl
  | a :: l, h => by
    rw [List.flatMapM_cons, h a List.mem_cons_self,
      List.flatMapM_ok fun b hb => h b (List.mem_cons_of_mem _ hb)]
    rfl

theorem flatMap_filter {α β : Type} (p : α → Bool) (k : α → List β) : ∀ l : List α,
    (l.filter p).flatMap k = l.flatMap fun a => if p a then k a else []
  | [] => rfl
  | a :: l => by
    have ih := flatMap_filter p k l
    rw [List.flatMap_cons, ← ih]
    cases hp : p a with
    | true => rw [List.filter_cons_of_pos hp, List.flatMap_cons, if_pos rfl]
    | false => rw [List.filter_cons_of_neg (by simp [hp]), if_neg (by simp), List.nil_append]

theorem slotSpan_eq (l : Nat) : slotSpan l = 512 ^ l * pageSize := by
  rw [slotSpan, Nat.shiftLeft_eq, Nat.pow_mul, Nat.mul_comm]

/-- The slot `s` of the table with number `i` among its level is number `512 * i + s`. -/
theorem slotSpan_slot (l i s : Nat) :
    i * slotSpan (l + 1) + s * slotSpan l = (512 * i + s) * slotSpan l := by
  rw [slotSpan_eq, slotSpan_eq]
  ring

/-- A page that meets a range lies in a slot that does. -/
theorem slot_meets {v l j lo hi : Nat} (hv : v / 512 ^ l = j) (h : pageMeets lo hi v = true) :
    (decide (j * slotSpan l < hi) && decide (lo < j * slotSpan l + slotSpan l)) = true := by
  unfold pageMeets at h
  simp only [Bool.and_eq_true, decide_eq_true_eq] at h ⊢
  rw [slotSpan_eq, ← Nat.mul_assoc]
  have hle : j * 512 ^ l ≤ v := hv ▸ Nat.div_mul_le_self v _
  have hlt : v < j * 512 ^ l + 512 ^ l := by
    rw [← hv]
    exact Nat.lt_div_mul_add (Nat.pow_pos (by decide))
  have hfirst := Nat.mul_le_mul_right pageSize hle
  have hlast := Nat.mul_le_mul_right pageSize (Nat.succ_le_of_lt hlt)
  rw [Nat.succ_mul, Nat.add_mul] at hlast
  exact ⟨lt_of_le_of_lt hfirst h.1, lt_of_lt_of_le h.2 hlast⟩

theorem slot_mem_slotsMeeting {v l i lo hi : Nat} (hv : v / 512 ^ (l + 1) = i)
    (h : pageMeets lo hi v = true) :
    v / 512 ^ l % 512 ∈ slotsMeeting l (i * slotSpan (l + 1)) lo hi := by
  rw [slotsMeeting_eq_filter, List.mem_filter, slotSpan_slot, ← hv, slot_step]
  exact ⟨mem_tableSlots.mpr (mod_slots_lt _), slot_meets rfl h⟩

/-! ### The tables that are read -/

namespace Memory

/-- The tables that the listing of a range goes through, from the `i`-th table of level `l` of its
space, in page `q`, down: each once for every entry of it that is read. -/
def tablesListed (m : Memory n) (lo hi : Nat) : Nat → Nat → Nat → List Nat
  | 0, q, i => (slotsMeeting 0 (i * slotSpan 1) lo hi).map fun _ => q
  | l + 1, q, i => (slotsMeeting (l + 1) (i * slotSpan (l + 2)) lo hi).flatMap fun s =>
    q :: match (m.slot q s).page? with
      | some c => m.tablesListed lo hi l c (512 * i + s)
      | none => []

/-- All tables that the listing of a range goes through are installed. -/
def ListingInside (m : Memory n) (lo hi l q i : Nat) : Prop :=
  ∀ c ∈ m.tablesListed lo hi l q i, c < n

namespace ListingInside

variable {lo hi l q i s : Nat}

theorem lt (h : m.ListingInside lo hi l q i)
    (hs : s ∈ slotsMeeting l (i * slotSpan (l + 1)) lo hi) : q < n := by
  cases l with
  | zero => exact h q (List.mem_map.mpr ⟨s, hs, rfl⟩)
  | succ l => exact h q (List.mem_flatMap.mpr ⟨s, hs, List.mem_cons_self⟩)

theorem child {c : Nat} (h : m.ListingInside lo hi (l + 1) q i)
    (hs : s ∈ slotsMeeting (l + 1) (i * slotSpan (l + 2)) lo hi)
    (hc : (m.slot q s).page? = some c) : m.ListingInside lo hi l c (512 * i + s) := by
  intro c' hc'
  refine h c' (List.mem_flatMap.mpr ⟨s, hs, List.mem_cons_of_mem _ ?_⟩)
  rw [hc]
  exact hc'

/-- No listing leaves a set of installed tables whose entries point to tables of the set. -/
theorem of_closed {S : Nat → Nat → Prop} (hin : ∀ l q, S l q → q < n)
    (hS : ∀ l q s c, S (l + 1) q → s < 512 → (m.slot q s).page? = some c → S l c) (hq : S l q) :
    m.ListingInside lo hi l q i := by
  induction l generalizing q i with
  | zero =>
    intro c hc
    obtain ⟨_, -, rfl⟩ := List.mem_map.mp hc
    exact hin _ _ hq
  | succ l ih =>
    intro c hc
    obtain ⟨s, hs, hc⟩ := List.mem_flatMap.mp hc
    rcases List.mem_cons.mp hc with rfl | hc
    · exact hin _ _ hq
    · split at hc
      · next d hd => exact ih (hS l _ s d hq (mem_slotsMeeting.mp hs).1 hd) c hc
      · cases hc

/-- The way of a page that meets the range is gone through. -/
theorem wayInside {v : Nat} (h : m.ListingInside lo hi l q i) (hv : v / 512 ^ (l + 1) = i)
    (hmeets : pageMeets lo hi v = true) : m.WayInside v l q := by
  induction l generalizing q i with
  | zero =>
    intro p hp
    obtain rfl := List.mem_singleton.mp hp
    exact h.lt (slot_mem_slotsMeeting hv hmeets)
  | succ l ih =>
    intro p hp
    have hslot := slot_mem_slotsMeeting hv hmeets
    cases hs : (m.slot q (v / 512 ^ (l + 1) % 512)).page? with
    | none =>
      rw [way_of_missing hs] at hp
      obtain rfl := List.mem_singleton.mp hp
      exact h.lt hslot
    | some c =>
      rw [way_of_child hs] at hp
      rcases List.mem_cons.mp hp with rfl | hp
      · exact h.lt hslot
      · exact ih (h.child hslot hs) (by rw [← hv, slot_step]) p hp

end ListingInside

end Memory

/-- The listing of a range: the leaves of the pages that meet it. -/
theorem Memory.leaves_eq {lo hi : Nat} (hhi : hi ≤ 2 ^ 47) {l : Nat} :
    ∀ {q i : Nat}, q < 2 ^ 52 → m.ListingInside lo hi l q i →
      m.leaves lo hi l (pageAt q) (i * slotSpan (l + 1)) =
        .ok (((m.leavesBelow l q i).filter fun p => pageMeets lo hi p.1).map mappingOf) := by
  induction l with
  | zero =>
    intro q i hq h
    rw [Memory.leaves, List.flatMapM_ok (k := fun s => if (m.slot q s).present then
      mappingAt (i * slotSpan (0 + 1) + s * slotSpan 0) (m.slot q s) else [])]
    · rw [slotsMeeting_eq_filter, flatMap_filter, Memory.leavesBelow,
        List.filterMap_eq_flatMap_toList, List.filter_flatMap, List.map_flatMap]
      refine congrArg Except.ok (List.flatMap_congr fun s _ => ?_)
      have hspan : slotSpan 0 = pageSize := by rw [slotSpan_eq, Nat.pow_zero, Nat.one_mul]
      rw [slotSpan_slot, hspan]
      show (if pageMeets lo hi (512 * i + s) then _ else _) = _
      by_cases hmeets : pageMeets lo hi (512 * i + s) = true
      · have hlt : (512 * i + s) * pageSize < 2 ^ 47 := by
          have := (Bool.and_eq_true _ _ ▸ hmeets).1
          exact lt_of_lt_of_le (of_decide_eq_true this) hhi
        rw [if_pos hmeets, mappingAt_eq hlt]
        cases (m.slot q s).present <;> simp [hmeets]
      · rw [if_neg hmeets]
        cases (m.slot q s).present <;> simp [hmeets]
    · intro s hs
      rw [m.readEntry_of_lt hq (h.lt hs) (mem_slotsMeeting.mp hs).1]
      rfl
  | succ l ih =>
    intro q i hq h
    rw [Memory.leaves, List.flatMapM_ok (k := fun s => (m.slot q s).page?.elim [] fun c =>
      ((m.leavesBelow l c (512 * i + s)).filter fun p => pageMeets lo hi p.1).map mappingOf)]
    · rw [slotsMeeting_eq_filter, flatMap_filter, Memory.leavesBelow, List.filter_flatMap,
        List.map_flatMap]
      refine congrArg Except.ok (List.flatMap_congr fun s _ => ?_)
      rw [slotSpan_slot]
      cases (m.slot q s).page? with
      | none => simp
      | some c =>
        dsimp only
        split
        · rfl
        · next hmeets =>
          symm
          rw [List.map_eq_nil_iff, List.filter_eq_nil_iff]
          rintro ⟨v, e⟩ hve hv
          have hindex := Memory.leavesBelow_index hve
          exact hmeets (slot_meets hindex hv)
    · intro s hs
      rw [m.readEntry_of_lt hq (h.lt hs) (mem_slotsMeeting.mp hs).1]
      dsimp only [bind, Except.bind]
      cases hc : (m.slot q s).page? with
      | none => rw [Entry.addr?_of_page?_none hc]; rfl
      | some c =>
        rw [Entry.addr?_of_page? hc, slotSpan_slot]
        have hlt := Entry.page?_lt hc
        exact ih (by omega) (h.child hs hc)

/-! ### What is listed -/

theorem VirtAddr.page_eq_div {va : VirtAddr} (hlt : va.toNat < 2 ^ 47) :
    va.page = va.toNat / pageSize := by
  unfold page pagesPerSpace pageSize
  exact Nat.mod_eq_of_lt (by omega)

/-- A page meets a range just if its first address is before the end and its last one not before the
start. -/
theorem VirtAddr.pageMeets_page {va : VirtAddr} {lo hi : Nat} (ha : va.isAligned = true)
    (hlt : va.toNat < 2 ^ 47) :
    pageMeets lo hi va.page = true ↔ va.toNat < hi ∧ lo < va.toNat + pageSize := by
  have hto : va.page * pageSize = va.toNat := by
    rw [va.page_eq_div hlt]
    exact Nat.div_mul_cancel (Nat.dvd_of_mod_eq_zero (eq_of_beq ha))
  unfold pageMeets
  rw [hto, Bool.and_eq_true, decide_eq_true_eq, decide_eq_true_eq]

theorem VirtAddr.ofPage_page {va : VirtAddr} (ha : va.isAligned = true) (hlt : va.toNat < 2 ^ 47) :
    ofPage va.page = va := by
  have hval : (ofPage va.page).toNat = va.toNat := by
    rw [va.page_eq_div hlt, toNat_ofPage (by unfold pageSize; omega)]
    exact Nat.div_mul_cancel (Nat.dvd_of_mod_eq_zero (eq_of_beq ha))
  cases va
  exact congrArg VirtAddr.mk (UInt64.toNat_inj.mp hval)

/-- The leaves of the pages that meet the addresses from `lo` to before `hi`, in the space with root
`r`. -/
def Memory.listing (m : Memory n) (r lo hi : Nat) : List Mapping :=
  ((m.leavesBelow 3 r 0).filter fun p => pageMeets lo hi p.1).map mappingOf

section
variable {r lo hi : Nat}

theorem Memory.lt_of_pageMeets {v : Nat} (hhi : hi ≤ 2 ^ 47) (h : pageMeets lo hi v = true) :
    v < 2 ^ 35 := by
  have hlt := of_decide_eq_true (Bool.and_eq_true _ _ ▸ h).1
  unfold pageSize at hlt
  omega

/-- A range is listed in the order of the addresses, each once. -/
theorem Memory.listing_sorted (hhi : hi ≤ 2 ^ 47) :
    (m.listing r lo hi).Pairwise fun a b => a.1.toNat < b.1.toNat := by
  refine List.pairwise_map.mpr (((m.leavesBelow_sorted 3 r 0).filter _).imp_of_mem ?_)
  intro a b ha hb hab
  have ha := lt_of_pageMeets hhi (List.mem_filter.mp ha).2
  have hb := lt_of_pageMeets hhi (List.mem_filter.mp hb).2
  unfold mappingOf
  rw [VirtAddr.toNat_ofPage (by omega), VirtAddr.toNat_ofPage (by omega)]
  exact Nat.mul_lt_mul_of_pos_right hab (by decide)

theorem Memory.mem_listing (hhi : hi ≤ 2 ^ 47) {va : VirtAddr} {e : Entry} :
    (va, e) ∈ m.listing r lo hi ↔
      va.isAligned = true ∧ va.toNat < hi ∧ lo < va.toNat + pageSize ∧
        m.mapped r va.page = some e := by
  unfold listing
  rw [List.mem_map]
  constructor
  · intro hx
    obtain ⟨⟨v, e'⟩, hv, hva⟩ := hx
    obtain ⟨rfl, rfl⟩ := Prod.mk.inj hva
    obtain ⟨hleaf, hmeets⟩ := List.mem_filter.mp hv
    have hlt := lt_of_pageMeets hhi hmeets
    have ha := VirtAddr.isAligned_ofPage (v := v) (by omega)
    have hpage := VirtAddr.page_ofPage (v := v) (by omega)
    have hto : (VirtAddr.ofPage v).toNat < 2 ^ 47 := by
      rw [VirtAddr.toNat_ofPage (by omega)]
      unfold pageSize
      omega
    have hrange := (VirtAddr.pageMeets_page ha hto).mp (hpage.symm ▸ hmeets)
    exact ⟨ha, hrange.1, hrange.2, hpage.symm ▸ mem_leavesBelow_root.mp hleaf⟩
  · intro hx
    obtain ⟨ha, hlt, hlo, hm⟩ := hx
    refine ⟨(va.page, e), List.mem_filter.mpr ⟨mem_leavesBelow_root.mpr hm, ?_⟩, ?_⟩
    · exact (VirtAddr.pageMeets_page ha (by omega)).mpr ⟨hlt, hlo⟩
    · exact Prod.ext (VirtAddr.ofPage_page ha (by omega)) rfl

end

namespace PageTable

/-- The tables that the listing of a range reads are installed. -/
def ListingInside (t : PageTable) (m : Memory n) (lo hi : Nat) : Prop :=
  m.ListingInside lo hi 3 t.pa.pageNumber 0

variable {t : PageTable} {lo hi : Nat}

theorem ListingInside.mappings_eq (h : t.ListingInside m lo hi) (hhi : hi ≤ 2 ^ 47) :
    t.mappings m lo hi = .ok (m.listing t.pa.pageNumber lo hi) := by
  have hleaves := Memory.leaves_eq hhi t.pa.pageNumber_lt h
  rwa [Nat.zero_mul, ← t.pa_eq] at hleaves

/-- The kernel's walk of an address in the range does not leave the tables that are read. -/
theorem ListingInside.walk_eq (h : t.ListingInside m lo hi) {va : VirtAddr}
    (ha : va.isAligned = true) (hlt : va.toNat < 2 ^ 47) (hhi : va.toNat < hi)
    (hlo : lo < va.toNat + pageSize) :
    t.walk m va = .ok (m.mapped t.pa.pageNumber va.page) :=
  t.walk_eq va (Memory.ListingInside.wayInside h (Shape.Trees.lt_pagesPerSpace_iff.mp va.page_lt)
    ((VirtAddr.pageMeets_page ha hlt).mpr ⟨hhi, hlo⟩))

/-- **The listing of a range is exact.** If the tables that it reads are installed, whatever they
hold, the kernel lists each page that meets the range and that its walk finds a leaf for, once and
in the order of the addresses, and nothing else. -/
theorem mappings_exact (hhi : hi ≤ 2 ^ 47) (h : t.ListingInside m lo hi) :
    ∃ l, t.mappings m lo hi = .ok l ∧ (l.Pairwise fun a b => a.1.toNat < b.1.toNat) ∧
      (l.map (·.1)).Nodup ∧
      ∀ va e, (va, e) ∈ l ↔ va.isAligned = true ∧ va.toNat < 2 ^ 47 ∧ va.toNat < hi ∧
        lo < va.toNat + pageSize ∧ t.walk m va = .ok (some e) := by
  have hsorted : (m.listing t.pa.pageNumber lo hi).Pairwise fun a b => a.1.toNat < b.1.toNat :=
    Memory.listing_sorted hhi
  refine ⟨_, h.mappings_eq hhi, hsorted, ?_, fun va e => ?_⟩
  · exact List.pairwise_map.mpr (hsorted.imp fun hlt heq => hlt.ne (congrArg VirtAddr.toNat heq))
  · rw [Memory.mem_listing hhi]
    constructor
    · intro hx
      obtain ⟨ha, hlt, hlo, hm⟩ := hx
      refine ⟨ha, by omega, hlt, hlo, ?_⟩
      rw [h.walk_eq ha (by omega) hlt hlo, hm]
    · intro hx
      obtain ⟨ha, h47, hlt, hlo, hw⟩ := hx
      rw [h.walk_eq ha h47 hlt hlo, Except.ok.injEq] at hw
      exact ⟨ha, hlt, hlo, hw⟩

/-- A listing goes through the table that points to itself once for each level. -/
theorem listingInside_selfMapped (lo hi : Nat) :
    PageTable.ListingInside ⟨⟨0⟩⟩ Memory.selfMapped lo hi := by
  unfold ListingInside
  refine Memory.ListingInside.of_closed (S := fun _ q => q = 0) (fun _ q hq => hq ▸ by decide) ?_
    (by decide)
  rintro _ q s c rfl hs hc
  exact Memory.selfMapped_child hs hc

theorem mappings_exact_selfMapped : ∃ l,
    PageTable.mappings ⟨⟨0⟩⟩ Memory.selfMapped 0 (2 ^ 47) = .ok l ∧
      (l.Pairwise fun a b => a.1.toNat < b.1.toNat) ∧ (l.map (·.1)).Nodup ∧
      (∀ va e, (va, e) ∈ l ↔ va.isAligned = true ∧ va.toNat < 2 ^ 47 ∧ va.toNat < 2 ^ 47 ∧
        0 < va.toNat + pageSize ∧ PageTable.walk ⟨⟨0⟩⟩ Memory.selfMapped va = .ok (some e)) ∧
      (⟨0⟩, .link (pageAt 0) .table) ∈ l := by
  have hinside := listingInside_selfMapped 0 (2 ^ 47)
  obtain ⟨l, hl, hsorted, hnodup, hmem⟩ := mappings_exact le_rfl hinside
  have hwalk : PageTable.walk ⟨⟨0⟩⟩ Memory.selfMapped ⟨0⟩ = _ :=
    hinside.walk_eq (by decide) (by decide) (by decide) (by decide)
  have hpage : (VirtAddr.mk 0).page = 0 := by decide
  have hroot : (PageTable.mk ⟨0⟩).pa.pageNumber = 0 := by decide
  refine ⟨l, hl, hsorted, hnodup, hmem,
    (hmem _ _).mpr ⟨by decide, by decide, by decide, by decide, ?_⟩⟩
  rw [hwalk, hpage, hroot, Memory.mapped_selfMapped]

end PageTable

end PagedKernel
