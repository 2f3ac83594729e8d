import Mathlib.Data.Finset.Card
import Mathlib.Data.Finset.Range
import Mathlib.Order.Interval.Finset.Nat
import PagedKernel.Proofs.Machine.Slots
import PagedKernel.Proofs.Outcome

/-!
# What the frames do

Each operation on the frames changes the count of one page at most. A page handed out was free, is
counted once and filled (`Frames.HandedOutFull`); no other page is touched, so whatever is in use
stays as it was. Sharing, releasing and claiming a page do not touch the memory.

Key definitions: `Frames.HandedOut`, `Frames.HandedOutFull`, `Frames.Allocated`, `Frames.SameUse`.
Key theorems: `Ends.allocFilled`, `Ends.share`, `Ends.release`, `Frames.HandedOut.freePages`.
-/

namespace PagedKernel

/-- How many elements of a set have a property, with one of them counted on its own. -/
theorem card_filter_erase {α : Type} [DecidableEq α] {S : Finset α} {a : α} (ha : a ∈ S)
    (P : α → Prop) [DecidablePred P] :
    (S.filter P).card = ((S.erase a).filter P).card + if P a then 1 else 0 := by
  conv_lhs => rw [← Finset.insert_erase ha, Finset.filter_insert]
  split
  · rw [Finset.card_insert_of_notMem fun h => Finset.notMem_erase a S (Finset.mem_filter.mp h).1]
  · rfl

namespace Frames

variable {n : Nat}

@[simp]
theorem count_setCount (f : Frames n) {pn c : Nat} (h : pn < n) (q : Nat) :
    (f.setCount pn c h).count q = if q = pn then c else f.count q := by
  unfold count setCount
  by_cases hq : q = pn
  · subst hq
    simp [h]
  · rw [if_neg hq]
    split
    · rw [Vector.getElem_set_ne _ _ fun h => hq h.symm]
    · rfl

@[simp]
theorem memory_setCount (f : Frames n) {pn c : Nat} (h : pn < n) :
    (f.setCount pn c h).memory = f.memory := rfl

theorem count_of_lt (f : Frames n) {q : Nat} (h : q < n) : f.count q = f.counts[q] :=
  dif_pos h

theorem count_of_ge (f : Frames n) {q : Nat} (h : n ≤ q) : f.count q = 0 :=
  dif_neg (Nat.not_lt.mpr h)

@[simp]
theorem count_fresh (n q : Nat) : (fresh n).count q = 0 := by
  unfold count fresh
  split
  · exact Vector.getElem_replicate _
  · rfl

theorem release_eq (f : Frames n) {ref : FrameRef} (hlt : ref.number < n) :
    release ref f = if f.count ref.number = 0 then .error (.releaseOfFree ref.pa) f
      else .ok () (f.setCount ref.number (f.count ref.number - 1) hlt) := by
  unfold release
  rw [dif_pos hlt, f.count_of_lt hlt]

theorem share_eq (f : Frames n) {pa : PhysAddr} (hlt : pa.pageNumber < n) :
    share pa f = if f.count pa.pageNumber = 0 then .error (.shareOfFree pa) f
      else if f.count pa.pageNumber = maxCount then .error .overflow f
      else .ok (.ofAddr pa) (f.setCount pa.pageNumber (f.count pa.pageNumber + 1) hlt) := by
  unfold share
  rw [dif_pos hlt, f.count_of_lt hlt]

theorem share_full {f : Frames n} {pa : PhysAddr} (hfull : f.count pa.pageNumber = maxCount) :
    share pa f = .error .overflow f := by
  have h0 : f.count pa.pageNumber ≠ 0 := by
    rw [hfull]
    decide
  rw [f.share_eq (Nat.lt_of_not_le fun hge => h0 (f.count_of_ge hge)), if_neg h0, if_pos hfull]

theorem allocatablePage_iff {f : Frames n} {q : Nat} :
    f.allocatablePage q = true ↔ allocatableStart ≤ q * pageSize ∧ q < n := by
  unfold allocatablePage
  rw [Bool.and_eq_true, decide_eq_true_eq, decide_eq_true_eq]

theorem claim_eq (f : Frames n) {pa : PhysAddr} (hlow : pa.toNat < allocatableStart)
    (hlt : pa.pageNumber < n) :
    claim pa f = if f.count pa.pageNumber = 0 then .ok (.ofAddr pa) (f.setCount pa.pageNumber 1 hlt)
      else .error (.alreadyClaimed pa) f := by
  have hreserved : ¬ f.allocatable pa = true := by
    unfold allocatable PhysAddr.pageNumber
    rw [allocatablePage_iff]
    have hbase := Nat.div_mul_le_self pa.toNat pageSize
    omega
  unfold claim
  rw [if_neg hreserved, dif_pos hlt, f.count_of_lt hlt]

/-! ### Free pages -/

theorem isFree_iff (f : Frames n) (q : Nat) :
    f.isFree q = true ↔ allocatableStart ≤ q * pageSize ∧ q < n ∧ f.count q = 0 := by
  unfold isFree
  rw [Bool.and_eq_true, allocatablePage_iff, beq_iff_eq, and_assoc]

theorem freePages_congr {f f' : Frames n} (h : ∀ q, f'.count q = f.count q) :
    f'.freePages = f.freePages :=
  List.countP_congr fun q _ => by rw [isFree_iff, isFree_iff, h]

theorem freePages_eq_card (f : Frames n) :
    f.freePages = ((Finset.range n).filter fun q => f.isFree q = true).card := by
  unfold freePages
  rw [List.countP_eq_length_filter]
  refine congrArg List.length (List.filter_congr fun q _ => ?_)
  exact Bool.decide_eq_true.symm

theorem freePages_le (f : Frames n) : f.freePages ≤ n - 0x100 := by
  rw [freePages_eq_card, ← Nat.card_Ico]
  refine Finset.card_le_card fun q hq => ?_
  obtain ⟨hlow, hlt, -⟩ := (f.isFree_iff q).mp (Finset.mem_filter.mp hq).2
  unfold allocatableStart pageSize at hlow
  exact Finset.mem_Ico.mpr ⟨by omega, hlt⟩

theorem freePages_ne_zero (f : Frames n) {pn : Nat} (h : f.isFree pn = true) : f.freePages ≠ 0 := by
  have hlt := ((f.isFree_iff pn).mp h).2.1
  exact (List.countP_pos_iff.mpr ⟨pn, List.mem_range.mpr hlt, h⟩).ne'

/-- A change of one count changes the number of free pages by that page alone. -/
theorem freePages_setCount (f f' : Frames n) {pn : Nat} (h : pn < n)
    (hc : ∀ q, q ≠ pn → f'.count q = f.count q) :
    f'.freePages + (if f.isFree pn then 1 else 0) =
      f.freePages + (if f'.isFree pn then 1 else 0) := by
  have hmem := Finset.mem_range.mpr h
  have hrest : (((Finset.range n).erase pn).filter fun q => f'.isFree q = true) =
      ((Finset.range n).erase pn).filter fun q => f.isFree q = true := by
    refine Finset.filter_congr fun q hq => ?_
    rw [isFree_iff, isFree_iff, hc q (Finset.ne_of_mem_erase hq)]
  rw [freePages_eq_card, freePages_eq_card, card_filter_erase hmem, card_filter_erase hmem, hrest]
  omega

theorem freePages_eq_setCount (f : Frames n) {pn c : Nat} (h : pn < n) (h0 : f.count pn ≠ 0)
    (hc : c ≠ 0) : (f.setCount pn c h).freePages = f.freePages := by
  have heq := freePages_setCount f (f.setCount pn c h) h fun q hq => by
    rw [count_setCount, if_neg hq]
  have hused : ¬ (f.setCount pn c h).isFree pn = true := fun hf => by
    have hzero := ((isFree_iff _ pn).mp hf).2.2
    rw [count_setCount, if_pos rfl] at hzero
    exact hc hzero
  rw [if_neg (c := f.isFree pn = true) fun hf => h0 ((f.isFree_iff pn).mp hf).2.2,
    if_neg hused] at heq
  exact heq

theorem freePages_le_setCount (f : Frames n) {pn c : Nat} (h : pn < n) (h0 : f.count pn ≠ 0) :
    f.freePages ≤ (f.setCount pn c h).freePages := by
  have heq := freePages_setCount f (f.setCount pn c h) h fun q hq => by
    rw [count_setCount, if_neg hq]
  rw [if_neg (c := f.isFree pn = true) fun hf => h0 ((f.isFree_iff pn).mp hf).2.2] at heq
  omega

theorem freePages_claim (f : Frames n) {pn c : Nat} (h : pn < n)
    (hlow : pn * pageSize < allocatableStart) : (f.setCount pn c h).freePages = f.freePages := by
  have heq := freePages_setCount f (f.setCount pn c h) h fun q hq => by
    rw [count_setCount, if_neg hq]
  rw [if_neg fun hf => Nat.not_le.mpr hlow ((isFree_iff _ pn).mp hf).1,
    if_neg fun hf => Nat.not_le.mpr hlow ((isFree_iff _ pn).mp hf).1] at heq
  exact heq

/-- Pages that come into use are as many free pages less, if no others do or go out of it. -/
theorem freePages_taken {f f' : Frames n} {taken : List Nat} (hnodup : taken.Nodup)
    (hfree : ∀ q ∈ taken, f.isFree q = true) (hused : ∀ q ∈ taken, f'.count q ≠ 0)
    (hother : ∀ q ∉ taken, f'.count q = 0 ↔ f.count q = 0) :
    f.freePages = f'.freePages + taken.length := by
  have hsplit : ((Finset.range n).filter fun q => f.isFree q = true) =
      ((Finset.range n).filter fun q => f'.isFree q = true) ∪ taken.toFinset := by
    ext q
    rw [Finset.mem_union, List.mem_toFinset, Finset.mem_filter, Finset.mem_filter,
      Finset.mem_range, isFree_iff, isFree_iff]
    by_cases hq : q ∈ taken
    · have hfree := (f.isFree_iff q).mp (hfree q hq)
      exact iff_of_true ⟨hfree.2.1, hfree⟩ (.inr hq)
    · rw [hother q hq, or_iff_left hq]
  have hdisjoint : Disjoint ((Finset.range n).filter fun q => f'.isFree q = true)
      taken.toFinset := by
    refine Finset.disjoint_left.mpr fun q hq htaken => ?_
    have hzero := ((f'.isFree_iff q).mp (Finset.mem_filter.mp hq).2).2.2
    exact hused q (List.mem_toFinset.mp htaken) hzero
  rw [freePages_eq_card, freePages_eq_card, hsplit, Finset.card_union_of_disjoint hdisjoint,
    List.toFinset_card_of_nodup hnodup]

theorem freePages_fresh : (fresh physicalPages).freePages = 256 := by
  have hfree : ∀ q ∈ List.range physicalPages,
      (fresh physicalPages).isFree q = decide (0x100 ≤ q) := fun q hq => by
    have hq := List.mem_range.mp hq
    rw [Bool.eq_iff_iff, isFree_iff, decide_eq_true_eq, count_fresh]
    unfold allocatableStart pageSize
    omega
  rw [freePages, List.countP_congr fun q hq => by rw [hfree q hq]]
  decide +kernel

theorem findFree_some {f : Frames n} {pn : Nat} (h : f.findFree = some pn) :
    f.isFree pn = true := by
  obtain ⟨i, hi, rfl⟩ := Option.map_eq_some_iff.mp h
  have hfree := List.find?_some hi
  exact hfree

theorem findFree_none {f : Frames n} (h : f.findFree = none) : f.freePages = 0 := by
  rw [findFree, Option.map_eq_none_iff, List.find?_eq_none] at h
  rw [freePages, List.countP_eq_zero]
  intro q hq
  have hq := List.mem_range.mp hq
  -- the search comes by `q` after as many steps as `q` lies ahead of the cursor
  have hmod : (f.cursor + (q + n - f.cursor % n) % n) % n = q := by
    have hlt : f.cursor % n < n := Nat.mod_lt _ (by omega)
    calc (f.cursor + (q + n - f.cursor % n) % n) % n
        = (f.cursor % n + (q + n - f.cursor % n)) % n := by rw [Nat.add_mod_mod, Nat.mod_add_mod]
      _ = (q + n) % n := by rw [show f.cursor % n + (q + n - f.cursor % n) = q + n by omega]
      _ = q := by rw [Nat.add_mod_right, Nat.mod_eq_of_lt hq]
  have hfree := h _ (List.mem_range.mpr (Nat.mod_lt (q + n - f.cursor % n) (by omega)))
  rwa [hmod] at hfree

/-! ### Handing out -/

/-- `f'` is `f` with the free page `pn` handed out, whatever it holds. -/
structure HandedOut (f : Frames n) (pn : Nat) (f' : Frames n) : Prop where
  free : f.isFree pn = true
  count : ∀ q, f'.count q = if q = pn then 1 else f.count q
  byte : ∀ a, a / pageSize ≠ pn → f'.memory.byte a = f.memory.byte a

/-- The page handed out is full of the byte `v`. -/
structure HandedOutFull (v : UInt8) (f : Frames n) (pn : Nat) (f' : Frames n) : Prop
    extends HandedOut f pn f' where
  fill : ∀ a, a / pageSize = pn → f'.memory.byte a = v

/-- What the allocator leaves of `f`: the page it hands out is full of the byte `v`; or there is
none. -/
def Allocated (v : UInt8) (f : Frames n) : Option FrameRef → Frames n → Prop
  | none, f' => f' = f ∧ f.freePages = 0
  | some ref, f' => HandedOutFull v f ref.number f'

namespace HandedOut

variable {f f' : Frames n} {pn : Nat}

theorem lt (h : HandedOut f pn f') : pn < n :=
  ((f.isFree_iff pn).mp h.free).2.1

theorem count_zero (h : HandedOut f pn f') : f.count pn = 0 :=
  ((f.isFree_iff pn).mp h.free).2.2

theorem allocatable (h : HandedOut f pn f') : allocatableStart ≤ pn * pageSize :=
  ((f.isFree_iff pn).mp h.free).1

theorem byte_in_use (h : HandedOut f pn f') (a : Nat) (ha : f.count (a / pageSize) ≠ 0) :
    f'.memory.byte a = f.memory.byte a := by
  apply h.byte
  rintro rfl
  exact ha h.count_zero

theorem count_in_use (h : HandedOut f pn f') {q : Nat} (hq : f.count q ≠ 0) :
    f'.count q = f.count q := by
  rw [h.count, if_neg]
  rintro rfl
  exact hq h.count_zero

theorem freePages (h : HandedOut f pn f') : f.freePages = f'.freePages + 1 := by
  have heq := freePages_setCount f f' h.lt fun q hq => by rw [h.count, if_neg hq]
  have hused : ¬ f'.isFree pn = true := fun hf => by
    have h1 := ((f'.isFree_iff pn).mp hf).2.2
    rw [h.count, if_pos rfl] at h1
    cases h1
  rw [if_pos h.free, if_neg hused] at heq
  omega

end HandedOut

/-! ### Frames that differ in what nobody uses -/

/-- `f'` has the counts of `f`, and the same bytes in every page in use. -/
structure SameUse (f f' : Frames n) : Prop where
  count : ∀ q, f'.count q = f.count q
  byte : ∀ a, f.count (a / pageSize) ≠ 0 → f'.memory.byte a = f.memory.byte a

namespace SameUse

variable {f f' : Frames n}

theorem refl (f : Frames n) : SameUse f f :=
  ⟨fun _ => rfl, fun _ _ => rfl⟩

theorem freePages (h : SameUse f f') : f'.freePages = f.freePages :=
  freePages_congr h.count

end SameUse

end Frames

/-! ### The operations -/

namespace Ends

variable {n : Nat} {f : Frames n} {E : Halt → Prop}

theorem allocFilled {v : UInt8} : Ends (Frames.allocFilled v) f (Frames.Allocated v f) E := by
  unfold Ends Frames.allocFilled
  cases hf : f.findFree with
  | none => exact ⟨rfl, Frames.findFree_none hf⟩
  | some pn =>
    have hfree := Frames.findFree_some hf
    have hlt := ((f.isFree_iff pn).mp hfree).2.1
    simp only [hlt, dite_true]
    refine ⟨⟨hfree, fun q => ?_, fun a ha => ?_⟩, fun a ha => ?_⟩
    · exact f.count_setCount hlt q
    · exact (f.memory.byte_fillPage pn a v hlt).trans (if_neg ha)
    · exact (f.memory.byte_fillPage pn a v hlt).trans (if_pos ha)

theorem alloc : Ends (Frames.alloc pageSize) f (Frames.Allocated allocFill f) E := by
  unfold Frames.alloc
  rw [if_neg (Nat.lt_irrefl _)]
  exact allocFilled

theorem share {pa : PhysAddr} {Q : FrameRef → Frames n → Prop} (hc : pa.pageNumber < n)
    (h0 : f.count pa.pageNumber ≠ 0) (hmax : f.count pa.pageNumber = maxCount → E .overflow)
    (h : Q (.ofAddr pa) (f.setCount pa.pageNumber (f.count pa.pageNumber + 1) hc)) :
    Ends (Frames.share pa) f Q E := by
  have hshare := f.share_eq hc
  rw [if_neg h0] at hshare
  by_cases hfull : f.count pa.pageNumber = maxCount
  · rw [if_pos hfull] at hshare
    exact .of_error hshare (hmax hfull)
  · rw [if_neg hfull] at hshare
    exact .of_ok hshare h

theorem release {c : Nat} {Q : Unit → Frames n → Prop} (hc : c < n) (h0 : f.count c ≠ 0)
    (h : Q () (f.setCount c (f.count c - 1) hc)) : Ends (Frames.release ⟨c⟩) f Q E := by
  rw [f.count_of_lt hc] at h0 h
  unfold Ends Frames.release
  simp only [hc, dite_true, h0, if_false]
  exact h

theorem claim [Addressable n] {c : Nat} {Q : FrameRef → Frames n → Prop} (hc : c < n)
    (hlow : c * pageSize < allocatableStart) (h0 : f.count c = 0)
    (h : Q ⟨c⟩ (f.setCount c 1 hc)) : Ends (Frames.claim (pageAt c)) f Q E := by
  have hn := Addressable.le (n := n)
  have hpn : (pageAt c).pageNumber = c := pageAt_pageNumber (by omega)
  rw [f.count_of_lt hc] at h0
  unfold Ends Frames.claim Frames.allocatable Frames.allocatablePage FrameRef.ofAddr
  simp only [hpn, hc, decide_true, Bool.and_true, decide_eq_true_eq, Nat.not_le.mpr hlow, if_false,
    dite_true, h0, if_true]
  exact h

end Ends

end PagedKernel
