import Mathlib.Data.List.ReduceOption
import PagedKernel.Proofs.Frames

/-!
# The search for a free page

The allocator goes around the memory once, from the cursor on, and hands out the first page that it
comes by and that is free; the cursor stays behind that page. Since the round comes by every page, it
finds none only when there is none.

A page that is handed out stays in use as long as no reference is given back, whatever else is done
with the frames. So no page is handed out twice, and a number of requests in a row gets as many pages
as are free, or all that it asks for.

Key definitions: `Frames.NextFit`, `Frames.Taking`, `Frames.Handed`.
Key theorems: `Frames.findFree_eq_some_iff`, `Ends.allocNextFit`, `Frames.Taking.perform_inUse`,
`Ends.allocAll`, `Frames.alloc_exact`.
-/

namespace PagedKernel

variable {n : Nat} {E : Halt → Prop}

namespace Frames

/-! ### The round -/

/-- The search stops at the first free page that it comes by. -/
theorem findFree_eq_some_iff {f : Frames n} {pn : Nat} :
    f.findFree = some pn ↔ ∃ i < n, pn = (f.cursor + i) % n ∧ f.isFree pn = true ∧
      ∀ j < i, f.isFree ((f.cursor + j) % n) = false := by
  unfold findFree
  rw [Option.map_eq_some_iff]
  constructor
  · rintro ⟨i, hi, rfl⟩
    obtain ⟨hfree, hmem, hbefore⟩ := List.find?_range_eq_some.mp hi
    exact ⟨i, List.mem_range.mp hmem, rfl, hfree, fun j hj => by simpa using hbefore j hj⟩
  · rintro ⟨i, hi, rfl, hfree, hbefore⟩
    refine ⟨i, List.find?_range_eq_some.mpr ⟨hfree, List.mem_range.mpr hi, fun j hj => ?_⟩, rfl⟩
    rw [hbefore j hj]
    rfl

/-- `f'` is `f` with page number `pn` handed out, full of the byte `v`. It is the first free page
from the cursor on, around the memory, and the next search starts behind it. -/
structure NextFit (v : UInt8) (f : Frames n) (pn : Nat) (f' : Frames n) : Prop
    extends HandedOutFull v f pn f' where
  first : ∃ i < n, pn = (f.cursor + i) % n ∧ ∀ j < i, f.isFree ((f.cursor + j) % n) = false
  cursor : f'.cursor = (pn + 1) % n

theorem NextFit.at_cursor {v : UInt8} {f f' : Frames n} {pn : Nat} (h : NextFit v f pn f')
    (hfree : f.isFree (f.cursor % n) = true) : pn = f.cursor % n := by
  obtain ⟨i, -, rfl, hbefore⟩ := h.first
  cases i with
  | zero => rfl
  | succ i => exact absurd (hbefore 0 (Nat.succ_pos i)) (hfree ▸ nofun)

/-- How the search ends: with the first free page, or without a change, if no page is free. -/
def Searched (v : UInt8) (f : Frames n) : Option FrameRef → Frames n → Prop
  | none, f' => f' = f ∧ ∀ q, f.isFree q = false
  | some ref, f' => NextFit v f ref.number f'

theorem isFree_of_freePages {f : Frames n} (h : f.freePages = 0) (q : Nat) : f.isFree q = false :=
  Bool.eq_false_iff.mpr fun hfree => f.freePages_ne_zero hfree h

end Frames

/-- **The allocator hands out the first free page that its search comes by.** -/
theorem Ends.allocNextFit {f : Frames n} {v : UInt8} :
    Ends (Frames.allocFilled v) f (Frames.Searched v f) E := by
  refine Ends.allocFilled.and_eq.imp fun got f' ⟨hgot, hdone⟩ => ?_
  unfold Frames.allocFilled at hdone
  cases hfind : f.findFree with
  | none =>
    rw [hfind] at hdone
    cases hdone
    exact ⟨rfl, Frames.isFree_of_freePages hgot.2⟩
  | some pn =>
    obtain ⟨i, hi, hpn, hfree, hbefore⟩ := Frames.findFree_eq_some_iff.mp hfind
    have hlt : pn < n := ((f.isFree_iff pn).mp hfree).2.1
    rw [hfind] at hdone
    simp only [hlt, dite_true] at hdone
    cases hdone
    exact ⟨hgot, ⟨i, hi, hpn, hbefore⟩, rfl⟩

namespace Frames

theorem alloc_of_le {size : Nat} (h : size ≤ pageSize) :
    alloc (n := n) size = allocFilled allocFill :=
  if_neg (Nat.not_lt.mpr h)

theorem alloc_of_lt {size : Nat} (h : pageSize < size) (f : Frames n) :
    alloc size f = .ok none f := by
  unfold alloc
  rw [if_pos h]
  rfl

theorem handedOut_of_alloc {f f' : Frames n} {size : Nat} {ref : FrameRef}
    (h : alloc size f = .ok (some ref) f') : HandedOut f ref.number f' := by
  rcases Nat.lt_or_ge pageSize size with hlarge | hfits
  · rw [alloc_of_lt hlarge] at h
    cases h
  · rw [alloc_of_le hfits] at h
    exact (Ends.allocFilled (E := fun _ => True).eq_ok h).toHandedOut

/-! ### While nothing is given back -/

/-- One thing to do with the frames that gives no reference back. -/
inductive Taking (n : Nat)
  | alloc (size : Nat)
  | allocZeros
  | share (pa : PhysAddr)
  | claim (pa : PhysAddr)
  /-- Change the memory. -/
  | write (change : Memory n → Except Halt (Memory n))

def Taking.perform : Taking n → FramesM n Unit
  | alloc size => discard (Frames.alloc size)
  | allocZeros => discard Frames.allocZeros
  | share pa => discard (Frames.share pa)
  | claim pa => discard (Frames.claim pa)
  | write change => modifyMemory change

variable {f : Frames n} {q : Nat}

theorem allocFilled_inUse (hq : f.count q ≠ 0) (v : UInt8) :
    Ends (allocFilled v) f (fun _ f' => f'.count q ≠ 0) E := by
  refine Ends.allocFilled.imp fun got f' hgot => ?_
  cases got with
  | none =>
    obtain ⟨rfl, -⟩ := hgot
    exact hq
  | some ref =>
    rw [hgot.toHandedOut.count_in_use hq]
    exact hq

theorem alloc_inUse (hq : f.count q ≠ 0) (size : Nat) :
    Ends (Frames.alloc size) f (fun _ f' => f'.count q ≠ 0) E := by
  rcases Nat.lt_or_ge pageSize size with hlarge | hfits
  · exact .of_ok (alloc_of_lt hlarge f) hq
  · rw [alloc_of_le hfits]
    exact allocFilled_inUse hq allocFill

theorem count_setCount_inUse (hq : f.count q ≠ 0) {pn c : Nat} (h : pn < n) (hc : c ≠ 0) :
    (f.setCount pn c h).count q ≠ 0 := by
  rw [count_setCount]
  split
  · exact hc
  · exact hq

/-- **A page in use stays in use**, if nothing is given back. -/
theorem Taking.perform_inUse (hq : f.count q ≠ 0) (t : Taking n) :
    Ends t.perform f (fun _ f' => f'.count q ≠ 0) fun _ => True := by
  have hdiscard : ∀ {α : Type} {x : FramesM n α},
      Ends x f (fun _ f' => f'.count q ≠ 0) (fun _ => True) →
        Ends (discard x) f (fun _ f' => f'.count q ≠ 0) fun _ => True :=
    fun hx => hx.bind fun _ _ h => .pure h
  cases t with
  | alloc size => exact hdiscard (alloc_inUse hq size)
  | allocZeros => exact hdiscard (allocFilled_inUse hq 0)
  | share pa =>
    refine hdiscard (.of_eq_ok fun ref f' hdone => ?_)
    unfold Frames.share at hdone
    dsimp only at hdone
    split_ifs at hdone
    cases hdone
    exact count_setCount_inUse hq _ (Nat.succ_ne_zero _)
  | claim pa =>
    refine hdiscard (.of_eq_ok fun ref f' hdone => ?_)
    unfold Frames.claim at hdone
    split_ifs at hdone
    cases hdone
    exact count_setCount_inUse hq _ Nat.one_ne_zero
  | write change =>
    show Ends (modifyMemory change) f _ _
    cases hchange : change f.memory with
    | ok m => exact .of_ok (modifyMemory_ok hchange) hq
    | error e =>
      refine .of_eq_ok fun _ f' hdone => ?_
      unfold modifyMemory at hdone
      rw [hchange] at hdone
      cases hdone

theorem Taking.run_inUse (hq : f.count q ≠ 0) (steps : List (Taking n)) :
    Ends (steps.forM Taking.perform) f (fun _ f' => f'.count q ≠ 0) fun _ => True :=
  Ends.forM (I := fun f => f.count q ≠ 0) steps f hq fun t _ _ h => t.perform_inUse h

/-! ### Requests in a row -/

/-- `f'` is `f` with the pages `taken` handed out, each of which was free. -/
structure Handed (f : Frames n) (taken : List FrameRef) (f' : Frames n) : Prop where
  nodup : taken.Nodup
  free : ∀ ref ∈ taken, f.isFree ref.number = true
  count : ∀ q, f'.count q = if ⟨q⟩ ∈ taken then 1 else f.count q

namespace Handed

variable {f' f'' : Frames n} {taken : List FrameRef}

theorem nil (f : Frames n) : Handed f [] f :=
  ⟨List.nodup_nil, nofun, fun _ => rfl⟩

theorem cons {ref : FrameRef} (hfirst : HandedOut f ref.number f') (h : Handed f' taken f'') :
    Handed f (ref :: taken) f'' where
  nodup := by
    refine List.nodup_cons.mpr ⟨fun hmem => ?_, h.nodup⟩
    have hzero := ((f'.isFree_iff _).mp (h.free ref hmem)).2.2
    rw [hfirst.count, if_pos rfl] at hzero
    cases hzero
  free r hr := by
    rcases List.mem_cons.mp hr with rfl | hr
    · exact hfirst.free
    · obtain ⟨hstart, hlt, hzero⟩ := (f'.isFree_iff _).mp (h.free r hr)
      rw [hfirst.count] at hzero
      split at hzero
      · cases hzero
      · exact (f.isFree_iff _).mpr ⟨hstart, hlt, hzero⟩
  count q := by
    rw [h.count, hfirst.count]
    have hhead : (⟨q⟩ : FrameRef) = ref ↔ q = ref.number :=
      ⟨fun heq => heq ▸ rfl, fun heq => heq ▸ rfl⟩
    by_cases hq : q = ref.number
    · rw [if_pos hq, if_pos (List.mem_cons.mpr (.inl (hhead.mpr hq))), ite_self]
    · simp only [List.mem_cons, hhead, hq, false_or, if_false]

theorem freePages (h : Handed f taken f') : f.freePages = f'.freePages + taken.length := by
  have hmem : ∀ {q}, q ∈ taken.map FrameRef.number ↔ ⟨q⟩ ∈ taken := fun {q} =>
    ⟨fun hq => by obtain ⟨ref, href, rfl⟩ := List.mem_map.mp hq; exact href,
      fun hq => List.mem_map.mpr ⟨_, hq, rfl⟩⟩
  have htaken : f.freePages = f'.freePages + (taken.map FrameRef.number).length := freePages_taken
    (h.nodup.map fun a b heq => by cases a; cases b; exact congrArg FrameRef.mk heq)
    (fun q hq => h.free _ (hmem.mp hq))
    (fun q hq => by rw [h.count, if_pos (hmem.mp hq)]; exact Nat.one_ne_zero)
    (fun q hq => by rw [h.count, if_neg fun hin => hq (hmem.mpr hin)])
  rwa [List.length_map] at htaken

end Handed

end Frames

/-- **Requests in a row get pages that are all different**, as many as they ask for, as long as pages
are free. -/
theorem Ends.allocAll : ∀ (sizes : List Nat) {f : Frames n},
    Ends (sizes.mapM Frames.alloc) f (fun got f' => Frames.Handed f got.reduceOption f' ∧
      ((∀ size ∈ sizes, size ≤ pageSize) →
        got.reduceOption.length = min sizes.length f.freePages)) E
  | [], f => .pure ⟨.nil f, fun _ => (Nat.zero_min _).symm⟩
  | size :: sizes, f => by
    rw [List.mapM_cons]
    rcases Nat.lt_or_ge pageSize size with hlarge | hfits
    · apply Ends.step (Frames.alloc_of_lt hlarge f)
      refine (Ends.allocAll sizes).bind fun got f' hgot => .pure ⟨hgot.1, fun hall => ?_⟩
      exact absurd (hall size List.mem_cons_self) (Nat.not_le.mpr hlarge)
    · rw [Frames.alloc_of_le hfits]
      refine Ends.allocFilled.bind fun got f' hgot => ?_
      refine (Ends.allocAll sizes).bind fun rest f'' hrest => .pure ?_
      cases got with
      | none =>
        obtain ⟨rfl, hnone⟩ := hgot
        refine ⟨hrest.1, fun hall => ?_⟩
        rw [List.reduceOption_cons_of_none,
          hrest.2 fun size hmem => hall size (List.mem_cons_of_mem _ hmem), hnone,
          Nat.min_zero, Nat.min_zero]
      | some ref =>
        refine ⟨hrest.1.cons hgot.toHandedOut, fun hall => ?_⟩
        have hrest := hrest.2 fun size hmem => hall size (List.mem_cons_of_mem _ hmem)
        have hfree := hgot.toHandedOut.freePages
        rw [List.reduceOption_cons_of_some, List.length_cons, List.length_cons, hrest, hfree]
        omega

namespace Frames

/-- **The allocator's search is a complete circular next fit**, whatever the counts and the cursor
are. A request for no more than a page gets the free page at the least distance from the cursor,
around the memory, with the count one and full of `allocFill`, and nothing else changes but the
cursor, which moves behind it; it gets none just if no page is free, and then nothing changes. What
is handed out is not handed out again before something is given back, and of the free pages as many
are left as have not been handed out. -/
theorem alloc_exact (f : Frames n) :
    (∀ size ≤ pageSize, ∃ got f', alloc size f = .ok got f' ∧
      (∀ ref, got = some ref → NextFit allocFill f ref.number f') ∧
      (got = none ↔ ∀ q, f.isFree q = false) ∧ (got = none → f' = f)) ∧
    (∀ size size' (steps : List (Taking n)) ref ref' f₁ f₂ f₃,
      alloc size f = .ok (some ref) f₁ → steps.forM Taking.perform f₁ = .ok () f₂ →
        alloc size' f₂ = .ok (some ref') f₃ → ref' ≠ ref) ∧
    ∀ sizes : List Nat, ∃ got f', sizes.mapM alloc f = .ok got f' ∧
      got.reduceOption.Nodup ∧ f'.freePages + got.reduceOption.length = f.freePages ∧
      ((∀ size ∈ sizes, size ≤ pageSize) →
        got.reduceOption.length = min sizes.length f.freePages) := by
  refine ⟨fun size hsize => ?_, fun size size' steps ref ref' f₁ f₂ f₃ h₁ h₂ h₃ => ?_,
    fun sizes => ?_⟩
  · obtain ⟨got, f', hdone, hgot⟩ := (Ends.allocNextFit (f := f) (v := allocFill)).ok
    rw [alloc_of_le hsize]
    refine ⟨got, f', hdone, ?_⟩
    cases got with
    | none => exact ⟨nofun, iff_of_true rfl hgot.2, fun _ => hgot.1⟩
    | some ref =>
      refine ⟨fun _ hsome => ?_, iff_of_false nofun fun hnone => ?_, nofun⟩
      · cases hsome
        exact hgot
      · have hfree := (show NextFit allocFill f ref.number f' from hgot).free
        rw [hnone] at hfree
        cases hfree
  · have hfirst := handedOut_of_alloc h₁
    have hused : f₁.count ref.number ≠ 0 := by
      rw [hfirst.count, if_pos rfl]
      exact Nat.one_ne_zero
    have hstill := (Taking.run_inUse hused steps).eq_ok h₂
    rintro rfl
    exact hstill (handedOut_of_alloc h₃).count_zero
  · obtain ⟨got, f', hdone, hhanded, hlength⟩ := (Ends.allocAll sizes (f := f)).ok
    exact ⟨got, f', hdone, hhanded.nodup, hhanded.freePages.symm, hlength⟩

/-- Of the two pages that may be handed out one goes to the first request, the other to one that
comes after a request that is refused, and three requests in a row get two pages. -/
theorem alloc_exact_two_pages :
    ∃ f₁ : Frames 258, alloc 8 (fresh 258) = .ok (some ⟨256⟩) f₁ ∧
      NextFit allocFill (fresh 258) 256 f₁ ∧
      [Taking.alloc 5000].forM Taking.perform f₁ = .ok () f₁ ∧
      (∃ ref f₂, alloc pageSize f₁ = .ok (some ref) f₂ ∧ ref ≠ ⟨256⟩) ∧
      ∃ got f₃, [1, 2, 3].mapM alloc (fresh 258) = .ok got f₃ ∧ got.reduceOption.length = 2 ∧
        f₃.freePages = 0 := by
  obtain ⟨hsearch, hdistinct, hrow⟩ := alloc_exact (fresh 258)
  have hcursor : (fresh 258).isFree 256 = true := by
    rw [isFree_iff, count_fresh]
    decide
  obtain ⟨got, f₁, hfirst, hfit, hnone, -⟩ := hsearch 8 (by decide)
  obtain ⟨ref, rfl⟩ : ∃ ref, got = some ref := Option.ne_none_iff_exists'.mp fun hgot => by
    rw [hnone.mp hgot] at hcursor
    cases hcursor
  have hfit := hfit ref rfl
  obtain rfl : ref = ⟨256⟩ := congrArg FrameRef.mk (hfit.at_cursor hcursor)
  have hrefused : [Taking.alloc 5000].forM Taking.perform f₁ = .ok () f₁ := rfl
  have hfree : f₁.isFree 257 = true := by
    rw [isFree_iff, hfit.count, count_fresh]
    decide
  obtain ⟨got, f₂, hsecond, -, hnone, -⟩ := (alloc_exact f₁).1 pageSize (Nat.le_refl _)
  obtain ⟨ref, rfl⟩ : ∃ ref, got = some ref := Option.ne_none_iff_exists'.mp fun hgot => by
    rw [hnone.mp hgot] at hfree
    cases hfree
  obtain ⟨got, f₃, hthree, -, hleft, hlength⟩ := hrow [1, 2, 3]
  have hlength := hlength (by decide)
  have htwo : (fresh 258).freePages = 2 := by decide +kernel
  rw [htwo] at hleft hlength
  refine ⟨f₁, hfirst, hfit, hrefused,
    ⟨ref, f₂, hsecond, hdistinct _ _ _ _ _ _ _ _ hfirst hrefused hsecond⟩, got, f₃, hthree,
    hlength, ?_⟩
  rw [hlength] at hleft
  exact Nat.add_eq_right.mp hleft

end Frames

end PagedKernel
