import PagedKernel.Proofs.Spaces.Consistency
import PagedKernel.Proofs.Spaces.Teardown
import PagedKernel.Proofs.Spaces.Untouched

/-!
# What the destruction of a page table gives back

`PageTable.releaseTable` takes the slots of a table one by one: it empties the table below, clears
the slot and releases the page. What it reads on its way is the memory that it changes. But the
tables below a slot are written when the turn comes to this slot, not before, so it releases what
the memory referred to when it began (`Releases.slots`): each page as often as an entry pointed to
it.

For the counts it takes only that there were that many. So the destruction of one page table among
consistent ones ends, gives back what this one refers to, and changes nothing of the others.

Key definitions: `Memory.refsBelow`, `Released`, `Releases`.
Key theorems: `Releases.slots`, `PageTable.destroy_releases`, `Frames.Consistent.destroy_exact`.
-/

namespace PagedKernel

variable {n : Nat} {f f' f'' : Frames n} {m m' : Memory n} {refs refs' : List Nat}
  {S S' : Nat → Prop} {E : Halt → Prop}

/-! ### References, in the order of their release -/

namespace Memory

/-- What the entry in slot `s` of the table in page `q` refers to: what `below` says of the page
that it points to, and this page. -/
def slotRefs (m : Memory n) (below : Nat → List Nat) (q s : Nat) : List Nat :=
  (m.slot q s).page?.elim [] fun c => below c ++ [c]

/-- What the entries of the table of level `l` in page `q` and of the tables below it refer to. -/
def refsBelow (m : Memory n) : Nat → Nat → List Nat
  | 0, q => tableSlots.flatMap (m.slotRefs (fun _ => []) q)
  | l + 1, q => tableSlots.flatMap (m.slotRefs (m.refsBelow l) q)

/-- What `pages` says of the page that the entry in slot `s` of the table in page `q` points to. -/
def slotPages (m : Memory n) (pages : Nat → List Nat) (q s : Nat) : List Nat :=
  (m.slot q s).page?.elim [] pages

theorem slotRefs_of_page? {below : Nat → List Nat} {q s c : Nat}
    (hc : (m.slot q s).page? = some c) : m.slotRefs below q s = below c ++ [c] := by
  unfold slotRefs
  rw [hc, Option.elim_some]

theorem slotRefs_none {below : Nat → List Nat} {q s : Nat} (hc : (m.slot q s).page? = none) :
    m.slotRefs below q s = [] := by
  unfold slotRefs
  rw [hc, Option.elim_none]

theorem slotPages_of_page? {pages : Nat → List Nat} {q s c : Nat}
    (hc : (m.slot q s).page? = some c) : m.slotPages pages q s = pages c := by
  unfold slotPages
  rw [hc, Option.elim_some]

theorem tablesBelow_zero (q : Nat) :
    m.tablesBelow 0 q = q :: tableSlots.flatMap (m.slotPages (fun _ => []) q) := by
  have hnil : tableSlots.flatMap (m.slotPages (fun _ => []) q) = [] := by
    refine List.flatMap_eq_nil_iff.mpr fun s _ => ?_
    unfold slotPages
    cases (m.slot q s).page? <;> rfl
  rw [tablesBelow, hnil]

theorem tablesBelow_succ (l q : Nat) :
    m.tablesBelow (l + 1) q = q :: tableSlots.flatMap (m.slotPages (m.tablesBelow l) q) := by
  rw [tablesBelow]
  refine congrArg (List.cons q) (List.flatMap_congr fun s _ => ?_)
  unfold slotPages
  cases (m.slot q s).page? <;> rfl

/-- The tables below a table and the targets of the leaves below it are what the entries refer to,
and the table itself. -/
theorem tablesBelow_append_perm (m : Memory n) : ∀ l q i : Nat,
    (m.tablesBelow l q ++ (m.leavesBelow l q i).map (·.2.addr.pageNumber)).Perm
      (m.refsBelow l q ++ [q])
  | 0, q, i => by
    have hleaves : (m.leavesBelow 0 q i).map (·.2.addr.pageNumber) = m.refsBelow 0 q := by
      rw [leavesBelow, refsBelow, List.filterMap_eq_flatMap_toList, List.map_flatMap]
      refine List.flatMap_congr fun s _ => ?_
      unfold slotRefs Entry.page?
      cases (m.slot q s).present <;> rfl
    rw [tablesBelow, hleaves]
    exact List.perm_append_comm
  | l + 1, q, i => by
    rw [tablesBelow_succ, leavesBelow, refsBelow, List.map_flatMap, List.cons_append]
    refine (List.Perm.cons q ?_).trans (List.perm_append_singleton q _).symm
    refine (List.flatMap_append_perm _ _ _).trans (List.Perm.flatMap_left _ fun s _ => ?_)
    unfold slotPages slotRefs
    cases (m.slot q s).page? with
    | none => exact List.Perm.nil
    | some c => exact tablesBelow_append_perm m l c (512 * i + s)

end Memory

/-- A page table refers to what its entries do, and to its root. -/
theorem PageTable.references_perm (t : PageTable) (m : Memory n) :
    (t.references m).Perm (m.refsBelow 3 t.root.number ++ [t.root.number]) :=
  m.tablesBelow_append_perm 3 t.root.number 0

/-! ### Giving references back -/

/-- From `f` to `f'` the references `refs` were given back, and only bytes of the pages in `S`
differ. -/
structure Released (refs : List Nat) (S : Nat → Prop) (f f' : Frames n) : Prop where
  count : ∀ q, f'.count q + refs.count q = f.count q
  byte : ∀ a, ¬ S (a / pageSize) → f'.memory.byte a = f.memory.byte a

namespace Released

theorem refl (S : Nat → Prop) (f : Frames n) : Released [] S f f :=
  ⟨fun _ => rfl, fun _ _ => rfl⟩

theorem trans (h : Released refs S f f') (h' : Released refs' S f' f'') :
    Released (refs ++ refs') S f f'' where
  count q := by
    rw [List.count_append, ← h.count q, ← h'.count q]
    omega
  byte a ha := (h'.byte a ha).trans (h.byte a ha)

theorem mono (h : Released refs S f f') (hS : ∀ q, S q → S' q) : Released refs S' f f' :=
  ⟨h.count, fun a ha => h.byte a fun hq => ha (hS _ hq)⟩

theorem congr (h : Released refs S f f') (hrefs : ∀ q, refs'.count q = refs.count q) :
    Released refs' S f f' :=
  ⟨fun q => by rw [hrefs, h.count], h.byte⟩

theorem slot (h : Released refs S f f') {q s : Nat} (hq : ¬ S q) (hs : s < 512) :
    f'.memory.slot q s = f.memory.slot q s :=
  Memory.slot_congr hs fun a ha => h.byte a (ha ▸ hq)

theorem setSlot {q s : Nat} {e : Entry} (hs : s < 512) :
    Released [] (· = q) f (f.setSlot q s e) :=
  ⟨fun _ => rfl, fun _ ha => Memory.byte_setSlot hs ha⟩

theorem release {c : Nat} (hc : c < n) (h0 : f.count c ≠ 0) :
    Released [c] S f (f.setCount c (f.count c - 1) hc) where
  count q := by
    rw [f.count_setCount hc, List.count_singleton]
    by_cases hq : q = c
    · subst hq
      simp
      omega
    · rw [if_neg hq, if_neg (by simpa using Ne.symm hq), Nat.add_zero]
  byte _ _ := by rw [Frames.memory_setCount]

end Released

/-- `below`, at a table in pages that there are, all of them different, gives back the references
`refs` if they are counted, and writes to the pages `pages` only. What these are is in the tables in
these pages. -/
structure Releases (below : PhysAddr → FramesM n Unit) (refs pages : Memory n → Nat → List Nat)
    (E : Halt → Prop) : Prop where
  congr : ∀ {m m' c}, (∀ d ∈ pages m c, ∀ s < 512, m'.slot d s = m.slot d s) →
    refs m' c = refs m c ∧ pages m' c = pages m c
  ends : ∀ {f : Frames n} {c}, (pages f.memory c).Nodup → (∀ d ∈ pages f.memory c, d < n) →
    (∀ q, (refs f.memory c).count q ≤ f.count q) →
    Ends (below (pageAt c)) f
      (fun _ f' => Released (refs f.memory c) (· ∈ pages f.memory c) f f') E

namespace Memory

variable {pages : Nat → List Nat} {q s c : Nat}

theorem mem_slotPages (hs : s < 512) (hc : (m.slot q s).page? = some c) {d : Nat}
    (hd : d ∈ pages c) : d ∈ q :: tableSlots.flatMap (m.slotPages pages q) := by
  refine List.mem_cons_of_mem _ (List.mem_flatMap.mpr ⟨s, mem_tableSlots.mpr hs, ?_⟩)
  rwa [slotPages_of_page? hc]

theorem nodup_of_slot (hnd : (q :: tableSlots.flatMap (m.slotPages pages q)).Nodup) (hs : s < 512)
    (hc : (m.slot q s).page? = some c) : (pages c).Nodup := by
  have hslots := (List.nodup_flatMap.mp (List.nodup_cons.mp hnd).2).1
  have hslot := hslots s (mem_tableSlots.mpr hs)
  rwa [slotPages_of_page? hc] at hslot

theorem ne_of_slot (hnd : (q :: tableSlots.flatMap (m.slotPages pages q)).Nodup) (hs : s < 512)
    (hc : (m.slot q s).page? = some c) {d : Nat} (hd : d ∈ pages c) : d ≠ q := by
  rintro rfl
  refine (List.nodup_cons.mp hnd).1 (List.mem_flatMap.mpr ⟨s, mem_tableSlots.mpr hs, ?_⟩)
  rwa [slotPages_of_page? hc]

theorem disjoint_of_slots (hnd : (q :: tableSlots.flatMap (m.slotPages pages q)).Nodup)
    {s' c' : Nat} (hs : s < s') (hs' : s' < 512) (hc : (m.slot q s).page? = some c)
    (hc' : (m.slot q s').page? = some c') {d : Nat} (hd : d ∈ pages c) : d ∉ pages c' := by
  have hslots := (List.nodup_flatMap.mp (List.nodup_cons.mp hnd).2).2
  have hdisjoint := List.pairwise_iff_getElem.mp hslots s s'
  simp only [tableSlots, List.length_range, List.getElem_range, Function.onFun,
    slotPages_of_page? hc, slotPages_of_page? hc'] at hdisjoint
  exact hdisjoint (lt_trans hs hs') hs' hs hd

/-- The references of the first slots and of the next one are among those of the table. -/
theorem count_slotRefs_le {F : Nat → List Nat} {k : Nat} (hk : k < 512) (b : Nat) :
    ((List.range k).flatMap F).count b + (F k).count b ≤ (tableSlots.flatMap F).count b := by
  have hsub : (List.range (k + 1)).Sublist tableSlots := List.range_sublist.mpr hk
  calc ((List.range k).flatMap F).count b + (F k).count b
      = ((List.range (k + 1)).flatMap F).count b := by
        rw [List.range_succ, List.flatMap_append, List.count_append, List.flatMap_singleton]
    _ ≤ (tableSlots.flatMap F).count b := (hsub.flatMap F).count_le b

end Memory

namespace Releases

theorem nothing : Releases (n := n) (fun _ => return ()) (fun _ _ => []) (fun _ _ => []) E where
  congr _ := ⟨rfl, rfl⟩
  ends _ _ _ := .pure (.refl _ _)

variable {below : PhysAddr → FramesM n Unit} {refs pages : Memory n → Nat → List Nat}
  {q k c : Nat}

/-- What a loop over the slots of a table has done when it has come to slot `k`: the references of
the slots before are given back, and the others and all that is below them are as they were. -/
structure Upto (refs pages : Memory n → Nat → List Nat) (q k : Nat) (f f' : Frames n) : Prop where
  released : Released ((List.range k).flatMap (f.memory.slotRefs (refs f.memory) q))
    (· ∈ q :: tableSlots.flatMap (f.memory.slotPages (pages f.memory) q)) f f'
  slot : ∀ s, k ≤ s → s < 512 → f'.memory.slot q s = f.memory.slot q s
  below : ∀ s, k ≤ s → s < 512 → ∀ c, (f.memory.slot q s).page? = some c →
    ∀ d ∈ pages f.memory c, ∀ s' < 512, f'.memory.slot d s' = f.memory.slot d s'

namespace Upto

theorem start : Upto refs pages q 0 f f :=
  ⟨.refl _ _, fun _ _ _ => rfl, fun _ _ _ _ _ _ _ _ _ => rfl⟩

theorem skip (h : Upto refs pages q k f f') (hc : (f.memory.slot q k).page? = none) :
    Upto refs pages q (k + 1) f f' where
  released := by
    rw [List.range_succ, List.flatMap_append, List.flatMap_singleton, Memory.slotRefs_none hc,
      List.append_nil]
    exact h.released
  slot s hs := h.slot s (by omega)
  below s hs := h.below s (by omega)

/-- A slot is done by changes to itself and to the pages below it. -/
theorem next (h : Upto refs pages q k f f')
    (hnd : (q :: tableSlots.flatMap (f.memory.slotPages (pages f.memory) q)).Nodup) (hk : k < 512)
    (hc : (f.memory.slot q k).page? = some c)
    (hrel : Released (refs f.memory c ++ [c]) (fun d => d = q ∨ d ∈ pages f.memory c) f' f'')
    (hslot : ∀ s < 512, s ≠ k → f''.memory.slot q s = f'.memory.slot q s) :
    Upto refs pages q (k + 1) f f'' where
  released := by
    rw [List.range_succ, List.flatMap_append, List.flatMap_singleton,
      Memory.slotRefs_of_page? hc]
    refine h.released.trans (hrel.mono fun d hd => ?_)
    rcases hd with rfl | hd
    · exact List.mem_cons_self
    · exact Memory.mem_slotPages hk hc hd
  slot s hs hs1 := by
    rw [hslot s hs1 (by omega), h.slot s (by omega) hs1]
  below s hs hs1 c' hc' d hd s' hs' := by
    have hother : ¬ (d = q ∨ d ∈ pages f.memory c) := by
      rintro (hdq | hdc)
      · exact Memory.ne_of_slot hnd hs1 hc' hd hdq
      · exact Memory.disjoint_of_slots hnd hs hs1 hc hc' hdc hd
    rw [hrel.slot hother hs', h.below s (by omega) hs1 c' hc' d hd s' hs']

end Upto

theorem congr_slots (h : Releases below refs pages E)
    (hsame : ∀ d ∈ q :: tableSlots.flatMap (m.slotPages (pages m) q), ∀ s < 512,
      m'.slot d s = m.slot d s) :
    tableSlots.flatMap (m'.slotRefs (refs m') q) = tableSlots.flatMap (m.slotRefs (refs m) q) ∧
      q :: tableSlots.flatMap (m'.slotPages (pages m') q) =
        q :: tableSlots.flatMap (m.slotPages (pages m) q) := by
  have hslot : ∀ s < 512, m'.slot q s = m.slot q s := hsame q List.mem_cons_self
  have hbelow : ∀ s < 512, ∀ c, (m.slot q s).page? = some c →
      refs m' c = refs m c ∧ pages m' c = pages m c := fun s hs c hc =>
    h.congr fun d hd => hsame d (Memory.mem_slotPages hs hc hd)
  constructor
  · refine List.flatMap_congr fun s hs => ?_
    have hs := mem_tableSlots.mp hs
    unfold Memory.slotRefs
    rw [hslot s hs]
    cases hc : (m.slot q s).page? with
    | none => rfl
    | some c => exact congrArg (· ++ [c]) (hbelow s hs c hc).1
  · refine congrArg (List.cons q) (List.flatMap_congr fun s hs => ?_)
    have hs := mem_tableSlots.mp hs
    unfold Memory.slotPages
    rw [hslot s hs]
    cases hc : (m.slot q s).page? with
    | none => rfl
    | some c => exact (hbelow s hs c hc).2

section
variable [Addressable n]

/-- One turn of the loop. The pages that it writes are below the slot that it has come to. -/
theorem slot_ends (h : Releases below refs pages E) {f1 : Frames n}
    (hnd : (q :: tableSlots.flatMap (f.memory.slotPages (pages f.memory) q)).Nodup)
    (hin : ∀ d ∈ q :: tableSlots.flatMap (f.memory.slotPages (pages f.memory) q), d < n)
    (hle : ∀ b, (tableSlots.flatMap (f.memory.slotRefs (refs f.memory) q)).count b ≤ f.count b)
    (hk : k < 512) (hupto : Upto refs pages q k f f1) :
    Ends (PageTable.releaseSlot below (pageAt q) k) f1
      (fun _ f' => Upto refs pages q (k + 1) f f') E := by
  have hq : q < n := hin q List.mem_cons_self
  refine .step (Frames.readEntry_pageAt hq hk) ?_
  rw [hupto.slot k le_rfl hk]
  cases hc : (f.memory.slot q k).page? with
  | none =>
    rw [Entry.frame?_of_page?_none hc]
    exact .pure (hupto.skip hc)
  | some c =>
    rw [Entry.frame?_of_page? hc (lt_trans (Entry.page?_lt hc) (by decide))]
    -- what is below the slot is as it was at the beginning, and still counted
    obtain ⟨hrefs, hpages⟩ := h.congr (hupto.below k le_rfl hk c hc)
    have hcounted : ∀ b, (refs f.memory c ++ [c]).count b ≤ f1.count b := by
      intro b
      have hslot := Memory.count_slotRefs_le (F := f.memory.slotRefs (refs f.memory) q) hk b
      rw [Memory.slotRefs_of_page? hc] at hslot
      have htotal := hle b
      have hdone := hupto.released.count b
      omega
    have hbelow : Ends (below (pageAt c)) f1 (fun _ f2 =>
        Released (refs f.memory c) (· ∈ pages f.memory c) f1 f2) E := by
      rw [← hrefs, ← hpages]
      apply h.ends
      · rw [hpages]
        exact Memory.nodup_of_slot hnd hk hc
      · rw [hpages]
        exact fun d hd => hin d (Memory.mem_slotPages hk hc hd)
      · rw [hrefs]
        exact fun b => ((List.sublist_append_left _ _).count_le b).trans (hcounted b)
    refine .bind hbelow ?_
    intro _ f2 hrel
    have hc0 : f2.count c ≠ 0 := by
      have hcount := hrel.count c
      have hc1 := hcounted c
      rw [List.count_append, List.count_singleton_self] at hc1
      omega
    have hcn : c < n := by
      by_contra hge
      exact hc0 (f2.count_of_ge (Nat.not_lt.mp hge))
    refine .step (Frames.writeEntry_pageAt hq hk) (.release hcn hc0 ?_)
    apply hupto.next hnd hk hc
    · have hset := Released.setSlot (f := f2) (q := q) (e := .empty) hk
      have hcleared := hset.mono fun d hd => Or.inl (b := d ∈ pages f.memory c) hd
      have hbelow' := hrel.mono fun d hd => Or.inr (a := d = q) hd
      exact hbelow'.trans (hcleared.trans (.release hcn hc0))
    · intro s hs hsk
      rw [Frames.memory_setCount, Frames.memory_setSlot,
        Memory.slot_setSlot_ne hk hs fun heq => hsk heq.2]
      exact hrel.slot (fun hqc => Memory.ne_of_slot hnd hk hc hqc rfl) hs

/-- **What a loop over the slots of a table gives back**, if what it does below each of them gives
back what is below. -/
theorem slots (h : Releases below refs pages E) :
    Releases (fun table => (List.range' 0 512).forM (PageTable.releaseSlot below table))
      (fun m q => tableSlots.flatMap (m.slotRefs (refs m) q))
      (fun m q => q :: tableSlots.flatMap (m.slotPages (pages m) q)) E where
  congr := h.congr_slots
  ends := by
    intro f q hnd hin hle
    have hloop : Ends ((List.range' 0 512).forM (PageTable.releaseSlot below (pageAt q))) f
        (fun _ f' => Upto refs pages q (0 + 512) f f') E :=
      .forM_range (I := fun k f' => Upto refs pages q k f f') 512 0 f .start
        fun k f1 hk hupto => h.slot_ends hnd hin hle (by omega) hupto
    exact hloop.imp fun _ f' hupto => hupto.released

/-- Emptying a table gives back what its entries and those of the tables below refer to. -/
theorem releaseTable : ∀ l : Nat, Releases (n := n) (PageTable.releaseTable l)
    (fun m => m.refsBelow l) (fun m => m.tablesBelow l) E
  | 0 => by
    have h := (nothing (n := n) (E := E)).slots
    simp only [← PageTable.releaseTable_zero, ← Memory.tablesBelow_zero] at h
    exact h
  | l + 1 => by
    have h := (releaseTable l).slots
    simp only [← PageTable.releaseTable_succ, ← Memory.tablesBelow_succ] at h
    exact h

end

end Releases

/-! ### Destroying a page table -/

section
variable [Addressable n] {t : PageTable} {ts : List PageTable} {handles : List FrameRef}

/-- **Destroying a page table** gives back what it refers to, if its tables are in pages that there
are, all of them different, and its references are counted. -/
theorem PageTable.destroy_releases (hnd : (f.memory.tablesBelow 3 t.root.number).Nodup)
    (hin : ∀ q ∈ f.memory.tablesBelow 3 t.root.number, q < n)
    (hle : ∀ q, (t.references f.memory).count q ≤ f.count q) :
    Ends t.destroy f (fun _ f' =>
      Released (t.references f.memory) (· ∈ f.memory.tablesBelow 3 t.root.number) f f') E := by
  have hperm := t.references_perm f.memory
  have hrefs : ∀ q, (f.memory.refsBelow 3 t.root.number).count q + [t.root.number].count q ≤
      f.count q := by
    intro q
    rw [← List.count_append, ← hperm.count_eq]
    exact hle q
  unfold destroy
  rw [show levels - 1 = 3 from rfl, show t.pa = pageAt t.root.number from rfl]
  refine .bind ((Releases.releaseTable 3).ends hnd hin fun q => ?_) ?_
  · exact le_of_add_le_left (hrefs q)
  · intro _ f1 hrel
    have hr0 : f1.count t.root.number ≠ 0 := by
      have hcount := hrel.count t.root.number
      have hroot := hrefs t.root.number
      rw [List.count_singleton_self] at hroot
      omega
    have hrn := hin _ (f.memory.mem_tablesBelow_self 3 t.root.number)
    exact .release hrn hr0 ((hrel.trans (.release hrn hr0)).congr hperm.count_eq)

namespace Frames.Consistent

omit [Addressable n] in
theorem disjoint (h : f.Consistent ts handles) {t' : PageTable} (ht : t ∈ ts) (ht' : t' ∈ ts)
    (hne : t' ≠ t) {q : Nat} (hq : q ∈ f.memory.tablesBelow 3 t'.root.number) :
    q ∉ f.memory.tablesBelow 3 t.root.number := by
  intro hq'
  obtain ⟨l, i, hp⟩ := (h.fits.mem_tables (h.isRoot ht')).mp hq
  obtain ⟨l', i', hp'⟩ := (h.fits.mem_tables (h.isRoot ht)).mp hq'
  rw [hp, Option.some.injEq, Place.mk.injEq] at hp'
  obtain ⟨⟨r⟩⟩ := t
  obtain ⟨⟨r'⟩⟩ := t'
  exact hne (congrArg (fun r => PageTable.mk ⟨r⟩) hp'.1)

omit [Addressable n] in
/-- What the page tables refer to is what one of them does, and the others. -/
theorem count_erase (h : f.Consistent ts handles) (ht : t ∈ ts) (q : Nat) :
    f.count q = (t.references f.memory).count q +
      (((ts.erase t).flatMap (·.references f.memory)).count q +
        (handles.map (·.number)).count q) := by
  have hperm : (ts.flatMap (·.references f.memory)).Perm
      (t.references f.memory ++ (ts.erase t).flatMap (·.references f.memory)) := by
    have hcons := (List.perm_cons_erase ht).flatMap_right (PageTable.references · f.memory)
    rwa [List.flatMap_cons] at hcons
  rw [h.count q, hperm.count_eq, List.count_append, Nat.add_assoc]

omit [Addressable n] in
/-- What is left is consistent when the references of one page table are given back. -/
theorem released (h : f.Consistent ts handles) (ht : t ∈ ts)
    (hrel : Released (t.references f.memory) (· ∈ f.memory.tablesBelow 3 t.root.number) f f') :
    f'.Consistent (ts.erase t) handles ∧
      ∀ t' ∈ ts, t' ≠ t → Memory.SameSpace t'.root.number f.memory f'.memory := by
  have hothers : ∀ t' ∈ ts.erase t, t' ∈ ts ∧ t' ≠ t := fun t' ht' =>
    ⟨List.mem_of_mem_erase ht', ((h.nodup.mem_erase_iff).mp ht').1⟩
  have hsame : ∀ t' ∈ ts, t' ≠ t → Memory.SameSpace t'.root.number f.memory f'.memory :=
    fun t' ht' hne q hq s hs => hrel.slot (h.disjoint ht ht' hne hq) hs
  refine ⟨h.of_sameSpace (fun t' ht' => (hothers t' ht').1) (h.nodup.erase t) (fun t' ht' =>
    hsame t' (hothers t' ht').1 (hothers t' ht').2) fun q => ?_, hsame⟩
  have hcount := hrel.count q
  have hbefore := h.count_erase ht q
  omega

theorem destroy_ends (h : f.Consistent ts handles) (ht : t ∈ ts) :
    Ends t.destroy f (fun _ f' => Released (t.references f.memory)
      (· ∈ f.memory.tablesBelow 3 t.root.number) f f') E := by
  apply PageTable.destroy_releases
  · exact h.fits.nodup_tablesBelow (h.isRoot ht)
  · exact fun q hq => h.installed_of_reference ht (List.mem_append_left _ hq)
  · intro q
    have hcount := h.count_erase ht q
    omega

/-- **Destroying a page table gives back exactly what it held.** It does not halt; the count of each
page goes down by the number of times that the page table referred to it; the other page tables map
what they did, and only pages that held tables of this one are written. What is left is consistent
without it. -/
theorem destroy_exact (h : f.Consistent ts handles) (ht : t ∈ ts) :
    ∃ f', t.destroy f = .ok () f' ∧
      (∀ q, f'.count q + (t.references f.memory).count q = f.count q) ∧
      (∀ t' ∈ ts, t' ≠ t → ∀ va, t'.walk f'.memory va = t'.walk f.memory va) ∧
      (∀ a, a / pageSize ∉ f.memory.tablesBelow 3 t.root.number →
        f'.memory.byte a = f.memory.byte a) ∧
      f'.Consistent (ts.erase t) handles := by
  obtain ⟨_, f', hok, hrel⟩ := (h.destroy_ends (E := fun _ => False) ht).ok
  obtain ⟨h', hsame⟩ := h.released ht hrel
  refine ⟨f', hok, hrel.count, fun t' ht' hne va => ?_, hrel.byte, h'⟩
  have herase : t' ∈ ts.erase t := (h.nodup.mem_erase_iff).mpr ⟨hne, ht'⟩
  exact (hsame t' ht' hne).walk h.fits h'.fits (h.isRoot ht') (h'.isRoot herase) va

end Frames.Consistent

/-- A page table that maps one page is destroyed. -/
theorem destroy_exact_one_page : ∃ (t : PageTable) (f f' : Frames physicalPages),
    f.Consistent [t] [] ∧ t.destroy f = .ok () f' ∧
    (∀ q, f'.count q + (t.references f.memory).count q = f.count q) ∧
    f'.Consistent [] [] := by
  obtain ⟨g, f, r, c, -, -, -, h, -⟩ := OnePage.exists_consistent
  obtain ⟨f', hok, hcount, -, -, h'⟩ := h.destroy_exact (List.mem_singleton_self _)
  rw [List.erase_cons_head] at h'
  exact ⟨_, f, f', h, hok, hcount, h'⟩

end

end PagedKernel
