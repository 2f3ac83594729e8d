import PagedKernel.Proofs.Spaces.Kept

/-!
# Mapping and unmapping

What the operations on a page table do in frames whose references are accounted for. None of them
halts. `PageTable.install` takes over the handle to the page it maps and gives one for the page that
was mapped before; only its own space changes, and that at one page number. If it fails, the handle
is released and no space has changed. It runs out of memory just if there are fewer free pages than
levels missing. What an operation does step by step takes no more than that the tables are trees
(`PageTable.install_steps`).

Key definitions: `Remapped`, `Hung`, `Frames.Taken`.
Key theorems: `PageTable.new?_ends`, `PageTable.install_ends`, `PageTable.map_ends`,
`PageTable.remove_ends`, `PageTable.install_steps`.
-/

namespace PagedKernel

variable {n : Nat} {g : Shape} {held : List Nat} {f : Frames n} {E : Halt → Prop}

/-! ### Slots -/

section
variable [Addressable n]

theorem Frames.readEntry_pageAt {q s : Nat} (hq : q < n) (hs : s < 512) :
    Frames.readEntry (pageAt q) s f = .ok (f.memory.slot q s) f :=
  Frames.read_ok (Memory.readEntry_pageAt f.memory hq hs)

theorem Frames.writeEntry_pageAt {q s : Nat} {e : Entry} (hq : q < n) (hs : s < 512) :
    Frames.writeEntry (pageAt q) s e f = .ok () (f.setSlot q s e) :=
  Frames.modifyMemory_ok (Memory.writeEntry_pageAt f.memory hq hs)

end

/-! ### Changes of one space -/

/-- No space but that with root `r` has changed, and this one maps `F` now. Each table that it has
got below its root is on the way to something that it maps. -/
structure Remapped (r : Nat) (F : Nat → Option Entry) (g : Shape) (f : Frames n) (g' : Shape)
    (f' : Frames n) : Prop where
  kept : Kept (· ≠ r) g f g' f'
  isRoot : g'.IsRoot r
  mapped : f'.memory.mapped r = F
  tables : ∀ {q l i}, g' q = some ⟨r, l, i⟩ →
    g q = some ⟨r, l, i⟩ ∨ l = 3 ∨ ∃ v, v / 512 ^ (l + 1) = i ∧ F v ≠ none

/-- No space maps anything else, and none but that with root `r` has changed. All tables that this
one has got are on the way to page number `v`. -/
structure Hung (r v : Nat) (g : Shape) (f : Frames n) (g' : Shape) (f' : Frames n) : Prop where
  kept : Kept (· ≠ r) g f g' f'
  isRoot : g'.IsRoot r
  mapped : f'.memory.mapped r = f.memory.mapped r
  tables : ∀ {q l i}, g' q = some ⟨r, l, i⟩ → g q = some ⟨r, l, i⟩ ∨ v / 512 ^ (l + 1) = i

section
variable {r v : Nat} {F F' : Nat → Option Entry} {g' g'' : Shape} {f' f'' : Frames n}

theorem Hung.refl (v : Nat) (hr : g.IsRoot r) (f : Frames n) : Hung r v g f g f :=
  ⟨.refl _ _ _, hr, rfl, .inl⟩

theorem Hung.trans (h : Hung r v g f g' f') (h' : Hung r v g' f' g'' f'') :
    Hung r v g f g'' f'' :=
  ⟨h.kept.trans h'.kept, h'.isRoot, h'.mapped.trans h.mapped,
    fun hq => (h'.tables hq).elim h.tables .inr⟩

namespace Remapped

/-- The tables on the way to a page are hung before it is mapped. -/
theorem of_hung (h : Hung r v g f g' f') (h' : Remapped r F g' f' g'' f'') (hv : F v ≠ none) :
    Remapped r F g f g'' f'' :=
  ⟨h.kept.trans h'.kept, h'.isRoot, h'.mapped, fun hq => (h'.tables hq).elim
    (fun hq => (h.tables hq).elim .inl fun hi => .inr (.inr ⟨v, hi, hv⟩)) .inr⟩

/-- Frames change before the space does. -/
theorem of_kept (h : Kept (· ≠ r) g f g f') (h' : Remapped r F g f' g'' f'') :
    Remapped r F g f g'' f'' :=
  ⟨h.trans h'.kept, h'.isRoot, h'.mapped, h'.tables⟩

theorem isRoot_iff (h : Remapped r F g f g' f') (hr : g.IsRoot r) {r' : Nat} :
    g'.IsRoot r' ↔ g.IsRoot r' := by
  by_cases hrr : r' = r
  · subst hrr
    exact iff_of_true h.isRoot hr
  · exact h.kept.isRoot hrr

/-- The space changes once more, and still maps something wherever it did. -/
theorem trans (h : Remapped r F g f g' f') (h' : Remapped r F' g' f' g'' f'')
    (hF : ∀ v, F v ≠ none → F' v ≠ none) : Remapped r F' g f g'' f'' :=
  ⟨h.kept.trans h'.kept, h'.isRoot, h'.mapped, fun hq => (h'.tables hq).elim
    (fun hq => (h.tables hq).imp_right (.imp_right fun ⟨v, hi, hv⟩ => ⟨v, hi, hF v hv⟩)) .inr⟩

/-- In a space that has come with its root only, all levels are missing. -/
theorem reach_new (h : Remapped r (fun _ => none) (fun _ => none) f g' f')
    (ht : g'.Trees f'.memory) (hv : v < pagesPerSpace) : (f'.memory.reach v 3 r).2 = 3 := by
  refine le_antisymm (Shape.Trees.reach_le _ _ 3 r) ?_
  rw [Nat.succ_le_iff, ← Nat.not_le]
  intro hle
  obtain ⟨q, hq⟩ := (ht.reach_le_iff h.isRoot hv (by decide)).mp hle
  rcases h.tables hq with hnew | hl | ⟨w, -, hw⟩
  · cases hnew
  · cases hl
  · exact hw rfl

end Remapped

end

section
variable [Addressable n] {q c r i s : Nat} {perm : Permission}

theorem Accounted.page?_link (h : Accounted g (c :: held) f) (perm : Permission) :
    (Entry.link (pageAt c) perm.toFlags).page? = some c :=
  Entry.page?_link (lt_of_lt_of_le (h.handle c List.mem_cons_self).1 (Addressable.le (n := n))) rfl

/-- Setting the slot of a leaf takes over the handle to the page, and gives one for the old page. -/
theorem Accounted.linkLeaf (h : Accounted g (c :: held) f) (hq : g q = some ⟨r, 0, i⟩)
    (hs : s < 512) :
    Accounted g ((f.memory.slot q s).frame?.toList.map (·.number) ++ held)
      (f.setSlot q s (.link (pageAt c) perm.toFlags)) := by
  have hleaf : Accounted g ((Entry.link (pageAt c) perm.toFlags).page?.toList ++ held) f := by
    rwa [h.page?_link]
  rw [Entry.frame?_numbers]
  exact hleaf.setLeaf hq hs

/-- A vacant table that is hung on the way to a page. -/
theorem Hung.hang {l v : Nat} (h : Accounted g (c :: held) f)
    (hq : g q = some ⟨r, l + 1, i⟩) (hs : s < 512) (hempty : (f.memory.slot q s).page? = none)
    (h1 : f.count c = 1) (hv : f.memory.Vacant c) (hhigh : allocatableStart ≤ c * pageSize)
    (hway : v / 512 ^ (l + 1) = 512 * i + s) :
    Hung r v g f (Function.update g c (some ⟨r, l, 512 * i + s⟩))
      (f.setSlot q s (.link (pageAt c) .table)) := by
  have hr := h.fits.isRoot hq
  obtain ⟨hcn, hc⟩ := h.handle c List.mem_cons_self
  have hmapped := h.fits.mapped_hang hq hs hempty hc hcn hv (Entry.page?_link_table hcn) hr
  refine ⟨.hang h hq hs hempty h1 hv hhigh, ?_, hmapped, fun hq1 => ?_⟩
  · exact Shape.placed_of_some hc hr
  · rcases Shape.placed_cases hq1 with ⟨-, hplace⟩ | ⟨-, hq1⟩
    · cases hplace
      exact .inr hway
    · exact .inl hq1

theorem Remapped.linkLeaf (h : Accounted g (c :: held) f) (hq : g q = some ⟨r, 0, i⟩)
    (hs : s < 512) (perm : Permission) :
    Remapped r (Function.update (f.memory.mapped r) (512 * i + s)
      (some (.link (pageAt c) perm.toFlags))) g f g
      (f.setSlot q s (.link (pageAt c) perm.toFlags)) := by
  have hpage := h.page?_link perm
  refine ⟨.setLeaf h.fits hq hs _, h.fits.isRoot hq, ?_, .inl⟩
  rw [Frames.memory_setSlot, h.fits.mapped_setLeaf hq hs _,
    if_pos (Entry.present_of_page? hpage)]

end

/-! ### Pages for tables -/

namespace Frames

/-- `f'` is `f` with the free pages `taken` handed out, all full of zeros. -/
structure Taken (f f' : Frames n) (taken : List FrameRef) : Prop where
  free : ∀ ref ∈ taken, f.isFree ref.number = true
  nodup : (taken.map (·.number)).Nodup
  count : ∀ q, f'.count q = f.count q + (taken.map (·.number)).count q
  byte : ∀ a, f.count (a / pageSize) ≠ 0 → f'.memory.byte a = f.memory.byte a
  vacant : ∀ ref ∈ taken, f'.memory.Vacant ref.number
  freePages : f.freePages = f'.freePages + taken.length

namespace Taken

variable {f f' f'' : Frames n} {taken : List FrameRef}

theorem nil (f : Frames n) : Taken f f [] :=
  ⟨nofun, List.nodup_nil, fun _ => rfl, fun _ _ => rfl, nofun, rfl⟩

theorem count_one (h : Taken f f' taken) {ref : FrameRef} (hr : ref ∈ taken) :
    f'.count ref.number = 1 := by
  rw [h.count, ((f.isFree_iff _).mp (h.free ref hr)).2.2,
    List.count_eq_one_of_mem h.nodup (List.mem_map_of_mem hr)]

theorem count_zero (h : Taken f f' taken) {q : Nat} (hq : q ∈ taken.map (·.number)) :
    f.count q = 0 := by
  obtain ⟨ref, hr, rfl⟩ := List.mem_map.mp hq
  exact ((f.isFree_iff _).mp (h.free ref hr)).2.2

theorem snoc (h : Taken f f' taken) {pn : Nat} (ho : HandedOutFull 0 f' pn f'') :
    Taken f f'' (taken ++ [⟨pn⟩]) := by
  have hnew : ∀ ref ∈ taken, ref.number ≠ pn := fun ref hr hpn => by
    have h1 := h.count_one hr
    rw [hpn, ho.count_zero] at h1
    cases h1
  have hfree : f.isFree pn = true := by
    have h0 := h.count pn
    rw [ho.count_zero] at h0
    exact (f.isFree_iff pn).mpr ⟨ho.allocatable, ho.lt, by omega⟩
  constructor
  case free =>
    intro ref hr
    rcases List.mem_append.mp hr with hr | hr
    · exact h.free ref hr
    · rwa [List.mem_singleton.mp hr]
  case nodup =>
    rw [List.map_append, List.nodup_append]
    refine ⟨h.nodup, List.nodup_singleton _, fun a ha b hb => ?_⟩
    obtain ⟨ref, hr, rfl⟩ := List.mem_map.mp ha
    rw [List.mem_singleton.mp hb]
    exact hnew ref hr
  case count =>
    intro q
    rw [ho.count, h.count, List.map_append, List.count_append]
    by_cases hq : q = pn
    · have h0 := h.count pn
      rw [ho.count_zero] at h0
      subst hq
      simp
      omega
    · simp [hq, Ne.symm hq]
  case byte =>
    intro a ha
    rw [ho.byte, h.byte a ha]
    rintro rfl
    exact ha ((f.isFree_iff _).mp hfree).2.2
  case vacant =>
    intro ref hr s hs
    rcases List.mem_append.mp hr with hr | hr
    · have hkeep : f''.memory.slot ref.number s = f'.memory.slot ref.number s :=
        Memory.slot_congr hs fun a ha => ho.byte a (ha ▸ hnew ref hr)
      rw [hkeep]
      exact h.vacant ref hr s hs
    · obtain rfl := List.mem_singleton.mp hr
      have hzero : f''.memory.slot pn s = .empty :=
        Memory.slot_of_zeros hs ho.fill
      change (f''.memory.slot pn s).page? = none
      rw [hzero]
      exact Entry.page?_empty
  case freePages =>
    rw [h.freePages, ho.freePages, List.length_append, List.length_singleton]
    omega

end Taken

end Frames

theorem Accounted.taken {f' : Frames n} {taken : List FrameRef} (h : Accounted g held f)
    (ht : Frames.Taken f f' taken) : Accounted g (taken.map (·.number) ++ held) f' := by
  refine h.congr_in_use ht.byte (fun q hq => ?_) fun q _ => ?_
  · rcases List.mem_append.mp hq with hq | hq
    · obtain ⟨ref, hr, rfl⟩ := List.mem_map.mp hq
      have hfree := (f.isFree_iff _).mp (ht.free ref hr)
      exact ⟨hfree.2.1, (h.of_count_zero hfree.2.1 hfree.2.2).1⟩
    · exact h.handle q hq
  · rw [ht.count, List.count_append]
    omega

namespace PageTable

theorem releaseAll_ends {c : Nat → Nat} : ∀ (l : List FrameRef) (f : Frames n),
    (∀ ref ∈ l, ref.number < n) → (∀ q, f.count q = c q + (l.map (·.number)).count q) →
    Ends (l.forM Frames.release) f (fun _ f' => (∀ q, f'.count q = c q) ∧ f'.memory = f.memory) E
  | [], f, _, hc => .pure ⟨fun q => hc q, rfl⟩
  | ref :: l, f, hn, hc => by
    have hlt := hn ref List.mem_cons_self
    have hcount := hc ref.number
    rw [List.map_cons, List.count_cons_self] at hcount
    refine .bind (.release hlt (by omega) rfl) fun _ f1 (hf1 : f1 = _) => ?_
    rw [hf1]
    refine (releaseAll_ends l _ (fun r hr => hn r (List.mem_cons_of_mem _ hr)) fun q => ?_)
    have hq := hc q
    rw [List.map_cons, List.count_cons] at hq
    rw [Frames.count_setCount]
    by_cases heq : q = ref.number
    · subst heq
      rw [if_pos rfl]
      omega
    · simp [Ne.symm heq] at hq
      rw [if_neg heq, hq]

theorem takeTables_ends (f0 : Frames n) : ∀ (k : Nat) (taken : List FrameRef) (f : Frames n),
    Frames.Taken f0 f taken →
    Ends (takeTables k taken) f (fun res f' =>
      match res with
      | none => Frames.SameUse f0 f' ∧ f0.freePages < taken.length + k
      | some l => Frames.Taken f0 f' l ∧ l.length = taken.length + k) E
  | 0, taken, f, h => .pure ⟨h, rfl⟩
  | k + 1, taken, f, h => by
    refine .bind .allocFilled ?_
    intro found f1 h1
    rcases found with _ | ref
    · obtain ⟨rfl, h0⟩ := h1
      have hlt : ∀ ref ∈ taken, ref.number < n := fun ref hr =>
        ((f0.isFree_iff _).mp (h.free ref hr)).2.1
      refine .bind (releaseAll_ends taken f1 hlt h.count) fun _ f2 h2 => .pure ⟨⟨h2.1, ?_⟩, ?_⟩
      · intro a ha
        rw [h2.2, h.byte a ha]
      · have := h.freePages
        omega
    · refine (takeTables_ends f0 k (taken ++ [ref]) f1 (h.snoc h1)).imp fun res f2 h2 => ?_
      rw [List.length_append, List.length_singleton, Nat.add_assoc, Nat.add_comm 1 k] at h2
      exact h2

/-! ### Mapping -/

section
variable [Addressable n]

theorem hangTables_ends {va : VirtAddr} {r : Nat} : ∀ (fresh : List FrameRef) (q : Nat) (g : Shape)
    (f : Frames n), Accounted g (fresh.map (·.number) ++ held) f →
    g q = some ⟨r, fresh.length, va.page / 512 ^ (fresh.length + 1)⟩ →
    (fresh.length ≠ 0 → (f.memory.slot q (va.page / 512 ^ fresh.length % 512)).page? = none) →
    (∀ ref ∈ fresh, f.count ref.number = 1 ∧ f.memory.Vacant ref.number ∧
      allocatableStart ≤ ref.number * pageSize) →
    Ends (hangTables va (pageAt q) fresh) f (fun table f' => ∃ g' q', table = pageAt q' ∧
      Accounted g' held f' ∧ Hung r va.page g f g' f' ∧ g' q' = some ⟨r, 0, va.page / 512⟩ ∧
      (∀ c, f'.count c = f.count c) ∧ Touched r (· ∈ fresh.map (·.number)) g f g' f') E
  | [], q, g, f, h, hq, _, _ => by
    rw [List.length_nil, Nat.zero_add, Nat.pow_one] at hq
    exact .pure ⟨g, q, rfl, h, .refl _ (h.fits.isRoot hq) _, hq, fun _ => rfl, .refl _ _ _ _⟩
  | ref :: rest, q, g, f, h, hq, hempty, hfresh => by
    rw [List.length_cons] at hq hempty
    rw [List.map_cons, List.cons_append] at h
    have hs := mod_slots_lt (va.page / 512 ^ (rest.length + 1))
    have hl : rest.length + 1 ≤ 3 := h.fits.level_le hq
    obtain ⟨h1, hv, hhigh⟩ := hfresh ref List.mem_cons_self
    have hempty := hempty (Nat.succ_ne_zero _)
    have hcn := (h.handle _ List.mem_cons_self).1
    have hnew := h.hang hq hs hempty h1 hv (Entry.page?_link_table hcn)
    have hhung := Hung.hang h hq hs hempty h1 hv hhigh (slot_step _ _).symm
    rw [slot_step] at hnew hhung
    have hother : ∀ ref' ∈ ref :: rest, ref'.number ≠ q := fun ref' hr hrq => by
      have hnone := (h.handle ref'.number (by
        rw [← List.cons_append, ← List.map_cons]
        exact List.mem_append_left _ (List.mem_map_of_mem hr))).2
      rw [hrq, hq] at hnone
      cases hnone
    rw [hangTables, va.index_eq hl]
    refine .step (Frames.writeEntry_pageAt (h.fits.installed hq) hs) ?_
    have hvac : ∀ ref' ∈ ref :: rest,
        (f.memory.setSlot q _ (.link (pageAt ref.number) .table)).Vacant ref'.number :=
      fun ref' hr => (hfresh ref' hr).2.1.setSlot hs (hother ref' hr)
    refine (hangTables_ends rest ref.number _ _ hnew (Function.update_self ..) (fun _ => ?_)
      fun ref' hr => ?_).imp ?_
    · exact hvac ref List.mem_cons_self _ (mod_slots_lt _)
    · have hr := List.mem_cons_of_mem ref hr
      exact ⟨(hfresh ref' hr).1, hvac ref' hr, (hfresh ref' hr).2.2⟩
    · intro table f2 hpost
      obtain ⟨g2, q2, htable, h2, hk2, hq2, hc2, ht2⟩ := hpost
      refine ⟨g2, q2, htable, h2, hhung.trans hk2, hq2, hc2, ?_⟩
      refine .trans ((Touched.setSlot ⟨_, _, hq⟩ hs).trans (.placed ?_) fun _ => id) ht2 ?_
      · exact List.mem_cons_self
      · exact fun _ hmem => List.mem_cons_of_mem _ hmem

/-- Hanging as many fresh tables as are missing gives `va` a leaf table. -/
theorem hangTaken_ends {va : VirtAddr} {r : Nat} {fresh : List FrameRef} {f1 : Frames n}
    (h : Accounted g held f) (hr : g.IsRoot r) (ht : Frames.Taken f f1 fresh)
    (hlen : fresh.length = (f.memory.reach va.page 3 r).2) :
    Ends (hangTables va (pageAt (f.memory.reach va.page 3 r).1) fresh) f1 (fun table f' =>
      ∃ g' q', table = pageAt q' ∧ Accounted g' held f' ∧ Hung r va.page g f g' f' ∧
        g' q' = some ⟨r, 0, va.page / 512⟩ ∧ (∀ c, f'.count c = f1.count c) ∧
        Touched r (fun q => f.count q = 0) g f g' f') E := by
  have hplace := h.fits.reach_place (Shape.Trees.root_place hr va.page_lt)
  have hkept := Kept.of_in_use (P := fun _ => True) h ht.byte
  have htaken : Hung r va.page g f g f1 :=
    ⟨hkept.mono fun _ _ => trivial, hr, hkept.mapped trivial hr, .inl⟩
  have hslot : ∀ {q}, g q ≠ none → ∀ s < 512, f1.memory.slot q s = f.memory.slot q s :=
    fun hq => Accounted.slot_congr (fun a ha => ht.byte a (h.table_in_use ha)) _ hq
  rw [← hlen] at hplace
  refine (hangTables_ends fresh _ g f1 (h.taken ht) hplace.1 (fun hne => ?_) fun ref hr =>
    ⟨ht.count_one hr, ht.vacant ref hr, ((f.isFree_iff _).mp (ht.free ref hr)).1⟩).imp ?_
  · rw [hslot (hplace.1 ▸ Option.some_ne_none _) _ (mod_slots_lt _)]
    exact hplace.2 hne
  · intro table f2 hpost
    obtain ⟨g2, q2, htable, h2, hk2, hq2, hc2, ht2⟩ := hpost
    have htouched : Touched r (fun q => f.count q = 0) g f g f1 :=
      ⟨fun a _ ha => ht.byte a ha, .inl⟩
    exact ⟨g2, q2, htable, h2, htaken.trans hk2, hq2, hc2,
      htouched.trans ht2 fun _ => ht.count_zero⟩

/-- When a page is not mapped at `va` in the space with root `r`, for each cause. -/
def Refused (f : Frames n) (r : Nat) (va : VirtAddr) : MapError → Prop
  | .unaligned => va.isAligned = false
  | .invalidAddress => va.isAligned = true ∧ va.val = 0
  | .outOfMemory =>
    va.isAligned = true ∧ va.val ≠ 0 ∧ f.freePages < (f.memory.reach va.page 3 r).2
  | _ => False

omit [Addressable n] in
theorem Refused.unaligned_iff {r : Nat} {va : VirtAddr} {cause : MapError}
    (h : Refused f r va cause) : cause = .unaligned ↔ va.isAligned = false := by
  have aligned : ∀ {cause : MapError}, va.isAligned = true → cause ≠ .unaligned →
      (cause = .unaligned ↔ va.isAligned = false) := fun ha hne =>
    iff_of_false hne (by rw [ha]; decide)
  cases cause with
  | unaligned => exact iff_of_true rfl h
  | invalidAddress => exact aligned h.1 nofun
  | outOfMemory => exact aligned h.1 nofun
  | notExist => exact h.elim
  | duplicated => exact h.elim

omit [Addressable n] in
theorem Refused.cause {r : Nat} {va : VirtAddr} {cause : MapError} (h : Refused f r va cause) :
    cause = .unaligned ∨ cause = .invalidAddress ∧ va.val = 0 ∨ cause = .outOfMemory := by
  cases cause with
  | unaligned => exact .inl rfl
  | invalidAddress => exact .inr (.inl ⟨rfl, h.2⟩)
  | outOfMemory => exact .inr (.inr rfl)
  | notExist => exact h.elim
  | duplicated => exact h.elim

omit [Addressable n] in
/-- At an address that can be mapped only the memory can be the cause. -/
theorem Refused.outOfMemory {r : Nat} {va : VirtAddr} {cause : MapError} (h : Refused f r va cause)
    (haligned : va.isAligned = true) (hne : va.val ≠ 0) :
    cause = .outOfMemory ∧ f.freePages < (f.memory.reach va.page 3 r).2 := by
  cases cause with
  | unaligned => exact nomatch haligned.symm.trans h
  | invalidAddress => exact absurd h.2 hne
  | outOfMemory => exact ⟨rfl, h.2.2⟩
  | notExist => exact h.elim
  | duplicated => exact h.elim

omit [Addressable n] in
/-- There is no need of more than three tables. -/
theorem Refused.freePages_lt {r : Nat} {va : VirtAddr} (h : Refused f r va .outOfMemory) :
    f.freePages < levels - 1 :=
  lt_of_lt_of_le h.2.2 (Shape.Trees.reach_le _ _ _ _)

omit [Addressable n] in
theorem release_ends {c : Nat} (h : Accounted g (c :: held) f) :
    Ends (Frames.release ⟨c⟩) f (fun _ f' => Accounted g held f' ∧ Kept (fun _ => True) g f g f' ∧
      f.freePages ≤ f'.freePages) E := by
  have hc := (h.handle c List.mem_cons_self).1
  have h0 := h.count_handle List.mem_cons_self
  exact .release hc h0 ⟨h.release hc, .of_memory_eq h.fits rfl, f.freePages_le_setCount hc h0⟩

/-- `f'` is `f` with one more reference, a handle, to the page that the leaf `e` maps. -/
structure SharedPage (g : Shape) (held : List Nat) (f : Frames n) (e : Entry) (f' : Frames n) :
    Prop where
  accounted : Accounted g (e.addr.pageNumber :: held) f'
  kept : Kept (fun _ => True) g f g f'
  memory : f'.memory = f.memory
  count : ∀ q, f'.count q = if q = e.addr.pageNumber then f.count q + 1 else f.count q
  freePages : f'.freePages = f.freePages

omit [Addressable n] in
/-- Sharing a page that holds no table. Its count overflows if it is at its greatest. -/
theorem share_used_ends {e : Entry} (h : Accounted g held f) (hnone : g e.addr.pageNumber = none)
    (h0 : f.count e.addr.pageNumber ≠ 0)
    (hmax : f.count e.addr.pageNumber = maxCount → E .overflow) :
    Ends (Frames.share e.addr) f (fun page f' => page = ⟨e.addr.pageNumber⟩ ∧
      SharedPage g held f e f') E := by
  have hlt : e.addr.pageNumber < n := Nat.lt_of_not_le fun hge => h0 (f.count_of_ge hge)
  refine .share hlt h0 hmax ⟨rfl, h.share hlt hnone, .of_memory_eq h.fits rfl, rfl, fun q => ?_,
    f.freePages_eq_setCount hlt h0 (Nat.succ_ne_zero _)⟩
  rw [Frames.count_setCount]
  by_cases hq : q = e.addr.pageNumber
  · rw [if_pos hq, if_pos hq, hq]
  · rw [if_neg hq, if_neg hq]

omit [Addressable n] in
/-- Sharing a page that some space maps. The count has room for all references there can be. -/
theorem share_ends {r v : Nat} {e : Entry} (h : Accounted g held f)
    (hn : 1 + n * 512 + held.length < maxCount) (hr : g.IsRoot r)
    (hm : f.memory.mapped r v = some e) :
    Ends (Frames.share e.addr) f (fun page f' => page = ⟨e.addr.pageNumber⟩ ∧
      SharedPage g held f e f') E := by
  have hle := h.count_le e.addr.pageNumber
  exact share_used_ends h (h.fits.mapped_target hr hm).1 (h.count_mapped hr hm) fun hfull => by
    omega

/-! ### The steps of the operations

They depend on nothing but that the tables are trees. -/

section
variable {va : VirtAddr} {r c : Nat} {perm : Permission}

omit [Addressable n] in
/-- The slot of a page in its leaf table says what is mapped there. -/
theorem frame?_slot {m : Memory n} (h : g.Trees m) {q v : Nat} (hq : g q = some ⟨r, 0, v / 512⟩) :
    (m.slot q (v % 512)).frame? = (m.mapped r v).bind Entry.frame? := by
  rw [h.mapped_eq_slot hq]
  by_cases hp : (m.slot q (v % 512)).present = true
  · rw [if_pos hp]
    rfl
  · rw [if_neg hp]
    exact Entry.frame?_of_page?_none (Entry.page?_eq_none.mpr (Bool.eq_false_of_not_eq_true hp))

/-- `install` releases the handle, or hangs as many tables as are missing and writes the leaf. -/
theorem install_steps {Q : Except MapError (Option FrameRef) → Frames n → Prop}
    (h : g.Trees f.memory) (hr : g.IsRoot r)
    (hrelease : ∀ cause f', Frames.SameUse f f' → Refused f r va cause →
      Ends (Frames.release ⟨c⟩) f' (fun _ f'' => Q (.error cause) f'') E)
    (hmap : va.isAligned = true → va.val ≠ 0 → ∀ fresh f', Frames.Taken f f' fresh →
      fresh.length = (f.memory.reach va.page 3 r).2 →
      Ends (hangTables va (pageAt (f.memory.reach va.page 3 r).1) fresh) f'
        (fun table f'' => ∃ q, table = pageAt q ∧ q < n ∧
          Q (.ok (f''.memory.slot q (va.page % 512)).frame?)
            (f''.setSlot q (va.page % 512) (.link (pageAt c) perm.toFlags))) E) :
    Ends (install (pageAt r) va ⟨c⟩ perm) f Q E := by
  unfold install
  rw [show levels - 1 = 3 from rfl, show (FrameRef.mk c).pa = pageAt c from rfl]
  refine .ite (fun ha => ?_) fun ha => ?_
  · have hrefused := Bool.eq_false_of_not_eq_true' ha
    exact .bind (hrelease .unaligned f (.refl f) hrefused) fun _ _ hQ => .pure hQ
  have ha : va.isAligned = true := by simpa using ha
  refine .ite (fun h0 => ?_) fun h0 => ?_
  · exact .bind (hrelease .invalidAddress f (.refl f) ⟨ha, h0⟩) fun _ _ hQ => .pure hQ
  refine .step (Frames.read_ok (h.descend_eq va hr)) ?_
  dsimp only
  refine .bind (takeTables_ends f _ _ f (.nil f)) ?_
  intro found f' h'
  rcases found with _ | fresh
  · obtain ⟨huse, hlt⟩ := h'
    rw [List.length_nil, Nat.zero_add] at hlt
    exact .bind (hrelease .outOfMemory f' huse ⟨ha, h0, hlt⟩) fun _ _ hQ => .pure hQ
  · obtain ⟨ht, hlen⟩ := h'
    rw [List.length_nil, Nat.zero_add] at hlen
    refine .bind (hmap ha h0 fresh f' ht hlen) ?_
    rintro table f'' ⟨q, rfl, hq, hQ⟩
    have hs := mod_slots_lt va.page
    rw [va.index_zero]
    exact .step (Frames.readEntry_pageAt hq hs)
      (.step (Frames.writeEntry_pageAt hq hs) (.pure hQ))

/-- `map` releases the handle or installs the page. -/
theorem map_steps {Q : Except MapError Unit → Frames n → Prop} {t : PageTable}
    (h : g.Trees f.memory) (hr : g.IsRoot t.root.number)
    (hrelease : ∀ cause, cause = .unaligned ∧ va.isAligned = false ∨
        cause = .duplicated ∧ va.isAligned = true ∧ f.memory.mapped t.root.number va.page ≠ none →
      Ends (Frames.release ⟨c⟩) f (fun _ f' => Q (.error cause) f') E)
    (hinstall : va.isAligned = true → f.memory.mapped t.root.number va.page = none →
      Ends (install t.pa va ⟨c⟩ perm) f (fun res f' => Q (res.map fun _ => ()) f') E) :
    Ends (t.map va ⟨c⟩ perm) f Q E := by
  unfold map
  refine .ite (fun ha => ?_) fun ha => ?_
  · have hcause := Bool.eq_false_of_not_eq_true' ha
    exact .bind (hrelease .unaligned (.inl ⟨rfl, hcause⟩)) fun _ _ hQ => .pure hQ
  have ha : va.isAligned = true := by simpa using ha
  refine .step (Frames.read_ok (h.walk_eq t va hr)) ?_
  refine .ite (fun hm => ?_) fun hm => ?_
  · have hcause := Option.isSome_iff_ne_none.mp hm
    exact .bind (hrelease .duplicated (.inr ⟨rfl, ha, hcause⟩)) fun _ _ hQ => .pure hQ
  · exact .bind (hinstall ha (by simpa using hm)) fun _ _ hQ => .pure hQ

/-- `remove` changes nothing, or empties the slot of the page. -/
theorem remove_steps {Q : Except MapError FrameRef → Frames n → Prop}
    (h : g.Trees f.memory) (hr : g.IsRoot r)
    (herror : ∀ cause, cause = .unaligned ∧ va.isAligned = false ∨
        cause = .notExist ∧ va.isAligned = true ∧ f.memory.mapped r va.page = none →
      Q (.error cause) f)
    (hok : va.isAligned = true → ∀ q page, g q = some ⟨r, 0, va.page / 512⟩ →
      (f.memory.slot q (va.page % 512)).page? = some page.number →
      (f.memory.mapped r va.page).bind Entry.frame? = some page →
      Q (.ok page) (f.setSlot q (va.page % 512) .empty)) :
    Ends (remove (pageAt r) va) f Q E := by
  unfold remove
  refine .ite (fun ha => ?_) fun ha => ?_
  · exact .pure (herror .unaligned (.inl ⟨rfl, Bool.eq_false_of_not_eq_true' ha⟩))
  have ha : va.isAligned = true := by simpa using ha
  have hplace := (h.reach_place (Shape.Trees.root_place hr va.page_lt)).1
  refine .step (Frames.read_ok (h.leafTable?_eq va hr)) ?_
  by_cases h0 : (f.memory.reach va.page 3 r).2 = 0
  · rw [if_pos h0]
    rw [h0, Nat.zero_add, Nat.pow_one] at hplace
    generalize (f.memory.reach va.page 3 r).1 = q at hplace
    have hs := mod_slots_lt va.page
    have hq := h.installed hplace
    have hframe := frame?_slot h hplace
    dsimp only
    rw [va.index_zero]
    refine .step (Frames.readEntry_pageAt hq hs) ?_
    cases hp : (f.memory.slot q (va.page % 512)).page? with
    | none =>
      rw [Entry.frame?_of_page?_none hp]
      refine .pure (herror .notExist (.inr ⟨rfl, ha, ?_⟩))
      rw [h.mapped_eq_slot hplace, Entry.page?_eq_none.mp hp, if_neg Bool.false_ne_true]
    | some c =>
      have hc := lt_trans (Entry.page?_lt hp) (by decide : (2 : Nat) ^ 40 < 2 ^ 52)
      rw [Entry.frame?_of_page? hp hc] at hframe ⊢
      exact .step (Frames.writeEntry_pageAt hq hs) (.pure (hok ha q ⟨c⟩ hplace hp hframe.symm))
  · rw [if_neg h0]
    refine .pure (herror .notExist (.inr ⟨rfl, ha, ?_⟩))
    rw [h.mapped_eq_reach hr va.page_lt, if_neg fun hc => h0 hc.1]

end

/-! ### Operations on frames that are accounted for -/

/-- **Mapping a page**, where another one may be mapped. -/
theorem install_ends (va : VirtAddr) {r c : Nat} {perm : Permission}
    (h : Accounted g (c :: held) f) (hr : g.IsRoot r) :
    Ends (install (pageAt r) va ⟨c⟩ perm) f (fun res f' =>
      match res with
      | .ok old => (∃ g', Accounted g' (old.toList.map (·.number) ++ held) f' ∧
          Remapped r (Function.update (f.memory.mapped r) va.page
            (some (.link (pageAt c) perm.toFlags))) g f g' f' ∧ Grown r (fun _ => 0) g f g' f') ∧
          old = (f.memory.mapped r va.page).bind Entry.frame? ∧
          va.isAligned = true ∧ va.val ≠ 0 ∧
          f.freePages = f'.freePages + (f.memory.reach va.page 3 r).2
      | .error cause => Accounted g held f' ∧ Kept (fun _ => True) g f g f' ∧
          f.freePages ≤ f'.freePages ∧ Refused f r va cause) E := by
  apply install_steps h.fits.toTrees hr
  · intro cause f1 huse hrefused
    refine (release_ends (h.sameUse huse)).imp fun _ f' h' => ⟨h'.1, ?_, ?_, hrefused⟩
    · exact (Kept.of_in_use h huse.byte).trans h'.2.1
    · exact huse.freePages ▸ h'.2.2
  · intro ha h0 fresh f1 ht hlen
    refine (hangTaken_ends h hr ht hlen).imp ?_
    rintro table f2 ⟨g2, q2, rfl, h2, hk2, hq2, hc2, ht2⟩
    have hs := mod_slots_lt va.page
    have hmapped := hk2.mapped
    have hmap := Remapped.linkLeaf h2 hq2 hs perm
    rw [Nat.div_add_mod, hmapped] at hmap
    refine ⟨q2, rfl, h2.fits.installed hq2, ⟨g2, h2.linkLeaf hq2 hs, .of_hung hk2 hmap ?_, ?_⟩, ?_,
      ha, h0, ?_⟩
    · rw [Function.update_self]
      exact Option.some_ne_none _
    · refine ⟨ht2.trans (.setSlot ⟨_, _, hq2⟩ hs) fun _ => id, fun q hq => ?_⟩
      rw [Frames.count_setSlot, hc2, ht.count]
      exact congrArg _ (List.count_eq_zero.mpr fun hmem => hq (ht.count_zero hmem))
    · rw [frame?_slot h2.fits.toTrees hq2, hmapped]
    · have hfree : Frames.freePages (f2.setSlot q2 (va.page % 512)
          (.link (pageAt c) perm.toFlags)) = f1.freePages := Frames.freePages_congr hc2
      rw [ht.freePages, hlen, hfree]

/-- Mapping a page where nothing may be mapped. -/
theorem map_ends {t : PageTable} {va : VirtAddr} {c : Nat} {perm : Permission}
    (h : Accounted g (c :: held) f) (hr : g.IsRoot t.root.number) :
    Ends (t.map va ⟨c⟩ perm) f (fun res f' =>
      match res with
      | .ok () => (∃ g', Accounted g' held f' ∧
          Remapped t.root.number (Function.update (f.memory.mapped t.root.number) va.page
            (some (.link (pageAt c) perm.toFlags))) g f g' f' ∧
          Grown t.root.number (fun _ => 0) g f g' f') ∧
          f.memory.mapped t.root.number va.page = none ∧
          f.freePages = f'.freePages + (f.memory.reach va.page 3 t.root.number).2
      | .error cause => Accounted g held f' ∧ Kept (fun _ => True) g f g f' ∧
          f.freePages ≤ f'.freePages ∧
          if cause = .duplicated then f.memory.mapped t.root.number va.page ≠ none
          else Refused f t.root.number va cause) E := by
  apply map_steps h.fits.toTrees hr
  · rintro cause hcause
    refine (release_ends h).imp fun _ f' h' => ⟨h'.1, h'.2.1, h'.2.2, ?_⟩
    rcases hcause with ⟨rfl, ha⟩ | ⟨rfl, -, hm⟩
    · exact ha
    · exact hm
  · intro _ hnone
    refine (install_ends va h hr).imp fun res f' h' => ?_
    rcases res with cause | old
    · refine ⟨h'.1, h'.2.1, h'.2.2.1, ?_⟩
      have hrefused := h'.2.2.2
      cases cause <;> first | exact hrefused | exact hrefused.elim
    · obtain ⟨⟨g', hacc, hmap⟩, hold, -, -, hfree⟩ := h'
      rw [hnone, Option.bind_none] at hold
      subst hold
      exact ⟨⟨g', hacc, hmap⟩, hnone, hfree⟩

/-- Unmapping a page hands over the reference that the leaf held. -/
theorem remove_ends {va : VirtAddr} {r : Nat} (h : Accounted g held f) (hr : g.IsRoot r) :
    Ends (remove (pageAt r) va) f (fun res f' =>
      match res with
      | .ok page => Accounted g (page.number :: held) f' ∧
          Remapped r (Function.update (f.memory.mapped r) va.page none) g f g f' ∧
          (f.memory.mapped r va.page).bind Entry.frame? = some page ∧
          (∀ c, f'.count c = f.count c)
      | .error cause => f' = f ∧ (va.isAligned = false ∧ cause = .unaligned ∨
          f.memory.mapped r va.page = none ∧ cause = .notExist)) E := by
  apply remove_steps h.fits.toTrees hr
  · rintro cause (⟨rfl, ha⟩ | ⟨rfl, -, hm⟩)
    · exact ⟨rfl, .inl ⟨ha, rfl⟩⟩
    · exact ⟨rfl, .inr ⟨hm, rfl⟩⟩
  · intro _ q page hq hp hframe
    have hs := mod_slots_lt va.page
    refine ⟨h.clearLeaf hq hs hp, ⟨.setLeaf h.fits hq hs _, hr, ?_, .inl⟩, hframe, fun _ => rfl⟩
    rw [Frames.memory_setSlot, h.fits.mapped_setLeaf hq hs _, Nat.div_add_mod,
      Entry.page?_eq_none.mp Entry.page?_empty, if_neg (by decide)]

theorem remove_touches {va : VirtAddr} {r : Nat} {S : Nat → Prop} (h : g.Trees f.memory)
    (hr : g.IsRoot r) : Ends (remove (pageAt r) va) f (fun _ f' => Touched r S g f g f') E := by
  apply remove_steps h hr
  · exact fun _ _ => .refl _ _ _ _
  · exact fun _ q page hq _ _ => .setSlot ⟨_, _, hq⟩ (mod_slots_lt va.page)

omit [Addressable n] in
theorem new?_ends (h : Accounted g held f) :
    Ends new? f (fun res f' =>
      match res with
      | none => f' = f ∧ f.freePages = 0
      | some t => (∃ g', Accounted g' held f' ∧ Remapped t.root.number (fun _ => none) g f g' f' ∧
          Grown t.root.number (fun _ => 0) g f g' f') ∧ ¬ g.IsRoot t.root.number ∧
          f.freePages = f'.freePages + 1) E := by
  unfold new?
  refine .bind .allocFilled ?_
  intro found f1 h1
  rcases found with _ | ref
  · exact .pure h1
  · have h1 : Frames.HandedOutFull 0 f ref.number f1 := h1
    have hfree := h.of_count_zero h1.lt h1.count_zero
    have hacc := h.handedOut h1.toHandedOut
    have hv : f1.memory.Vacant ref.number := fun s hs => by
      rw [Memory.slot_of_zeros hs h1.fill]
      exact Entry.page?_empty
    have hroot := hacc.newRoot (by rw [h1.count, if_pos rfl]) hv
    have hr : Shape.IsRoot (Function.update g ref.number (some ⟨ref.number, 3, 0⟩)) ref.number :=
      Function.update_self ..
    refine .pure ⟨⟨_, hroot, ⟨?_, hr, ?_, fun hq => ?_⟩, ?_⟩, fun hr => ?_, h1.freePages⟩
    · exact (Kept.of_in_use h h1.byte_in_use).trans (.newRoot hfree.1 hv h1.allocatable)
    · exact hroot.fits.mapped_of_vacant hr hv
    · rcases Shape.placed_cases hq with ⟨-, hplace⟩ | ⟨-, hq⟩
      · cases hplace
        exact .inr (.inl rfl)
      · exact .inl hq
    · have hgrown : Grown ref.number (fun _ => 0) g f g f1 :=
        .of_in_use (fun _ hq => h1.count_in_use hq) h1.byte_in_use
      exact ⟨hgrown.toTouched.trans (.placed h1.count_zero) fun _ => id, hgrown.count⟩
    · cases hfree.1.symm.trans hr

omit [Addressable n] in
/-- With two free pages a new page table is made, and a page is handed out next. -/
theorem exists_new_page (h : Accounted g [] f) (hfree : 2 ≤ f.freePages) :
    ∃ (t : PageTable) (c : Nat) (g' : Shape) (f₁ f' : Frames n),
    new? f = .ok (some t) f₁ ∧ Accounted g' [] f₁ ∧
    Remapped t.root.number (fun _ => none) g f g' f₁ ∧ Grown t.root.number (fun _ => 0) g f g' f₁ ∧
    ¬ g.IsRoot t.root.number ∧ Frames.HandedOutFull allocFill f₁ c f' ∧
    f.freePages = f'.freePages + 2 := by
  obtain ⟨found, f₁, hnew, h1⟩ := (new?_ends h (E := fun _ => False)).ok
  cases found with
  | none => exact absurd h1.2 (by omega)
  | some t =>
    obtain ⟨⟨g', hacc, hmap, hgrown⟩, hroot, hfree1⟩ := h1
    obtain ⟨page, f', -, h2⟩ := (Ends.alloc (f := f₁) (E := fun _ => False)).ok
    cases page with
    | none => exact absurd h2.2 (by omega)
    | some page =>
      have h2 : Frames.HandedOutFull allocFill f₁ page.number f' := h2
      have hfree2 := h2.freePages
      exact ⟨t, page.number, g', f₁, f', hnew, hacc, hmap, hgrown, hroot, h2, by omega⟩

omit [Addressable n] in
/-- With two free pages there is a new page table, and a page to be mapped by it. -/
theorem exists_new (h : Accounted g [] f) (hfree : 2 ≤ f.freePages) :
    ∃ (t : PageTable) (c : Nat) (g' : Shape) (f' : Frames n),
    Accounted g' [c] f' ∧ Remapped t.root.number (fun _ => none) g f g' f' ∧
    ¬ g.IsRoot t.root.number ∧ f.count c = 0 ∧
    (∀ a, a / pageSize = c → f'.memory.byte a = allocFill) ∧ f.freePages = f'.freePages + 2 := by
  obtain ⟨t, c, g', f₁, f', -, hacc, hmap, hgrown, hroot, ho, hfree'⟩ := exists_new_page h hfree
  have hkept : Kept (fun _ => True) g' f₁ g' f' := .of_in_use hacc ho.byte_in_use
  exact ⟨t, c, g', f', hacc.handedOut ho.toHandedOut,
    ⟨hmap.kept.trans (hkept.mono fun _ _ => trivial), hmap.isRoot,
      (hkept.mapped trivial hmap.isRoot).trans hmap.mapped, hmap.tables⟩,
    hroot, hgrown.count_zero ho.count_zero, ho.fill, hfree'⟩

end

end PageTable

end PagedKernel
