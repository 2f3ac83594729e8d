import PagedKernel.Proofs.Coincide
import PagedKernel.Proofs.Spaces.Teardown
import PagedKernel.Proofs.Spaces.Untouched

/-!
# Frames that differ in free pages

Two frames are twins if they differ in nothing but what free pages hold. The allocator chooses the
same page of both, and fills it when it hands it out. Whoever follows a page table reads tables, and
these are in use as long as the references are accounted for. So no operation on page tables can
tell twins apart: it ends alike on both, and leaves twins.

Key definition: `Frames.Twin`.
Key theorems: `Coincide.allocFilled`, `Accounted.mapped_twin`, `PageTable.install_coincide`,
`PageTable.remove_coincide`, `PageTable.destroy_coincide`.
-/

namespace PagedKernel

variable {n : Nat}

namespace Frames

/-- `f'` differs from `f` in nothing but what free pages hold. -/
structure Twin (f f' : Frames n) : Prop extends SameUse f f' where
  cursor : f'.cursor = f.cursor

namespace Twin

variable {f f' : Frames n}

theorem refl (f : Frames n) : f.Twin f :=
  ⟨⟨fun _ => rfl, fun _ _ => rfl⟩, rfl⟩

/-- The search for a free page finds the same one. -/
theorem findFree (h : f.Twin f') : f'.findFree = f.findFree := by
  have hfree : ∀ q, f'.isFree q = f.isFree q := fun q => by
    unfold Frames.isFree
    rw [h.count]
    rfl
  unfold Frames.findFree
  simp only [hfree, h.cursor]

theorem setCount (h : f.Twin f') {pn : Nat} (hlt : pn < n) (h0 : f.count pn ≠ 0) (c : Nat) :
    (f.setCount pn c hlt).Twin (f'.setCount pn c hlt) := by
  refine ⟨⟨fun q => ?_, fun a ha => h.byte a ?_⟩, h.cursor⟩
  · rw [count_setCount, count_setCount, h.count]
  · rw [count_setCount] at ha
    split at ha
    · next heq => exact heq ▸ h0
    · exact ha

/-- Both memories change, and still have the bytes of the pages in use in common. -/
theorem setMemory (h : f.Twin f') {m m' : Memory n}
    (hm : ∀ a, f.count (a / pageSize) ≠ 0 → m'.byte a = m.byte a) :
    Twin { f with memory := m } { f' with memory := m' } :=
  ⟨⟨h.count, hm⟩, h.cursor⟩

/-- A byte of a free page may be any other. -/
theorem putByte (f : Frames n) {a : Nat} (h0 : f.count (a / pageSize) = 0) (v : UInt8) :
    f.Twin { f with memory := f.memory.putByte a v } := by
  refine (refl f).setMemory fun b hb => ?_
  rw [Memory.byte_putByte, if_neg]
  rintro ⟨rfl, -⟩
  exact hb h0

end Twin

end Frames

/-! ### The operations on frames -/

namespace Coincide

variable {f f' : Frames n}

theorem allocFilled (h : f.Twin f') (v : UInt8) :
    Coincide Frames.Twin (Frames.allocFilled v) f f' := by
  have hfind := h.findFree
  cases hf : f.findFree with
  | none =>
    have hok : ∀ {f1 : Frames n}, f1.findFree = none → Frames.allocFilled v f1 = .ok none f1 := by
      intro f1 h1
      unfold Frames.allocFilled
      rw [h1]
    exact .ok (hok hf) (hok (hfind.trans hf)) h
  | some pn =>
    have hlt : pn < n := ((f.isFree_iff pn).mp (Frames.findFree_some hf)).2.1
    have hok : ∀ {f1 : Frames n}, f1.findFree = some pn → Frames.allocFilled v f1 =
        .ok (some ⟨pn⟩) { (f1.setCount pn 1 hlt).refill pn v hlt with cursor := (pn + 1) % n } := by
      intro f1 h1
      unfold Frames.allocFilled
      rw [h1]
      exact dif_pos hlt
    refine .ok (hok hf) (hok (hfind.trans hf)) ⟨⟨fun q => ?_, fun a ha => ?_⟩, rfl⟩
    · show (f'.setCount pn 1 hlt).count q = (f.setCount pn 1 hlt).count q
      rw [Frames.count_setCount, Frames.count_setCount, h.count]
    · have ha : (f.setCount pn 1 hlt).count (a / pageSize) ≠ 0 := ha
      show (f'.memory.setPage pn _ hlt).byte a = (f.memory.setPage pn _ hlt).byte a
      -- the page handed out is filled alike, and any other in use was so before
      rw [Memory.byte_fillPage, Memory.byte_fillPage]
      by_cases hpn : a / pageSize = pn
      · rw [if_pos hpn, if_pos hpn]
      · rw [if_neg hpn, if_neg hpn]
        rw [Frames.count_setCount, if_neg hpn] at ha
        exact h.byte a ha

theorem alloc (h : f.Twin f') (size : Nat) : Coincide Frames.Twin (Frames.alloc size) f f' :=
  .ite (fun _ => .pure h) fun _ => .allocFilled h _

theorem release (h : f.Twin f') (ref : FrameRef) :
    Coincide Frames.Twin (Frames.release ref) f f' := by
  by_cases hlt : ref.number < n
  · have hs := f.release_eq hlt
    have ht := f'.release_eq hlt
    rw [h.count] at ht
    by_cases h0 : f.count ref.number = 0
    · rw [if_pos h0] at hs ht
      exact .halt hs ht h
    · rw [if_neg h0] at hs ht
      exact .ok hs ht (h.setCount hlt h0 _)
  · exact .halt (dif_neg hlt) (dif_neg hlt) h

theorem share (h : f.Twin f') (pa : PhysAddr) : Coincide Frames.Twin (Frames.share pa) f f' := by
  by_cases hlt : pa.pageNumber < n
  · have hs := f.share_eq hlt
    have ht := f'.share_eq hlt
    rw [h.count] at ht
    by_cases h0 : f.count pa.pageNumber = 0
    · rw [if_pos h0] at hs ht
      exact .halt hs ht h
    · rw [if_neg h0] at hs ht
      by_cases hmax : f.count pa.pageNumber = maxCount
      · rw [if_pos hmax] at hs ht
        exact .halt hs ht h
      · rw [if_neg hmax] at hs ht
        exact .ok hs ht (h.setCount hlt h0 _)
  · exact .halt (dif_neg hlt) (dif_neg hlt) h

/-- The same bytes are put into both memories, or both refuse them. -/
theorem putBytes (h : f.Twin f') {change : Memory n → Except Halt (Memory n)}
    (hchange : (∃ a data, ∀ m, change m = .ok (m.putBytes a data)) ∨
      ∃ e, ∀ m, change m = .error e) :
    Coincide Frames.Twin (Frames.modifyMemory change) f f' := by
  rcases hchange with ⟨a, data, hok⟩ | ⟨e, herror⟩
  · refine .ok (Frames.modifyMemory_ok (hok _)) (Frames.modifyMemory_ok (hok _)) ?_
    exact h.setMemory fun b hb => Memory.byte_putBytes_congr data (h.byte b hb) a
  · have hhalt : ∀ f1 : Frames n, Frames.modifyMemory change f1 = .error e f1 := fun f1 => by
      unfold Frames.modifyMemory
      rw [herror]
    exact .halt (hhalt f) (hhalt f') h

theorem writeBytes (h : f.Twin f') (pa : PhysAddr) (data : List UInt8) :
    Coincide Frames.Twin (Frames.modifyMemory (·.writeBytes pa data)) f f' := by
  refine .putBytes h ?_
  by_cases hin : pa.toNat + data.length ≤ n * pageSize
  · exact .inl ⟨_, _, fun m => if_pos (decide_eq_true hin)⟩
  · exact .inr ⟨_, fun m => if_neg fun h => hin (of_decide_eq_true h)⟩

theorem writeEntry (h : f.Twin f') (table : PhysAddr) (slot : Nat) (e : Entry) :
    Coincide Frames.Twin (Frames.writeEntry table slot e) f f' := by
  refine .putBytes h ?_
  unfold Memory.writeEntry
  by_cases hslot : slot < slotsPerTable
  · simp only [if_pos hslot]
    cases table.add (UInt64.ofNat (8 * slot)) with
    | error e => exact .inr ⟨e, fun _ => rfl⟩
    | ok addr =>
      by_cases hin : addr.toNat + 8 ≤ n * pageSize
      · exact .inl ⟨_, _, fun m => if_pos (decide_eq_true hin)⟩
      · exact .inr ⟨_, fun m => if_neg fun h => hin (of_decide_eq_true h)⟩
  · simp only [if_neg hslot]
    exact .inr ⟨_, fun _ => rfl⟩

end Coincide

/-! ### What the tables say -/

namespace Accounted

variable {g : Shape} {held : List Nat} {f f' : Frames n}

theorem twin (h : Accounted g held f) (ht : f.Twin f') : Accounted g held f' :=
  h.sameUse ht.toSameUse

theorem slot_twin (h : Accounted g held f) (ht : f.Twin f') {q s : Nat} (hq : g q ≠ none)
    (hs : s < 512) : f'.memory.slot q s = f.memory.slot q s :=
  slot_congr (fun a ha => ht.byte a (h.table_in_use ha)) q hq s hs

/-- The spaces of twins map the same. -/
theorem mapped_twin (h : Accounted g held f) (ht : f.Twin f') {r : Nat} (hr : g.IsRoot r) :
    f'.memory.mapped r = f.memory.mapped r :=
  (h.sameSpace ht.byte hr).mapped

theorem reach_twin (h : Accounted g held f) (ht : f.Twin f') {r v : Nat} (hr : g.IsRoot r) :
    f'.memory.reach v 3 r = f.memory.reach v 3 r :=
  Memory.SameBelow.reach (h.sameSpace ht.byte hr)

section
variable [Addressable n] {t : PageTable}

/-- A walk finds the same on twins. -/
theorem walk_twin (h : Accounted g held f) (ht : f.Twin f') (hr : g.IsRoot t.root.number)
    (va : VirtAddr) : t.walk f'.memory va = t.walk f.memory va :=
  (h.sameSpace ht.byte hr).walk h.fits (h.twin ht).fits hr hr va

theorem mappings_twin (h : Accounted g held f) (ht : f.Twin f') (hr : g.IsRoot t.root.number)
    {lo hi : Nat} (hhi : hi ≤ 2 ^ 47) :
    t.mappings f'.memory lo hi = t.mappings f.memory lo hi := by
  rw [(h.twin ht).fits.mappings_eq hr hhi, h.fits.mappings_eq hr hhi,
    (h.sameSpace ht.byte hr).leaves]

theorem tableNumbers_twin (h : Accounted g held f) (ht : f.Twin f')
    (hr : g.IsRoot t.root.number) : t.tableNumbers f'.memory = t.tableNumbers f.memory :=
  (h.sameSpace ht.byte hr).tableNumbers h.fits (h.twin ht).fits hr hr

end

end Accounted

/-! ### The operations on page tables -/

variable {g : Shape} {held : List Nat} {f f' : Frames n}

section
variable [Addressable n]

theorem Coincide.readEntry_bind {α : Type} {q s : Nat} {k : Entry → FramesM n α}
    (h : Accounted g held f) (ht : f.Twin f') (hq : g q ≠ none) (hs : s < 512)
    (hk : Coincide Frames.Twin (k (f.memory.slot q s)) f f') :
    Coincide Frames.Twin (Frames.readEntry (pageAt q) s >>= k) f f' := by
  obtain ⟨p, hp⟩ := Option.ne_none_iff_exists'.mp hq
  have hn := h.fits.installed hp
  refine .step (Frames.readEntry_pageAt hn hs) ?_ hk
  rw [← h.slot_twin ht hq hs]
  exact Frames.readEntry_pageAt hn hs

end

namespace PageTable

theorem new?_coincide (ht : f.Twin f') : Coincide Frames.Twin new? f f' :=
  .bind (.allocFilled ht 0) fun _ _ _ ht => .pure ht

theorem releaseAll_coincide (l : List FrameRef) (ht : f.Twin f') :
    Coincide Frames.Twin (l.forM Frames.release) f f' :=
  .forM (I := fun _ => True) l f f' trivial ht (fun _ _ _ _ => .of_any)
    fun ref _ _ _ _ ht => .release ht ref

/-- A page that cannot be mapped is given back. -/
theorem refuse_coincide {α : Type} (page : FrameRef) (cause : MapError) (ht : f.Twin f') :
    Coincide Frames.Twin (do
      Frames.release page
      return .error cause : FramesM n (Except MapError α)) f f' :=
  .bind (.release ht page) fun _ _ _ ht1 => .pure ht1

theorem takeTables_coincide : ∀ (k : Nat) (taken : List FrameRef) {f f' : Frames n}, f.Twin f' →
    Coincide Frames.Twin (takeTables k taken) f f'
  | 0, _, _, _, ht => .pure ht
  | k + 1, taken, _, _, ht => by
    refine .bind (.allocFilled ht 0) fun found f1 f1' ht1 => ?_
    cases found with
    | some ref => exact takeTables_coincide k (taken ++ [ref]) ht1
    | none => exact .bind (releaseAll_coincide taken ht1) fun _ _ _ ht2 => .pure ht2

theorem hangTables_coincide (va : VirtAddr) : ∀ (fresh : List FrameRef) (table : PhysAddr)
    {f f' : Frames n}, f.Twin f' → Coincide Frames.Twin (hangTables va table fresh) f f'
  | [], _, _, _, ht => .pure ht
  | ref :: rest, _, _, _, ht =>
    .bind (.writeEntry ht ..) fun _ _ _ ht1 => hangTables_coincide va rest ref.pa ht1

section
variable [Addressable n] {r c : Nat} {t : PageTable} {va : VirtAddr} {perm : Permission}

/-- **Mapping a page**, where another one may be mapped. -/
theorem install_coincide (va : VirtAddr) (page : FrameRef) (perm : Permission)
    (h : Accounted g held f) (hr : g.IsRoot r) (ht : f.Twin f') :
    Coincide Frames.Twin (install (pageAt r) va page perm) f f' := by
  unfold install
  refine .ite (fun _ => refuse_coincide page _ ht) fun _ => ?_
  refine .ite (fun _ => refuse_coincide page _ ht) fun _ => ?_
  have hdescend := h.fits.descend_eq va hr
  have hdescend' := (h.twin ht).fits.descend_eq va hr
  rw [h.reach_twin ht hr] at hdescend'
  refine .step (Frames.read_ok hdescend) (Frames.read_ok hdescend') ?_
  refine .bind_ends (takeTables_coincide _ [] ht) (takeTables_ends f _ [] f (.nil f)) ?_
  intro found f1 f1' h1 ht1
  rcases found with _ | fresh
  · exact refuse_coincide page _ ht1
  obtain ⟨htaken, hlen⟩ := h1
  rw [List.length_nil, Nat.zero_add] at hlen
  refine .bind_ends (hangTables_coincide va fresh _ ht1) (hangTaken_ends h hr htaken hlen) ?_
  intro table f2 f2' hpost ht2
  obtain ⟨g2, q2, rfl, h2, -, hq2, -⟩ := hpost
  rw [va.index_zero]
  refine .readEntry_bind h2 ht2 (hq2 ▸ Option.some_ne_none _) (mod_slots_lt _) ?_
  exact .bind (.writeEntry ht2 ..) fun _ _ _ ht3 => .pure ht3

theorem map_coincide (va : VirtAddr) (page : FrameRef) (perm : Permission)
    (h : Accounted g held f) (hr : g.IsRoot t.root.number) (ht : f.Twin f') :
    Coincide Frames.Twin (t.map va page perm) f f' := by
  unfold map
  refine .ite (fun _ => refuse_coincide page _ ht) fun _ => ?_
  have hwalk := h.fits.walk_eq t va hr
  refine .step (Frames.read_ok hwalk) (Frames.read_ok ((h.walk_twin ht hr va).trans hwalk)) ?_
  refine .ite (fun _ => refuse_coincide page _ ht) fun _ => ?_
  exact .bind (install_coincide va page perm h hr ht) fun _ _ _ ht1 => .pure ht1

theorem remove_coincide (va : VirtAddr) (h : Accounted g held f) (hr : g.IsRoot r)
    (ht : f.Twin f') : Coincide Frames.Twin (remove (pageAt r) va) f f' := by
  unfold remove
  refine .ite (fun _ => .pure ht) fun _ => ?_
  have hleaf := h.fits.leafTable?_eq va hr
  have hleaf' := (h.twin ht).fits.leafTable?_eq va hr
  rw [h.reach_twin ht hr] at hleaf'
  refine .step (Frames.read_ok hleaf) (Frames.read_ok hleaf') ?_
  have hplace := (h.fits.reach_place (Shape.Trees.root_place hr va.page_lt)).1
  split
  · exact .pure ht
  · next htable =>
    split at htable
    · obtain rfl := Option.some.inj htable
      rw [va.index_zero]
      refine .readEntry_bind h ht (hplace ▸ Option.some_ne_none _) (mod_slots_lt _) ?_
      split
      · exact .pure ht
      · exact .bind (.writeEntry ht ..) fun _ _ _ ht1 => .pure ht1
    · cases htable

/-! ### Destruction -/

theorem releaseSlot_coincide {below : PhysAddr → FramesM n Unit} {q k : Nat}
    (h : Accounted g held f) (ht : f.Twin f') (hq : g q ≠ none) (hk : k < 512)
    (hbelow : ∀ c, (f.memory.slot q k).page? = some c →
      Coincide Frames.Twin (below (pageAt c)) f f') :
    Coincide Frames.Twin (releaseSlot below (pageAt q) k) f f' := by
  refine .readEntry_bind h ht hq hk ?_
  cases hp : (f.memory.slot q k).page? with
  | none =>
    rw [Entry.frame?_of_page?_none hp]
    exact .pure ht
  | some c =>
    have hc := lt_trans (Entry.page?_lt hp) (by decide : (2 : Nat) ^ 40 < 2 ^ 52)
    rw [Entry.frame?_of_page? hp hc]
    refine .bind (hbelow c hp) fun _ _ _ ht1 => ?_
    exact .bind (.writeEntry ht1 ..) fun _ _ _ ht2 => .release ht2 _

theorem releaseTable_coincide {r l : Nat} : ∀ {q i : Nat} {g : Shape} {f f' : Frames n},
    Accounted g held f → g q = some ⟨r, l, i⟩ → f.Twin f' →
    Coincide Frames.Twin (releaseTable l (pageAt q)) f f' := by
  induction l with
  | zero =>
    intro q i g f f' h hq ht
    rw [releaseTable_zero]
    refine .forM_range (I := fun k f1 => Accounted g held f1 ∧ Emptied r 0 q k g f g f1) 512 0 f f'
      ⟨h, .refl _ _ _ _ _⟩ ht (fun k f1 hk hI => ?_) fun k f1 f1' hk hI ht1 => ?_
    · exact releaseLeafSlot_ends hq (Nat.zero_add 512 ▸ hk) hI.1 hI.2
    · exact releaseSlot_coincide hI.1 ht1 (hq ▸ Option.some_ne_none _) (Nat.zero_add 512 ▸ hk)
        fun _ _ => .pure ht1
  | succ l ih =>
    intro q i g f f' h hq ht
    rw [releaseTable_succ]
    refine .forM_range (I := fun k f1 => ∃ g1, Accounted g1 held f1 ∧
      Emptied r (l + 1) q k g f g1 f1) 512 0 f f' ⟨g, h, .refl _ _ _ _ _⟩ ht
      (fun k f1 hk hI => ?_) fun k f1 f1' hk hI ht1 => ?_
    · obtain ⟨g1, h1, he⟩ := hI
      exact releaseInnerSlot_ends hq (Nat.zero_add 512 ▸ hk) h1 he fun c hc =>
        releaseTable_ends h1 hc
    · obtain ⟨g1, h1, he⟩ := hI
      have hk : k < 512 := Nat.zero_add 512 ▸ hk
      have hq1 : g1 q = some ⟨r, l + 1, i⟩ := he.table.trans hq
      exact releaseSlot_coincide h1 ht1 (hq1 ▸ Option.some_ne_none _) hk fun c hc =>
        ih h1 (h1.fits.child hq1 hk hc) ht1

/-- **Destroying a page table.** -/
theorem destroy_coincide (h : Accounted g held f) (hr : g.IsRoot t.root.number) (ht : f.Twin f') :
    Coincide Frames.Twin t.destroy f f' :=
  .bind (releaseTable_coincide h hr ht) fun _ _ _ ht1 => .release ht1 _

end

end PageTable

end PagedKernel
