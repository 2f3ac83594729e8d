import PagedKernel.Proofs.Kernel.NullPage
import PagedKernel.Proofs.Kernel.Reachable
import PagedKernel.Proofs.Process.Access

/-!
# Duplicating a process

The child of a process is an exact copy. It has the registers of its parent but for the result, and
maps what that maps, with the same flags. What a user can write is in pages of the child's own,
which were free and hold the same bytes now; all other pages are shared, and counted once more for
each place where they are. Nothing else that was in use is any different.

Key definitions: `Copied`, `Kernel.OwnCopy`.
Key theorem: `Kernel.Reachable.fork_exact`.
-/

namespace PagedKernel

/-- The page that the leaf `e` maps at `va` is one that a user can write, or the console's. -/
def Copied (va : VirtAddr) (e : Entry) : Prop :=
  (e.writable = true ∧ e.user = true) ∨ va.page = consolePage

instance (va : VirtAddr) (e : Entry) : Decidable (Copied va e) :=
  inferInstanceAs (Decidable (_ ∨ _))

/-- At the address of the console a process can write. -/
theorem LeafAllowed.userData_of_console {e : Entry} (h : LeafAllowed consolePage e) :
    e.writable = true ∧ e.user = true := by
  obtain ⟨c, perm, hlt, rfl, hleaf⟩ := h
  rw [Entry.writable_link hlt, Entry.user_link hlt]
  generalize hv : consolePage = v at hleaf
  cases hleaf with
  | kernel _ _ hne => exact absurd hv.symm hne
  | console _ => exact ⟨rfl, rfl⟩
  | user hv1 _ _ _ =>
    rw [← hv] at hv1
    exact absurd hv1 (by decide)

/-- The leaves that are copied for a child are those that the user can write, and the console's. -/
theorem LeafAllowed.copied_iff {va : VirtAddr} {e : Entry} (h : LeafAllowed va.page e) :
    isCopiedLeaf (va.page, e) = true ↔ Copied va e :=
  isCopiedLeaf_iff (lt_trans h.page_lt (by decide)) h.present

theorem LeafAllowed.page_mappingOf {p : Nat × Entry} (h : LeafAllowed p.1 p.2) :
    (mappingOf p).1.page = p.1 :=
  VirtAddr.page_ofPage (lt_trans h.page_lt (by decide))

theorem LeafAllowed.copied_mappingOf {p : Nat × Entry} (h : LeafAllowed p.1 p.2) :
    isCopiedLeaf p = true ↔ Copied (mappingOf p).1 (mappingOf p).2 := by
  have hpage := h.page_mappingOf
  rw [← hpage] at h
  rw [mappingOf] at hpage h ⊢
  rw [← h.copied_iff, hpage]

/-- The leaves that share a page with a child are found in the listing of what the parent maps. -/
theorem sharesOf_eq {l : List (Nat × Entry)} (h : ∀ p ∈ l, LeafAllowed p.1 p.2) (q : Nat) :
    sharesOf l q =
      (l.map mappingOf).countP fun m => ¬ Copied m.1 m.2 ∧ m.2.addr.pageNumber = q := by
  rw [sharesOf, List.countP_map]
  refine List.countP_congr fun p hp => ?_
  rw [Bool.and_eq_true, Bool.not_eq_true', beq_iff_eq, ← Bool.not_eq_true, (h p hp).copied_mappingOf]
  exact decide_eq_true_iff.symm

theorem countP_isCopiedLeaf {l : List (Nat × Entry)} (h : ∀ p ∈ l, LeafAllowed p.1 p.2) :
    l.countP isCopiedLeaf = (l.map mappingOf).countP fun m => Copied m.1 m.2 := by
  rw [List.countP_map]
  refine List.countP_congr fun p hp => ?_
  rw [(h p hp).copied_mappingOf]
  exact decide_eq_true_iff.symm

namespace Kernel

variable {k : Kernel} {loader : Loader} {parent child : Pid} {t : PageTable}
  {s : Userland physicalPages}

/-- The page of the leaf `e'`, which the space `t'` maps at `va`, was free in `k`. In `s` it is
mapped there only, and holds what the page of the leaf `e` holds in `k`. -/
structure OwnCopy (k : Kernel) (s : Userland physicalPages) (t' : PageTable) (va : VirtAddr)
    (e e' : Entry) : Prop where
  free : k.frames.isFree e'.addr.pageNumber = true
  count : s.frames.count e'.addr.pageNumber = 1
  unique : ∀ va2 e2, t'.walk s.frames.memory va2 = .ok (some e2) →
    e2.addr.pageNumber = e'.addr.pageNumber → va2.page = va.page
  byte : ∀ o < pageSize, s.frames.memory.byte (e'.addr.pageNumber * pageSize + o) =
    k.frames.memory.byte (e.addr.pageNumber * pageSize + o)

theorem OwnCopy.of_copyOf {kernel : PageTable} {g : Shape} {t' : PageTable} {va : VirtAddr}
    {e e' : Entry} (hg : Userland.Sound kernel g s) (ht' : s.procs.table? child = some t')
    (hm' : s.frames.memory.mapped t'.root.number va.page = some e')
    (hallowed : LeafAllowed va.page e) (hcopy : CopyOf va.page e e')
    (hcopied : isCopiedLeaf (va.page, e) = true) (hdup : Duplicates k.frames s.frames e e') :
    OwnCopy k s t' va e e' := by
  have hmaps : g.Maps s.frames.memory t'.root.number va.page e' := ⟨hg.owns.isRoot ht', hm'⟩
  have hflags := hallowed.flags_copy hcopy
  have hwu : e'.writable = true ∧ e'.user = true := by
    have hwu : e.writable = true ∧ e.user = true := by
      rcases hallowed.copied_iff.mp hcopied with hwu | hv
      · exact hwu
      · exact (hv ▸ hallowed).userData_of_console
    exact ⟨(congrArg Flags.writable hflags).trans hwu.1, (congrArg Flags.user hflags).trans hwu.2⟩
  have hall : Allocatable e'.addr.pageNumber := by
    obtain ⟨c, hlt, rfl, hc⟩ := hcopy
    rw [Entry.pageNumber_link hlt]
    exact (if_pos hcopied).mp hc
  have hne : e'.addr.pageNumber ≠ consolePage := fun hc => by
    rw [hc] at hall
    exact absurd (allocatable_iff.mp hall) (by decide)
  have hsole := hg.sole hmaps hwu.1 hwu.2 hne
  refine ⟨(k.frames.isFree_iff _).mpr ⟨hall, (hg.accounted.fits.mapped_target hmaps.1 hm').2,
    hdup.free⟩, hg.accounted.count_sole hsole hmaps, fun va2 e2 hm2 hpage => ?_, hdup.byte⟩
  rw [hg.accounted.fits.walk_eq t' va2 hmaps.1, Except.ok.injEq] at hm2
  refine (hsole ⟨hmaps.1, hm2⟩ ?_).2
  rw [e2.addr_eq_pageAt, hpage, ← e'.addr_eq_pageAt]

/-- **The child of a process is an exact copy.** -/
theorem Reachable.fork_exact (h : Reachable loader k) (ht : k.procs.table? parent = some t)
    (hok : Userland.fork parent k.toUserland = .ok (.ok child) s) :
    (child ≠ parent ∧ 1 ≤ child ∧ child < procCount ∧ k.procs.state child = .free ∧
      ∀ q : Pid, 1 ≤ q → q < child → k.procs.state q ≠ .free) ∧
    (∀ q, q ≠ child → s.procs.slot q = k.procs.slot q) ∧
    (∀ va, t.walk s.frames.memory va = t.walk k.frames.memory va) ∧
    (∀ a, k.frames.count (a / pageSize) ≠ 0 → s.frames.memory.byte a = k.frames.memory.byte a) ∧
    (∃ l, t.mappings k.frames.memory 0 virtualSize = .ok l ∧
      ∀ q, k.frames.count q ≠ 0 → s.frames.count q = k.frames.count q +
        l.countP fun m => ¬ Copied m.1 m.2 ∧ m.2.addr.pageNumber = q) ∧
    ∃ t', s.procs.slot child = ⟨.runnable, { (k.procs.slot parent).regs with rax := 0 }, some t'⟩ ∧
      (∀ va, t.walk k.frames.memory va = .ok none → t'.walk s.frames.memory va = .ok none) ∧
      ∀ va e, t.walk k.frames.memory va = .ok (some e) →
        ∃ e', t'.walk s.frames.memory va = .ok (some e') ∧ e'.flags = e.flags ∧
          if Copied va e then OwnCopy k s t' va e e' else e'.addr = e.addr := by
  obtain ⟨g, hg⟩ := h.sound.userland
  have hparent := ProcessTable.lt_of_table? ht
  have hends := Userland.fork_ends (E := fun _ => True) hg hparent (by decide) fun _ => trivial
  obtain ⟨⟨g', hg'⟩, -, hforked⟩ := hends.eq_ok hok
  obtain ⟨hfirst, hother, t1, t', ht1, hslot, hmapped, hcount, hbyte⟩ := hforked
  obtain rfl : t1 = t := Option.some.inj (ht1.symm.trans ht)
  have hr := hg.owns.isRoot ht
  have hchild : s.procs.table? child = some t' := by rw [ProcessTable.table?_eq, hslot]
  have hr' := hg'.owns.isRoot hchild
  have hkept : Kept (fun _ => True) g k.frames g s.frames := .of_in_use hg.accounted hbyte
  have hwalk : ∀ va, t1.walk k.frames.memory va = .ok _ := fun va =>
    hg.accounted.fits.walk_eq t1 va hr
  have hwalk' : ∀ va, t'.walk s.frames.memory va = .ok _ := fun va =>
    hg'.accounted.fits.walk_eq t' va hr'
  have hallowed : ∀ {v e}, k.frames.memory.mapped t1.root.number v = some e → LeafAllowed v e :=
    fun hm => hg.spaces.leaf (hg.owns.ne ht) ⟨hr, hm⟩
  obtain ⟨hc1, hc2, hfree⟩ := ProcessTable.firstFree_spec hfirst
  have hne : child ≠ parent := fun heq => hg.owns.live ht (heq ▸ hfree)
  have hlist := hg.spaces.mappings_eq hg.accounted.fits hr (hg.owns.ne ht)
  refine ⟨⟨hne, hc1, hc2, hfree, fun q => ProcessTable.firstFree_min hfirst⟩, hother, fun va => ?_,
    hbyte, ⟨_, hlist, fun q hq => ?_⟩, t', hslot, fun va hm => ?_, fun va e hm => ?_⟩
  · have hfits : g.Fits s.frames.memory := hg.accounted.fits.congr
      (Accounted.slot_congr fun a ha => hbyte a (hg.accounted.table_in_use ha))
    rw [hwalk, hfits.walk_eq t1 va hr, hkept.mapped trivial hr]
  · rw [hcount q hq, sharesOf_eq fun p hp => hallowed (PageTable.mem_leaves.mp hp)]
  · rw [hwalk, Except.ok.injEq] at hm
    have hcase := hmapped va.page
    rw [hm] at hcase
    rw [hwalk', hcase]
  · rw [hwalk, Except.ok.injEq] at hm
    have hcase := hmapped va.page
    rw [hm] at hcase
    obtain ⟨e', hm', hcopy, hdup⟩ := hcase
    refine ⟨e', by rw [hwalk', hm'], (hallowed hm).flags_copy hcopy, ?_⟩
    split
    · next hc =>
      have hc := (hallowed hm).copied_iff.mpr hc
      exact .of_copyOf hg' hchild hm' (hallowed hm) hcopy hc (hdup hc)
    · next hc =>
      obtain ⟨c, hlt, rfl, hpage⟩ := hcopy
      rw [Entry.addr_link hlt]
      exact (if_neg fun h' => hc ((hallowed hm).copied_iff.mp h')).mp hpage

/-- With a free slot, it depends on the free pages whether a process is duplicated. -/
theorem Sound.fork_pays (h : Sound k) (ht : k.procs.table? parent = some t) {pid : Pid}
    (hpid : 1 ≤ pid) (hlt : pid < procCount) (hfree : k.procs.state pid = .free) :
    ∃ res s, Userland.fork parent k.toUserland = .ok res s ∧ res ≠ .error .noFreeSlot ∧
      Userland.ForkPays t res k.toUserland s := by
  obtain ⟨g, hg⟩ := h.userland
  have hends := Userland.fork_ends (E := fun _ => False) hg (ProcessTable.lt_of_table? ht)
    (by decide) fun hnone => nomatch ht.symm.trans hnone
  obtain ⟨res, s, hok, -, ⟨-, -, hpays⟩, hres⟩ := hends.ok
  refine ⟨res, s, hok, ?_, hpays t ht⟩
  rintro rfl
  exact absurd (hres.2.2.mp rfl) (ProcessTable.firstFree_ne_none hpid hlt hfree)

/-- **A process can be duplicated** if there is a free slot, a free page for each of its own pages,
and seven for tables. -/
theorem Sound.fork_ok (h : Sound k) (ht : k.procs.table? parent = some t) {pid : Pid}
    (hpid : 1 ≤ pid) (hlt : pid < procCount) (hfree : k.procs.state pid = .free)
    (hpages : (t.leaves k.frames.memory).countP isCopiedLeaf + 7 ≤ k.frames.freePages) :
    ∃ child s, Userland.fork parent k.toUserland = .ok (.ok child) s := by
  obtain ⟨res, s, hok, hne, hpays⟩ := h.fork_pays ht hpid hlt hfree
  obtain ⟨g, hg⟩ := h.userland
  have htables := hg.spaces.length_tables_le hg.accounted.fits (hg.owns.isRoot ht) (hg.owns.ne ht)
  cases res with
  | ok child => exact ⟨child, s, hok⟩
  | error cause =>
    cases cause with
    | noFreeSlot => exact absurd rfl hne
    | outOfMemory =>
      unfold Userland.ForkPays forkCost at hpays
      omega

/-- **A process cannot be duplicated** if there are fewer free pages than the child takes. -/
theorem Sound.fork_outOfMemory (h : Sound k) (ht : k.procs.table? parent = some t) {pid : Pid}
    (hpid : 1 ≤ pid) (hlt : pid < procCount) (hfree : k.procs.state pid = .free)
    (hpages : k.frames.freePages < forkCost t k.frames.memory) :
    ∃ s, Userland.fork parent k.toUserland = .ok (.error .outOfMemory) s := by
  obtain ⟨res, s, hok, hne, hpays⟩ := h.fork_pays ht hpid hlt hfree
  cases res with
  | ok child =>
    have hpays : k.frames.freePages = s.frames.freePages + forkCost t k.frames.memory := hpays
    omega
  | error cause =>
    cases cause with
    | noFreeSlot => exact absurd rfl hne
    | outOfMemory => exact ⟨s, hok⟩

/-- **A call of fork succeeds** if there is a free slot and memory enough. The registers of the call
are saved before, and the number of the child is put into them. -/
theorem Sound.syscall_fork_ok (h : Sound k) {regs : Registers}
    (hcall : SystemCall.ofRegisters? regs = some .fork) (ht : k.procs.table? k.current = some t)
    {pid : Pid} (hpid : 1 ≤ pid) (hlt : pid < procCount) (hfree : k.procs.state pid = .free)
    (hpages : (t.leaves k.frames.memory).countP isCopiedLeaf + 7 ≤ k.frames.freePages) :
    ∃ turn k' child g s0 s, syscall regs k = .ok turn k' ∧ Sound k' ∧
      Userland.Sound k.table g s0 ∧ s0.frames = k.frames ∧
      s0.procs = k.procs.set k.current { k.procs.slot k.current with regs } ∧
      Userland.Forked k.current child s0 s ∧ k'.frames = s.frames ∧
      k'.procs = s.procs.modify k.current fun p =>
        { p with regs := { p.regs with rax := UInt64.ofNat child } } := by
  have hp := h.current
  have hspace : k.procs.table? k.current ≠ none := fun hnone => nomatch ht.symm.trans hnone
  have hends := syscall_fork_ends (E := fun _ => False) h hcall hspace
  obtain ⟨turn, k', hok, hserves, g, s0, res, s, hs0, hframes0, hprocs0, hfork, hframes, hprocs⟩ :=
    hends.ok
  rw [ProcessTable.modify_eq _ hp] at hprocs0
  have ht0 : s0.procs.table? k.current = some t := by
    rw [hprocs0, ProcessTable.table?_set hp, if_pos rfl, ← ht, ProcessTable.table?_eq]
  have hne : pid ≠ k.current := by
    rintro rfl
    obtain ⟨g', hg'⟩ := h.userland
    exact hg'.owns.live ht hfree
  have hfree0 : s0.procs.state pid = .free := by
    rw [hprocs0, ProcessTable.state_set hp, if_neg hne, hfree]
  have hsound0 : Sound { k with toUserland := s0 } := ⟨⟨g, hs0⟩, hp, h.viewer⟩
  obtain ⟨child, s', hfork'⟩ := hsound0.fork_ok ht0 hpid hlt hfree0 (hframes0 ▸ hpages)
  rw [hfork] at hfork'
  cases hfork'
  obtain ⟨-, -, hforked⟩ := (Userland.fork_ends (E := fun _ => True) hs0 hp (by decide) fun _ =>
    trivial).eq_ok hfork
  exact ⟨turn, k', child, g, s0, s, hok, hserves.sound, hs0, hframes0, hprocs0, hforked, hframes,
    hprocs⟩

/-- No more leaves are copied than there are places for them. -/
theorem countP_copied_le {m : Memory physicalPages} {l : List Nat}
    (hplaces : ∀ v e, m.mapped t.root.number v = some e → isCopiedLeaf (v, e) = true → v ∈ l) :
    (t.leaves m).countP isCopiedLeaf ≤ l.length := by
  have hsorted := (Memory.leavesBelow_sorted m 3 t.root.number 0).filter isCopiedLeaf
  have hnodup : (((t.leaves m).filter isCopiedLeaf).map (·.1)).Nodup :=
    List.pairwise_map.mpr (hsorted.imp Nat.ne_of_lt)
  have hsub : ((t.leaves m).filter isCopiedLeaf).map (·.1) ⊆ l := by
    intro _ hv
    obtain ⟨⟨v, e⟩, hp, rfl⟩ := List.mem_map.mp hv
    obtain ⟨hmem, hcopied⟩ := List.mem_filter.mp hp
    exact hplaces v e (PageTable.mem_leaves.mp hmem) hcopied
  calc (t.leaves m).countP isCopiedLeaf
      = (((t.leaves m).filter isCopiedLeaf).map (·.1)).length := by
        rw [List.length_map, List.countP_eq_length_filter]
    _ ≤ l.length := (hnodup.subperm hsub).length_le

theorem le_countP_copied {m : Memory physicalPages} {l : List Nat} (hnodup : l.Nodup)
    (hplaces : ∀ v ∈ l, ∃ e, m.mapped t.root.number v = some e ∧ isCopiedLeaf (v, e) = true) :
    l.length ≤ (t.leaves m).countP isCopiedLeaf := by
  have hsub : l ⊆ ((t.leaves m).filter isCopiedLeaf).map (·.1) := by
    intro v hv
    obtain ⟨e, hm, hcopied⟩ := hplaces v hv
    exact List.mem_map.mpr
      ⟨(v, e), List.mem_filter.mpr ⟨PageTable.mem_leaves.mpr hm, hcopied⟩, rfl⟩
  calc l.length ≤ (((t.leaves m).filter isCopiedLeaf).map (·.1)).length :=
        (hnodup.subperm hsub).length_le
    _ = (t.leaves m).countP isCopiedLeaf := by rw [List.length_map, List.countP_eq_length_filter]

/-- Of the kernel only the console is copied. -/
theorem eq_console_of_copied {v : Nat} {e : Entry} (hm : kernelLeaf v = some e)
    (hcopied : isCopiedLeaf (v, e) = true) : v = consolePage := by
  obtain ⟨-, hlt, rfl, hallowed⟩ := LeafAllowed.of_kernelLeaf hm
  rw [userFirst_eq] at hlt
  rw [isCopiedLeaf_iff (by omega) hallowed.present, Entry.user_link (by omega)] at hcopied
  refine hcopied.elim (fun hwu => ?_) id
  by_contra hne
  rw [kernelPermission, if_neg hne] at hwu
  exact absurd hwu.2 Bool.false_ne_true

/-- A space whose copied leaves are those of the kernel and the stack has two pages of its own at
most. -/
theorem countP_copied_few {m : Memory physicalPages} (hkernel : ∀ v e, v ≠ stackPage / pageSize →
      m.mapped t.root.number v = some e → isCopiedLeaf (v, e) = true → kernelLeaf v = some e) :
    (t.leaves m).countP isCopiedLeaf ≤ 2 := by
  refine countP_copied_le (l := [consolePage, stackPage / pageSize]) fun v e hm hcopied => ?_
  by_cases hstack : v = stackPage / pageSize
  · simp [hstack]
  · simp [eq_console_of_copied (hkernel v e hstack hm hcopied) hcopied]

theorem countP_copied_bare {m : Memory physicalPages} (hbare : m.Bare t.root.number) :
    (t.leaves m).countP isCopiedLeaf ≤ 2 :=
  countP_copied_few fun v _ hv hm _ => hbare v hv ▸ hm

theorem countP_copied_text {m : Memory physicalPages} {v : Nat} {data : List UInt8}
    (hbut : m.BareBut t.root.number v)
    (htext : m.HasText t.root.number v data) (hv1 : userFirst ≤ v) (hv2 : v < 2 ^ 36) :
    (t.leaves m).countP isCopiedLeaf ≤ 2 := by
  refine countP_copied_few fun w e hstack hm hcopied => ?_
  by_cases hv : w = v
  · obtain ⟨-, c, hc, -, hm', -⟩ := htext
    rw [hv, hm', Option.some.injEq] at hm
    rw [hv, ← hm, isCopiedLeaf_text hv1 hv2 hc] at hcopied
    exact absurd hcopied Bool.false_ne_true
  · rwa [hbut w hstack hv] at hm

/-- The first of four bare processes has a child. -/
theorem fork_exact_null : ∃ k t child s t', boot nullLoader none = .ok k ∧
    k.procs.table? 1 = some t ∧ Userland.fork 1 k.toUserland = .ok (.ok child) s ∧
    child ≠ 1 ∧ s.procs.slot child =
      ⟨.runnable, { (k.procs.slot 1).regs with rax := 0 }, some t'⟩ := by
  obtain ⟨k, hboot, -, -, -, hpages, hfree, hall⟩ := boot_all
    (show bootPrograms nullLoader none = pure defaultPrograms from rfl) (by decide)
    fun name _ => ⟨_, rfl, rfl⟩
  have hreach : Reachable nullLoader k := .boot hboot
  obtain ⟨_, hname, t, hslot, -, hbare⟩ := hall 0 _ rfl
  obtain rfl := Option.some.inj hname
  have ht : k.procs.table? 1 = some t := by rw [ProcessTable.table?_eq, hslot]
  obtain ⟨g, hg⟩ := hreach.sound.userland
  have hcopies := countP_copied_bare (hbare rfl)
  have hlen : defaultPrograms.length = 4 := rfl
  obtain ⟨child, s, hok⟩ := hreach.sound.fork_ok ht (show 1 ≤ 5 by decide) (by decide)
    (hfree 5 (.inr (by decide))) (by omega)
  obtain ⟨⟨hne, -⟩, -, -, -, -, t', hslot', -⟩ := hreach.fork_exact ht hok
  exact ⟨k, t, child, s, t', hboot, ht, hok, hne, hslot'⟩

end Kernel
end PagedKernel
