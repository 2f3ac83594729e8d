import PagedKernel.Proofs.Kernel.Exhaustion
import PagedKernel.Proofs.Kernel.Safety
import PagedKernel.Proofs.Spaces.Untouched

/-!
# When a process cannot be duplicated

A process is duplicated if there is a free slot, and a free page for each of its tables and for each
page that is copied; the child uses up just as many. Otherwise the call fails, wherever the memory
runs out, and leaves nothing behind.

Key definition: `Kernel.LeftAlone`.
Key theorems: `Kernel.Reachable.fork_atomic`, `Kernel.Reachable.fork_decided`.
-/

namespace PagedKernel
namespace Kernel

variable {k : Kernel} {loader : Loader} {parent : Pid} {t : PageTable} {s : Userland physicalPages}
  {g g' : Shape}

/-! ### Failing -/

/-- The userland `s` has the counts, the page tables and the slots of the kernel `k`, and every page
in use holds what it did. -/
structure LeftAlone (k : Kernel) (s : Userland physicalPages) : Prop where
  count : ∀ pn, s.frames.count pn = k.frames.count pn
  freePages : s.frames.freePages = k.frames.freePages
  tables : ∀ t ∈ k.tables, ∃ l, t.tableNumbers k.frames.memory = .ok l ∧
    t.tableNumbers s.frames.memory = .ok l
  mappings : ∀ t ∈ k.tables, ∀ va, ∃ leaf, t.walk k.frames.memory va = .ok leaf ∧
    t.walk s.frames.memory va = .ok leaf
  procs : s.procs = k.procs
  byte : ∀ a, k.frames.count (a / pageSize) ≠ 0 → s.frames.memory.byte a = k.frames.memory.byte a

theorem LeftAlone.of_sameUse (hg : k.toUserland.Sound k.table g) (hg' : s.Sound k.table g')
    (hprocs : s.procs = k.procs) (hu : Frames.SameUse k.frames s.frames) : LeftAlone k s := by
  have hfits := hg.accounted.fits
  have hfits' := hg'.accounted.fits
  have hroot : ∀ t ∈ k.tables, g.IsRoot t.root.number := hg.allOf.isRoot
  have hroot' : ∀ t ∈ k.tables, g'.IsRoot t.root.number := by
    have hall := hg'.allOf.isRoot
    rwa [hprocs] at hall
  refine ⟨hu.count, hu.freePages, fun t ht => ?_, fun t ht va => ?_, hprocs, hu.byte⟩
  · have hsame := hg.accounted.sameSpace hu.byte (hroot t ht)
    refine ⟨_, hfits.tableNumbers_eq (hroot t ht), ?_⟩
    rw [hsame.tableNumbers hfits hfits' (hroot t ht) (hroot' t ht),
      hfits.tableNumbers_eq (hroot t ht)]
  · have hsame := hg.accounted.sameSpace hu.byte (hroot t ht)
    refine ⟨_, hfits.walk_eq t va (hroot t ht), ?_⟩
    rw [hsame.walk hfits hfits' (hroot t ht) (hroot' t ht), hfits.walk_eq t va (hroot t ht)]

/-- **A process is duplicated, or nothing happens.** The kernel does not halt in either case. -/
theorem Reachable.fork_atomic (h : Reachable loader k) (ht : k.procs.table? parent = some t) :
    ∃ res s, Userland.fork parent k.toUserland = .ok res s ∧
      ∀ cause, res = .error cause → LeftAlone k s := by
  obtain ⟨g, hg⟩ := h.sound.userland
  have hends := Userland.fork_ends (E := fun _ => False) hg (ProcessTable.lt_of_table? ht)
    (by decide) fun hnone => nomatch ht.symm.trans hnone
  obtain ⟨res, s, hok, ⟨g', hg'⟩, -, hres⟩ := hends.ok
  refine ⟨res, s, hok, ?_⟩
  rintro cause rfl
  obtain ⟨hprocs, hu, -⟩ := hres
  exact .of_sameUse hg hg' hprocs hu

theorem reachable_full : ∃ k, Reachable nullLoader k ∧ (∃ t, k.procs.table? 1 = some t) ∧
    k.procs.firstFree = none := by
  have hfinds : ∀ names : List String, ∀ name ∈ names, Finds nullLoader name :=
    fun _ name _ => ⟨_, rfl, .inl rfl⟩
  obtain ⟨k, hboot, -, -, -, hpages, hfree, hall⟩ := boot_plain
    (show bootPrograms nullLoader none = pure defaultPrograms from rfl) (by decide) (hfinds _)
  have hreach : Reachable nullLoader k := .boot hboot
  have hlen : defaultPrograms.length = 4 := rfl
  let names := List.replicate 11 "idle"
  obtain ⟨_, k', hload, -, -, -, hspares, hall'⟩ :=
    (loadAll_plain names 5 hreach.sound (by decide) (fun q hq => hfree q (.inr (by omega)))
      (by simp only [names, List.length_replicate]; omega) (hfinds _)).ok
  have hrun : ∀ q : Nat, 1 ≤ q → q < procCount → k'.procs.state q = .runnable := by
    intro q hq1 hq2
    rw [ProcessTable.state_eq]
    have hq2 : q < 16 := hq2
    by_cases hq : q < 5
    · obtain ⟨_, -, t, hslot, -⟩ := hall (q - 1) _ (List.getElem?_eq_getElem (by omega))
      rw [show 1 + (q - 1) = q by omega] at hslot
      have hlive : k.procs.state q ≠ .free := by
        rw [ProcessTable.state_eq, hslot]
        nofun
      rw [(hspares q hq hlive).slot, hslot]
    · obtain ⟨_, -, t, hslot, -⟩ := hall' (q - 5) _
        (List.getElem?_eq_getElem (by simp only [names, List.length_replicate]; omega))
      rw [show 5 + (q - 5) = q by omega] at hslot
      rw [hslot]
  have hreach' := hreach.loadAll (Nat.le_add_left 1 4) (by decide) hload
  refine ⟨k', hreach', ?_, ProcessTable.firstFree_eq_none.mpr fun q hq1 hq2 hfree => ?_⟩
  · obtain ⟨g, hg⟩ := hreach'.sound.userland
    exact Option.ne_none_iff_exists'.mp (hg.owns.runnable (hrun 1 le_rfl (by decide)))
  · exact nomatch (hrun q hq1 hq2).symm.trans hfree

/-- A process cannot be duplicated with every slot in use, nor with a free slot when too few pages
are left. -/
theorem fork_atomic_refused :
    (∃ k t s, Reachable nullLoader k ∧ k.procs.table? 1 = some t ∧
      Userland.fork 1 k.toUserland = .ok (.error .noFreeSlot) s ∧ LeftAlone k s) ∧
    ∃ k t s, Reachable (textLoader askForPages) k ∧ k.procs.table? 1 = some t ∧
      k.procs.state 5 = .free ∧
      Userland.fork 1 k.toUserland = .ok (.error .outOfMemory) s ∧ LeftAlone k s := by
  constructor
  · obtain ⟨k, hreach, ⟨t, ht⟩, hfirst⟩ := reachable_full
    obtain ⟨res, s, hok, hfailed⟩ := hreach.fork_atomic ht
    have hfull := Userland.fork_full 1 hfirst
    obtain rfl : res = .error .noFreeSlot := by
      rw [hok] at hfull
      cases hfull
      rfl
    exact ⟨k, t, s, hreach, ht, hok, hfailed _ rfl⟩
  · obtain ⟨k, t, hreach, ht, hfree, hfew⟩ := exists_few_free
    obtain ⟨res, s, hok, hfailed⟩ := hreach.fork_atomic ht
    obtain ⟨s', hfull⟩ :=
      hreach.sound.fork_outOfMemory ht (show 1 ≤ 5 by decide) (by decide) hfree hfew
    obtain rfl : res = .error .outOfMemory := by
      rw [hok] at hfull
      cases hfull
      rfl
    exact ⟨k, t, s, hreach, ht, hfree, hok, hfailed _ rfl⟩

/-! ### Succeeding -/

/-- The pages that a fork takes, as the listings of the parent's space show them. -/
theorem forkCost_eq (hg : k.toUserland.Sound k.table g) (ht : k.procs.table? parent = some t) :
    forkCost t k.frames.memory = (k.frames.memory.tablesBelow 3 t.root.number).length +
      ((t.leaves k.frames.memory).map mappingOf).countP fun m => Copied m.1 m.2 := by
  have hr := hg.owns.isRoot ht
  rw [forkCost, countP_isCopiedLeaf fun p hp =>
    hg.spaces.leaf (hg.owns.ne ht) ⟨hr, PageTable.mem_leaves.mp hp⟩]

/-- **When a process is duplicated, and what it takes.** The listing has all that the process maps.
-/
theorem Reachable.fork_decided (h : Reachable loader k) (ht : k.procs.table? parent = some t) :
    ∃ tables leaves res s, t.tableNumbers k.frames.memory = .ok tables ∧
      t.mappings k.frames.memory 0 (2 ^ 47) = .ok leaves ∧
      (∀ va e, t.walk k.frames.memory va = .ok (some e) → ∃ va', va'.page = va.page ∧
        (va', e) ∈ leaves) ∧
      Userland.fork parent k.toUserland = .ok res s ∧
      (res = .error .noFreeSlot ↔
        ∀ pid : Pid, 1 ≤ pid → pid < procCount → k.procs.state pid ≠ .free) ∧
      (res ≠ .error .noFreeSlot → (res = .error .outOfMemory ↔
        k.frames.freePages < tables.length + leaves.countP fun m => Copied m.1 m.2)) ∧
      (res ≠ .error .noFreeSlot → res ≠ .error .outOfMemory → (∃ child, res = .ok child) ∧
        k.frames.freePages = s.frames.freePages +
          (tables.length + leaves.countP fun m => Copied m.1 m.2)) := by
  obtain ⟨g, hg⟩ := h.sound.userland
  have hr := hg.owns.isRoot ht
  have hfits := hg.accounted.fits
  have hallowed : ∀ {v e}, k.frames.memory.mapped t.root.number v = some e → LeafAllowed v e :=
    fun hm => hg.spaces.leaf (hg.owns.ne ht) ⟨hr, hm⟩
  have hends := Userland.fork_ends (E := fun _ => False) hg (ProcessTable.lt_of_table? ht)
    (by decide) fun hnone => nomatch ht.symm.trans hnone
  obtain ⟨res, s, hok, -, ⟨-, -, hpays⟩, hres⟩ := hends.ok
  have hpays := hpays t ht
  have hlist : t.mappings k.frames.memory 0 (2 ^ 47) =
      .ok ((t.leaves k.frames.memory).map mappingOf) := by
    have hhi : 2 ^ 35 * pageSize = 2 ^ 47 := by decide
    rw [← hhi]
    exact hg.spaces.mappings_first hfits hr (hg.owns.ne ht) (by decide) hhi.le
  refine ⟨_, _, res, s, hfits.tableNumbers_eq hr, hlist, fun va e hwalk => ?_, hok, ?_⟩
  · rw [hfits.walk_eq t va hr, Except.ok.injEq] at hwalk
    have hpage := (hallowed hwalk).page_mappingOf (p := (va.page, e))
    exact ⟨_, hpage, List.mem_map_of_mem (PageTable.mem_leaves.mpr hwalk)⟩
  rw [← forkCost_eq hg ht, ← ProcessTable.firstFree_eq_none]
  cases res with
  | ok child =>
    have hpays : k.frames.freePages = s.frames.freePages + forkCost t k.frames.memory := hpays
    have hslot : k.procs.firstFree ≠ none := hres.first ▸ Option.some_ne_none _
    exact ⟨iff_of_false nofun hslot, fun _ => iff_of_false nofun (by omega),
      fun _ _ => ⟨⟨child, rfl⟩, hpays⟩⟩
  | error cause =>
    obtain ⟨-, -, hfull⟩ := hres
    cases cause with
    | noFreeSlot =>
      exact ⟨iff_of_true rfl (hfull.mp rfl), fun hne => absurd rfl hne, fun hne => absurd rfl hne⟩
    | outOfMemory =>
      have hslot : k.procs.firstFree ≠ none := fun hnone => nomatch hfull.mpr hnone
      have hpays : k.frames.freePages < forkCost t k.frames.memory := hpays
      exact ⟨iff_of_false nofun hslot, fun _ => iff_of_true rfl hpays, fun _ hne => absurd rfl hne⟩

theorem fork_decided_null : ∃ k t tables leaves child s, boot nullLoader none = .ok k ∧
    k.procs.table? 1 = some t ∧ t.tableNumbers k.frames.memory = .ok tables ∧
    t.mappings k.frames.memory 0 (2 ^ 47) = .ok leaves ∧
    Userland.fork 1 k.toUserland = .ok (.ok child) s ∧ k.frames.freePages = s.frames.freePages +
      (tables.length + leaves.countP fun m => Copied m.1 m.2) := by
  obtain ⟨k, hboot, -, -, -, hpages, hfree, hall⟩ := boot_all
    (show bootPrograms nullLoader none = pure defaultPrograms from rfl) (by decide)
    fun name _ => ⟨_, rfl, rfl⟩
  have hreach : Reachable nullLoader k := .boot hboot
  obtain ⟨_, hname, t, hslot, -, hbare⟩ := hall 0 _ rfl
  obtain rfl := Option.some.inj hname
  have ht : k.procs.table? 1 = some t := by rw [ProcessTable.table?_eq, hslot]
  obtain ⟨g, hg⟩ := hreach.sound.userland
  have hcopies := countP_copied_bare (hbare rfl)
  have hlen : defaultPrograms.length = 4 := rfl
  obtain ⟨child, s, hok⟩ := hreach.sound.fork_ok ht (show 1 ≤ 5 by decide) (by decide)
    (hfree 5 (.inr (by decide))) (by omega)
  obtain ⟨tables, leaves, res, s', htables, hleaves, -, hok', -, -, htakes⟩ :=
    hreach.fork_decided ht
  rw [hok] at hok'
  cases hok'
  exact ⟨k, t, tables, leaves, child, s, hboot, ht, htables, hleaves, hok, (htakes nofun nofun).2⟩

end Kernel
end PagedKernel
