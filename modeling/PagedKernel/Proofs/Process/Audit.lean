import PagedKernel.Proofs.Process.Mirroring
import PagedKernel.Proofs.Process.Userland

/-!
# The audits pass

In a sound userland neither audit halts. The count of every page is the number of references that
the kernel lists, since all leaves lie below the end of the address space of a process; and the page
table of every process mirrors the kernel's.

Key theorems: `countReferences_ok`, `Userland.Sound.checkCounts_ok`, `Userland.Sound.checkTable_ok`.
-/

namespace PagedKernel

variable {n : Nat}

/-! ### Counting -/

theorem countPages_ok : ∀ (l : List Nat) (counts : Vector Nat n), (∀ pn ∈ l, pn < n) →
    ∃ counts', countPages l counts = .ok counts' ∧
      ∀ q (h : q < n), counts'[q] = counts[q] + l.count q
  | [], counts, _ => ⟨counts, rfl, fun _ _ => rfl⟩
  | pn :: rest, counts, h => by
    have hpn := h pn List.mem_cons_self
    obtain ⟨counts', hok, hcounts⟩ := countPages_ok rest (counts.set pn (counts[pn] + 1) hpn)
      fun q hq => h q (List.mem_cons_of_mem _ hq)
    refine ⟨counts', ?_, fun q hq => ?_⟩
    · rw [countPages, dif_pos hpn]
      exact hok
    · rw [hcounts q hq, List.count_cons, Vector.getElem_set]
      by_cases hqp : pn = q
      · subst hqp
        simp
        omega
      · simp [hqp]

section
variable [Addressable n] {g : Shape} {m : Memory n}

/-- The mapped pages that the kernel lists are those of all leaves. -/
theorem Shape.Fits.mappedNumbers_eq (h : g.Fits m) {t : PageTable} (hr : g.IsRoot t.root.number)
    (hall : ∀ v e, m.mapped t.root.number v = some e → v < userPast) (p : Entry → Bool) :
    t.mappedNumbers m p =
      .ok (((t.leaves m).filter fun q => p q.2).map (·.2.addr.pageNumber)) := by
  have hmeets : (t.leaves m).filter (fun q => pageMeets 0 virtualSize q.1) = t.leaves m := by
    refine List.filter_eq_self.mpr fun ⟨v, e⟩ hve => ?_
    exact pageMeets_virtualSize.mpr (hall v e (PageTable.mem_leaves.mp hve))
  unfold PageTable.mappedNumbers
  rw [h.mappings_eq hr (by decide), hmeets]
  refine congrArg Except.ok ?_
  rw [List.filter_map, List.map_map]
  rfl

omit [Addressable n] in
theorem Shape.Fits.table_lt (h : g.Fits m) {t : PageTable} (hr : g.IsRoot t.root.number) {q : Nat}
    (hq : q ∈ m.tablesBelow 3 t.root.number) : q < n := by
  obtain ⟨l, i, hq⟩ := (h.mem_tables hr).mp hq
  exact h.installed hq

omit [Addressable n] in
theorem Shape.Fits.leaf_lt (h : g.Fits m) {t : PageTable} (hr : g.IsRoot t.root.number)
    {p : Nat × Entry} (hp : p ∈ t.leaves m) : p.2.addr.pageNumber < n :=
  (h.mapped_target hr (PageTable.mem_leaves.mp hp)).2

/-- **The audit counts the references** that the page tables hold. -/
theorem countReferences_ok (h : g.Fits m) : ∀ (ts : List PageTable) (counts : Vector Nat n),
    (∀ t ∈ ts, g.IsRoot t.root.number ∧
      ∀ v e, m.mapped t.root.number v = some e → v < userPast) →
    ∃ counts', countReferences m ts counts = .ok counts' ∧
      ∀ q (hq : q < n), counts'[q] = counts[q] + (ts.flatMap (·.references m)).count q
  | [], counts, _ => ⟨counts, rfl, fun _ _ => rfl⟩
  | t :: rest, counts, hts => by
    obtain ⟨hr, hall⟩ := hts t List.mem_cons_self
    obtain ⟨counts1, h1, hc1⟩ := countPages_ok (m.tablesBelow 3 t.root.number) counts
      fun q hq => h.table_lt hr hq
    obtain ⟨counts2, h2, hc2⟩ := countPages_ok ((t.leaves m).map (·.2.addr.pageNumber)) counts1
      fun q hq => by
        obtain ⟨p, hp, rfl⟩ := List.mem_map.mp hq
        exact h.leaf_lt hr hp
    obtain ⟨counts3, h3, hc3⟩ := countReferences_ok h rest counts2
      fun t' ht' => hts t' (List.mem_cons_of_mem _ ht')
    have htable : countTable m t counts = .ok counts2 := by
      unfold countTable
      rw [h.tableNumbers_eq hr, h.mappedNumbers_eq hr hall, List.filter_true]
      simp only [bind, Except.bind, h1, h2]
    refine ⟨counts3, ?_, fun q hq => ?_⟩
    · rw [countReferences, htable]
      exact h3
    · rw [hc3 q hq, hc2 q hq, hc1 q hq, List.flatMap_cons, List.count_append, PageTable.references,
        List.count_append]
      omega

end

/-! ### The audits -/

namespace Userland.Sound

variable {kernel : PageTable} {g : Shape} {s : Userland n}

/-- Every space maps pages below the end of the address space of a process. -/
theorem page_lt (h : Sound kernel g s) {r v : Nat} {e : Entry} (hr : g.IsRoot r)
    (hm : s.frames.memory.mapped r v = some e) : v < userPast := by
  by_cases hrk : r = kernel.root.number
  · subst hrk
    rw [h.spaces.kernelMapped] at hm
    exact (LeafAllowed.of_kernelLeaf hm).2.2.2.page_lt
  · exact (h.spaces.leaf hrk ⟨hr, hm⟩).page_lt

/-- **The audit of the counts passes.** -/
theorem checkCounts_ok [Addressable n] (h : Sound kernel g s) :
    checkCounts s.frames kernel s.procs = .ok () := by
  have hall := h.allOf
  obtain ⟨counts, hok, hcounts⟩ := countReferences_ok h.accounted.fits
    (kernel :: s.procs.liveTables.map (·.2)) (Vector.replicate n 0)
    fun t ht => ⟨hall.isRoot t ht, fun v e hm => h.page_lt (hall.isRoot t ht) hm⟩
  have hfind : ((List.range n).find? fun pn =>
      s.frames.count pn ≠ counts.toArray.getD pn 0) = none := by
    refine List.find?_eq_none.mpr fun q hq => ?_
    have hq := List.mem_range.mp hq
    have hcount := hcounts q hq
    rw [Vector.getElem_replicate, Nat.zero_add, ← h.count_eq q] at hcount
    simp [hq, hcount]
  unfold checkCounts
  dsimp only
  rw [hok]
  dsimp only [bind, Except.bind]
  rw [hfind]
  rfl

/-- **The audit of a process passes.** -/
theorem checkTable_ok [Addressable n] (h : Sound kernel g s) {t : PageTable}
    (hr : g.IsRoot t.root.number) (hk : t.root.number ≠ kernel.root.number) :
    checkTable s.frames.memory kernel t = .ok () := by
  have hfits := h.accounted.fits
  have hkr := h.spaces.kernelRoot
  obtain ⟨c, hc, -, hconsole⟩ := h.spaces.mapped_console trivial hr hk
  rw [checkTable_ok_iff (hfits.listingInside hkr 0 procStart)
    (hfits.listingInside hr 0 procStart), hfits.pa_pageNumber t hr, hfits.pa_pageNumber kernel hkr]
  refine ⟨fun v hv hne => ?_, ?_, _, hconsole, ?_⟩
  · rw [h.spaces.mapped_low trivial hr hk hv hne, h.spaces.kernelMapped]
  · rw [h.spaces.mapped_low trivial hr hk (by decide) (by decide)]
    rfl
  · rw [Entry.flags_link hc]
    rfl

end Userland.Sound

end PagedKernel
