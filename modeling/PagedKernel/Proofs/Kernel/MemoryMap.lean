import PagedKernel.Proofs.Kernel.Safety
import PagedKernel.Proofs.Process.Ownership

/-!
# The physical map of a kernel

The physical map of a kernel that has booted can always be drawn, and shows the true owner of every
page: which pages are free, which are tables of the kernel, and of every other page the process
whose address space refers to it, or that there are several. A page that the user of a process can
write shows that process.

Key theorems: `Userland.Sound.refers_sole`, `Kernel.Reachable.physicalMap_exact`.
-/

namespace PagedKernel

/-- To a page that the user of a process can write, but for the console, that process alone
refers. -/
theorem Userland.Sound.refers_sole {n : ℕ} [Addressable n] {kernel t : PageTable} {g : Shape}
    {s : Userland n} {pid : Pid} {v : ℕ} {e : Entry} (h : Sound kernel g s)
    (ht : s.procs.table? pid = some t) (hm : s.frames.memory.mapped t.root.number v = some e)
    (hw : e.writable = true) (hu : e.user = true) (hc : e.addr.pageNumber ≠ consolePage) :
    s.Refers pid e.addr.pageNumber ∧ (∀ pid', s.Refers pid' e.addr.pageNumber → pid' = pid) ∧
      ¬ kernel.RefersTo s.frames.memory e.addr.pageNumber := by
  have hfits := h.accounted.fits
  have hr := h.owns.isRoot ht
  have hsole := h.sole ⟨hr, hm⟩ hw hu hc
  -- Whoever refers to the page maps it, since it holds no table, and it is mapped once.
  have hroot : ∀ {t' : PageTable}, g.IsRoot t'.root.number →
      t'.RefersTo s.frames.memory e.addr.pageNumber → t'.root.number = t.root.number := by
    rintro t' hr' (htable | ⟨va, e', hwalk, haddr⟩)
    · rw [hfits.hasTable_iff hr', hfits.mem_tables hr'] at htable
      obtain ⟨l, i, hplace⟩ := htable
      rw [(hfits.mapped_target hr hm).1] at hplace
      cases hplace
    · rw [hfits.walk_eq t' va hr', Except.ok.injEq] at hwalk
      refine (hsole ⟨hr', hwalk⟩ ?_).1
      rw [e'.addr_eq_pageAt, haddr, ← e.addr_eq_pageAt]
  refine ⟨⟨t, ht, ?_⟩, ?_, fun hk => h.owns.ne ht (hroot h.spaces.kernelRoot hk).symm⟩
  · rw [hfits.refersTo_iff hr]
    exact List.mem_append_right _ (List.mem_map.mpr ⟨(v, e), PageTable.mem_leaves.mpr hm, rfl⟩)
  · rintro pid' ⟨t', ht', href⟩
    exact h.owns.injective ht' ht (hroot (h.owns.isRoot ht') href)

namespace Kernel

variable {k : Kernel} {loader : Loader}

/-- **The physical map shows the true owner of every page.** For a page that can be handed out, the
glyph at its place is `.` just if nobody refers to it, `K` just if it is a table of the kernel, the
digit of a process just if the address space of that process refers to it and no other does, and `S`
just if those of two processes do. No page shows `?`. -/
theorem Reachable.physicalMap_exact (h : Reachable loader k) :
    ∃ rows, physicalMap k.frames k.table k.procs = .ok rows ∧
      ∀ pn < physicalPages, ∃ c, glyphAt rows pn = some c ∧ c ≠ '?' ∧
        (k.frames.allocatablePage pn = true →
          (c = '.' ↔ k.frames.count pn = 0) ∧
          (c = 'K' ↔ k.table.HasTable k.frames.memory pn) ∧
          (∀ pid < procCount, c = Nat.digitChar pid ↔ k.toUserland.Refers pid pn ∧
            (∀ pid', k.toUserland.Refers pid' pn → pid' = pid) ∧
            ¬ k.table.RefersTo k.frames.memory pn) ∧
          (c = 'S' ↔ ∃ pid pid', pid' ≠ pid ∧ k.toUserland.Refers pid pn ∧
            k.toUserland.Refers pid' pn)) := by
  obtain ⟨g, hg⟩ := h.sound.userland
  obtain ⟨rows, hrows, hglyphs⟩ := hg.physicalMap_shows
  refine ⟨rows, hrows, fun pn hpn => ?_⟩
  have haddr : pn * pageSize < 16 ^ 6 := by
    unfold physicalPages physicalSize pageSize at hpn
    unfold pageSize
    omega
  obtain ⟨c, hc, hshown⟩ := hglyphs pn hpn haddr
  refine ⟨c, hc, ?_⟩
  by_cases ha : k.frames.allocatablePage pn = true
  · rw [if_pos ha] at hshown
    obtain ⟨hunknown, hglyph⟩ := hshown.glyph_iff
    exact ⟨hunknown, fun _ => hglyph⟩
  · rw [if_neg ha] at hshown
    refine ⟨?_, fun ha' => absurd ha' ha⟩
    rcases hshown with rfl | rfl <;> decide

theorem physicalMap_exact_stack : ∃ (k : Kernel) (rows : List String) (e : Entry),
    boot bareLoader (some "idle") = .ok k ∧ physicalMap k.frames k.table k.procs = .ok rows ∧
      k.toUserland.Refers 1 e.addr.pageNumber ∧ glyphAt rows e.addr.pageNumber = some '1' := by
  obtain ⟨k, hboot, -, ⟨t, ht, hstack⟩, -⟩ := boot_bare
  have hreach : Reachable bareLoader k := .boot hboot
  obtain ⟨g, hg⟩ := hreach.sound.userland
  obtain ⟨e, hm, hw, hu, -, hall⟩ := hstack.leaf
  obtain ⟨hone, honly, hkernel⟩ := hg.refers_sole ht hm hw hu hall.ne_console
  have hlt := (hg.accounted.fits.mapped_target (hg.owns.isRoot ht) hm).2
  have ha : k.frames.allocatablePage e.addr.pageNumber = true :=
    Frames.allocatablePage_iff.mpr ⟨hall, hlt⟩
  obtain ⟨rows, hrows, hglyphs⟩ := hreach.physicalMap_exact
  obtain ⟨c, hc, -, hshown⟩ := hglyphs _ hlt
  have hdigit := ((hshown ha).2.2.1 1 (by decide)).mpr ⟨hone, honly, hkernel⟩
  exact ⟨k, rows, e, hboot, hrows, hone, hc.trans (congrArg some hdigit)⟩

end Kernel
end PagedKernel
