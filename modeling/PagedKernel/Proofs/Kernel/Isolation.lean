import PagedKernel.Proofs.Kernel.NullPage
import PagedKernel.Proofs.Kernel.Reachable

/-!
# Isolation

Whatever the program of a process does when it runs, and however the kernel handles the trap that
ends the run, no other process is altered: neither its slot, nor what its space maps, nor the bytes
of the pages that it maps. The page of the console is the exception, since all processes may share
that.

Key theorem: `Kernel.Reachable.run_isolated`.
-/

namespace PagedKernel
namespace Kernel

variable {k k' : Kernel} {loader : Loader}

/-- **A run of one process leaves every other as it is.** -/
theorem Reachable.run_isolated (h : Reachable loader k) {p q : Pid} (hne : q ≠ p)
    (hlive : k.procs.state q ≠ .free) {turn : Turn} (hok : run p k = .ok turn k') :
    k'.procs.slot q = k.procs.slot q ∧
    ∀ t, k.procs.table? q = some t →
      (∀ va, t.walk k'.frames.memory va = t.walk k.frames.memory va) ∧
      ∀ va e, t.walk k.frames.memory va = .ok (some e) → e.addr.pageNumber ≠ consolePage →
        ∀ a, a / pageSize = e.addr.pageNumber →
          k'.frames.memory.byte a = k.frames.memory.byte a := by
  obtain ⟨⟨hsound, -⟩, hconcerns⟩ := run_ok h.sound hok
  have hspares : Userland.Spares q k.toUserland k'.toUserland := hconcerns q hne hlive
  obtain ⟨g, hg⟩ := h.sound.userland
  obtain ⟨g', hg'⟩ := hsound.userland
  refine ⟨hspares.slot, fun t ht => ?_⟩
  have hwalk : ∀ va, t.walk k.frames.memory va = .ok _ := fun va =>
    hg.accounted.fits.walk_eq t va (hg.owns.isRoot ht)
  have hwalk' : ∀ va, t.walk k'.frames.memory va = .ok _ := fun va =>
    hg'.accounted.fits.walk_eq t va (hg'.owns.isRoot (hspares.table?.trans ht))
  constructor
  · intro va
    rw [hwalk, hwalk', hspares.mapped ht]
  · intro va e hm
    rw [hwalk, Except.ok.injEq] at hm
    exact hspares.byte ht hm

theorem run_isolated_null : ∃ k turn k', boot nullLoader none = .ok k ∧
    k.procs.state 2 = .runnable ∧ run 1 k = .ok turn k' ∧ k'.procs.slot 2 = k.procs.slot 2 := by
  obtain ⟨k, hboot, hcount, -, -, -, hall⟩ := boot_null
  have hreach : Reachable nullLoader k := .boot hboot
  obtain ⟨hrun, hrip⟩ := hall 1 le_rfl (by decide)
  obtain ⟨hrun2, -⟩ := hall 2 (by decide) (by decide)
  obtain ⟨turn, k', hok, -⟩ := run_null hreach.sound hrun hrip (by rw [hcount]; decide)
  refine ⟨k, turn, k', hboot, hrun2, hok, ?_⟩
  exact (hreach.run_isolated (by decide) (by rw [hrun2]; decide) hok).1

end Kernel
end PagedKernel
