import PagedKernel.Proofs.Kernel.Boot
import PagedKernel.Proofs.Process.Image

/-!
# Loading a program, exactly

In consistent frames a program is loaded into a slot that may have a space from before. That one is
given back first, so the new space is made among the others, and if it is made, it is the image of
the program. The frames of a sound userland are consistent (`Userland.Sound.consistent`), so what is
said of loading holds whenever the kernel loads a program.

Key theorems: `Userland.reclaim_consistent`, `Userland.load_exact`.
-/

namespace PagedKernel
namespace Userland

variable {n : Nat} {kernel : PageTable} {g : Shape} {s s' : Userland n} {ts : List PageTable}
  {handles : List FrameRef} {pid : Pid} {program : Program} {E : Halt → Prop}

/-- The page tables that are left if process `pid` gives its own back. -/
def others (s : Userland n) (ts : List PageTable) (pid : Pid) : List PageTable :=
  (s.procs.table? pid).elim ts ts.erase

/-- In `s'`, process `pid` is about to run `program` in the space of `t`, which is the image of the
program in the user region, made of pages that no other space of `s` and no handle refers to, and
below shares what the kernel maps. The other spaces stay as they are, and the frames are consistent
with the new one. -/
structure Loaded (kernel : PageTable) (s : Userland n) (ts : List PageTable)
    (handles : List FrameRef) (pid : Pid) (program : Program) (t : PageTable) (s' : Userland n) :
    Prop where
  slot : s'.procs.slot pid =
    ⟨.runnable, .starting program.entry (UInt64.ofNat virtualSize), some t⟩
  image : Image t program ((s.others ts pid).flatMap (·.references s.frames.memory) ++
    handles.map (·.number)) s'.frames
  low : ∀ va : VirtAddr, va.toNat < procStart → ∃ e?, kernel.walk s.frames.memory va = .ok e? ∧
    t.walk s'.frames.memory va = .ok (e?.map Entry.shared)
  kept : ∀ t' ∈ s.others ts pid,
    Memory.SameSpace t'.root.number s.frames.memory s'.frames.memory
  consistent : s'.frames.Consistent (t :: s.others ts pid) handles

theorem Sound.consistent (h : Sound kernel g s) :
    s.frames.Consistent (kernel :: s.procs.liveTables.map (·.2)) [] :=
  Accounted.consistent h.accounted h.allOf

section
variable [Addressable n]

/-- **Giving back an address space** keeps the frames consistent, and the other spaces. -/
theorem reclaim_consistent (h : s.frames.Consistent ts handles) (hpid : pid < procCount)
    (hslot : ∀ t, s.procs.table? pid = some t → t ∈ ts) :
    Ends (reclaim pid) s (fun _ s' => s'.frames.Consistent (s.others ts pid) handles ∧
      s'.procs = s.procs.set pid .unused ∧
      ∀ t ∈ s.others ts pid,
        Memory.SameSpace t.root.number s.frames.memory s'.frames.memory) E := by
  unfold reclaim others
  refine .step (proc_ok hpid) ?_
  rw [← s.procs.table?_eq]
  cases ht : s.procs.table? pid with
  | none => exact .of_ok (setProc_ok ..) ⟨h, rfl, fun _ _ => .refl _ _⟩
  | some t =>
    refine .bind (.onFrames (h.destroy_ends (hslot t ht))) ?_
    rintro _ _ ⟨f, rfl, hrel⟩
    obtain ⟨h', hsame⟩ := h.released (hslot t ht) hrel
    refine .of_ok (setProc_ok ..) ⟨h', rfl, fun t' ht' => ?_⟩
    obtain ⟨hne, hmem⟩ := (h.nodup.mem_erase_iff).mp ht'
    exact hsame t' hmem hne

omit [Addressable n] in
theorem mem_others (h : s.frames.Consistent ts handles) (hk : kernel ∈ ts)
    (hslot : ∀ t, s.procs.table? pid = some t → t ≠ kernel) : kernel ∈ s.others ts pid := by
  unfold others
  cases ht : s.procs.table? pid with
  | none => exact hk
  | some t => exact (h.nodup.mem_erase_iff).mpr ⟨(hslot t ht).symm, hk⟩

/-- **Loading a program builds exactly its image**, in consistent frames, whatever the segments of
the program are and whatever had the slot before. -/
theorem load_exact (h : s.frames.Consistent ts handles) (hk : kernel ∈ ts)
    (hslot : ∀ t, s.procs.table? pid = some t → t ∈ ts ∧ t ≠ kernel)
    (hload : load kernel pid program s = .ok () s') :
    ∃ t, Loaded kernel s ts handles pid program t s' := by
  have hk' : kernel ∈ s.others ts pid := mem_others h hk fun t ht => (hslot t ht).2
  have hends : Ends (load kernel pid program) s (fun _ s' =>
      ∃ t, Loaded kernel s ts handles pid program t s') fun _ => True := by
    unfold load
    dsimp only
    refine .bind (proc_ends s pid) ?_
    rintro _ _ ⟨hpid, rfl, rfl⟩
    refine .ite (fun _ => .throw_bind trivial) fun _ => ?_
    refine .bind (reclaim_consistent h hpid fun t ht => (hslot t ht).1) ?_
    rintro _ s1 ⟨h1, -, hsame⟩
    refine .bind (.onFrames (h1.buildSpace_ends hk' program)) ?_
    rintro t _ ⟨f, rfl, g, hmade⟩
    refine .step (setProc_ok ..) (.of_ok (report_ok ..) ⟨t,
      (ProcessTable.slot_set hpid).trans (if_pos rfl), ?_, fun va hva => ?_, fun t' ht' => ?_,
      h1.made hk' hmade⟩)
    · rw [← List.flatMap_congr fun t' ht' => (hsame t' ht').references]
      exact hmade.image
    · have hpage : va.page < userFirst := by
        rw [userFirst_eq]
        unfold VirtAddr.page pagesPerSpace pageSize
        unfold procStart at hva
        omega
      refine ⟨_, h.fits.walk_eq kernel va (h.isRoot hk), ?_⟩
      rw [← (hsame kernel hk').mapped]
      exact hmade.walk_low hpage
    · exact (hsame t' ht').trans (h1.sameSpace hmade.byte ht')
  exact hends.eq_ok hload

end

/-- A program with a page of text is loaded once the kernel has started. -/
theorem load_exact_text : ∃ (k : Kernel) (s : Userland physicalPages) (ts : List PageTable)
    (program : Program) (t : PageTable),
    k.frames.Consistent ts [] ∧ load k.table 1 program k.toUserland = .ok () s ∧
    program.permissionAt procStart = some .userText ∧
    Loaded k.table k.toUserland ts [] 1 program t s := by
  obtain ⟨k, _, -, hk, hprocs, hfree, -⟩ := (Kernel.startUserland_ends (E := fun _ => False)).ok
  obtain ⟨g, hg⟩ := hk.userland
  let seg : Segment := ⟨UInt64.ofNat procStart, 2, [0x90, 0x90], false⟩
  let program : Program := ⟨"text", UInt64.ofNat procStart, [seg]⟩
  have htext : seg.IsText userFirst :=
    ⟨rfl, le_rfl, by decide, by decide, by decide, by decide, rfl⟩
  have hplain : program.Plain := .inr ⟨seg, userFirst, rfl, htext⟩
  have hstate : k.procs.state 1 = .free := by
    rw [hprocs, ProcessTable.state_eq, ProcessTable.slot_empty]
    rfl
  have hnone : k.procs.table? 1 = none := hg.owns.free hstate
  have hpages : 12 ≤ k.frames.freePages := by omega
  have hends : Ends (load k.table 1 program) k.toUserland _ fun _ => False :=
    load_ends hg (by decide) (by decide) fun hfew => absurd ⟨hplain, hstate, hpages⟩ hfew
  obtain ⟨_, s, hload, -⟩ := hends.ok
  obtain ⟨t, hloaded⟩ := load_exact hg.consistent List.mem_cons_self
    (fun t ht => nomatch hnone.symm.trans ht) hload
  exact ⟨k, s, _, program, t, hg.consistent, hload, by decide, hloaded⟩

end Userland
end PagedKernel
