import PagedKernel.Process.Fork
import PagedKernel.Proofs.Process.Build
import PagedKernel.Proofs.Process.Fork
import PagedKernel.Proofs.Process.Isolation

/-!
# Processes come and go

The userland is sound if the references are accounted for with no handle outstanding, every space
maps what it has to, and the slots own the spaces of the processes. Giving a space back, loading a
program and duplicating a process keep it sound, whether they succeed or not. The first and the last
never halt, the last for a process with an address space.

Key definitions: `Userland.Sound`, `Userland.Starts`, `Userland.Forked`.
Key theorems: `Userland.Sound.count_eq`, `Userland.reclaim_ends`, `Userland.load_ends`,
`Userland.fork_ends`.
-/

namespace PagedKernel
namespace Userland

variable {n : Nat} {kernel : PageTable} {g : Shape} {s : Userland n} {E : Halt → Prop}

/-- The frames and the process table agree, and with the page table of the kernel. -/
structure Sound (kernel : PageTable) (g : Shape) (s : Userland n) : Prop where
  accounted : Accounted g [] s.frames
  spaces : Spaces kernel.root.number (fun _ => True) g s.frames.memory
  owns : s.procs.Owns kernel.root.number g

namespace Sound

theorem allOf (h : Sound kernel g s) :
    PageTable.AllOf g (kernel :: s.procs.liveTables.map (·.2)) :=
  h.owns.allOf rfl h.spaces.kernelRoot

/-- **The count of every page is the number of references to it.** -/
theorem count_eq (h : Sound kernel g s) (q : Nat) :
    s.frames.count q =
      ((kernel :: s.procs.liveTables.map (·.2)).flatMap (·.references s.frames.memory)).count q :=
  h.accounted.count_eq_references h.allOf q

theorem reslot (h : Sound kernel g s) {pid : Pid} {p : ProcessSlot} (hpid : pid < procCount)
    (ht : p.table = s.procs.table? pid) (hfree : p.state = .free → p.table = none)
    (hrun : p.state = .runnable → p.table ≠ none) :
    Sound kernel g { s with procs := s.procs.set pid p } :=
  ⟨h.accounted, h.spaces, h.owns.reslot hpid ht hfree hrun⟩

end Sound

theorem proc_ok {pid : Pid} (h : pid < procCount) : proc pid s = .ok (s.procs.slot pid) s := by
  show (liftM (s.procs.get pid) : UserlandM n ProcessSlot) s = _
  rw [ProcessTable.get_eq h]
  rfl

theorem proc_error {pid : Pid} (h : procCount ≤ pid) : proc pid s = .error .badIndex s := by
  show (liftM (s.procs.get pid) : UserlandM n ProcessSlot) s = _
  unfold ProcessTable.get
  rw [dif_neg (Nat.not_lt.mpr h)]
  rfl

theorem proc_ends (s : Userland n) (pid : Pid) :
    Ends (proc pid) s (fun p s' => pid < procCount ∧ p = s.procs.slot pid ∧ s' = s)
      fun _ => True := by
  by_cases hpid : pid < procCount
  · exact .of_ok (proc_ok hpid) ⟨hpid, rfl, rfl⟩
  · exact .of_error (proc_error (Nat.not_lt.mp hpid)) trivial

theorem setProc_ok (pid : Pid) (p : ProcessSlot) :
    setProc pid p s = .ok () { s with procs := s.procs.set pid p } := rfl

theorem report_ok (notice : Notice) :
    report notice s = .ok () { s with log := s.log.push notice } := rfl

theorem load_lt (s : Userland n) (pid : Pid) (program : Program) :
    Ends (load kernel pid program) s (fun _ _ => pid < procCount) fun _ => True := by
  unfold load
  exact .bind (proc_ends s pid) fun _ _ hproc => .imp .of_any fun _ _ _ => hproc.1

/-- What others do not change is the text of a process. -/
theorem Spares.text {pid : Pid} {t : PageTable} {v : Nat} {data : List UInt8} {s' : Userland n}
    (h : Spares pid s s') (ht : s.procs.table? pid = some t)
    (htext : s.frames.memory.HasText t.root.number v data) :
    s'.frames.memory.HasText t.root.number v data :=
  htext.congr (congrFun (h.mapped ht) v) fun _ hm hall => h.byte ht hm hall.ne_console

/-- Process `pid` can run, is about to run `program` from its entry, and has all that it needs, and
nothing else if the program has no segments. -/
def Starts (pid : Pid) (program : Program) (s : Userland n) : Prop :=
  ∃ t, s.procs.slot pid =
      ⟨.runnable, .starting program.entry (UInt64.ofNat virtualSize), some t⟩ ∧
    s.frames.memory.Holds t.root.number program ∧
    (program.segments = [] → s.frames.memory.Bare t.root.number)

theorem Starts.spared {pid : Pid} {program : Program} {s' : Userland n} (h : Starts pid program s)
    (hspares : Spares pid s s') : Starts pid program s' := by
  obtain ⟨t, hslot, ⟨hstack, htext⟩, hbare⟩ := h
  have ht : s.procs.table? pid = some t := by rw [ProcessTable.table?_eq, hslot]
  have hm := hspares.mapped ht
  refine ⟨t, hspares.slot.trans hslot, ⟨?_, fun seg v hsegs hseg => ?_⟩, ?_⟩
  · unfold Memory.HasStack
    rwa [hm]
  · obtain ⟨htext, hbut⟩ := htext seg v hsegs hseg
    refine ⟨hspares.text ht htext, ?_⟩
    unfold Memory.BareBut
    rwa [hm]
  · unfold Memory.Bare
    rwa [hm]

/-- Without a free slot no process is duplicated. -/
theorem fork_full (parent : Pid) (h : s.procs.firstFree = none) :
    fork parent s = .ok (.error .noFreeSlot) s := by
  unfold fork
  dsimp only [bind, EStateM.bind, get, getThe, MonadStateOf.get, EStateM.get]
  rw [h]
  rfl

/-- The pages that are used up when a process with the page table `t` is duplicated, or that were
not there for it. -/
def ForkPays (t : PageTable) (res : Except ForkError Pid) (s s' : Userland n) : Prop :=
  match res with
  | .ok _ => s.frames.freePages = s'.frames.freePages + forkCost t s.frames.memory
  | .error .noFreeSlot => True
  | .error .outOfMemory => s.frames.freePages < forkCost t s.frames.memory

/-- In `s'`, process `child` is a copy of process `parent` of `s`: it has a counterpart of each
leaf, the pages that are not copied have so many more references, and no other page in use has
changed. -/
structure Forked (parent child : Pid) (s s' : Userland n) : Prop where
  first : s.procs.firstFree = some child
  other : ∀ q, q ≠ child → s'.procs.slot q = s.procs.slot q
  space : ∃ t t', s.procs.table? parent = some t ∧
    s'.procs.slot child = ⟨.runnable, { (s.procs.slot parent).regs with rax := 0 }, some t'⟩ ∧
    (∀ v, match s.frames.memory.mapped t.root.number v with
      | none => s'.frames.memory.mapped t'.root.number v = none
      | some e => ∃ e', s'.frames.memory.mapped t'.root.number v = some e' ∧ CopyOf v e e' ∧
          (isCopiedLeaf (v, e) = true → Duplicates s.frames s'.frames e e')) ∧
    (∀ q, s.frames.count q ≠ 0 →
      s'.frames.count q = s.frames.count q + sharesOf (t.leaves s.frames.memory) q) ∧
    ∀ a, s.frames.count (a / pageSize) ≠ 0 → s'.frames.memory.byte a = s.frames.memory.byte a

theorem Forked.text {parent child : Pid} {s' : Userland n} {t : PageTable} {v : Nat}
    {data : List UInt8} (h : Forked parent child s s') (hs : Sound kernel g s)
    (ht : s.procs.table? parent = some t) (htext : s.frames.memory.HasText t.root.number v data)
    (hv1 : userFirst ≤ v) (hv2 : v < 2 ^ 36) : ∃ t', s'.procs.slot child =
      ⟨.runnable, { (s.procs.slot parent).regs with rax := 0 }, some t'⟩ ∧
      s'.frames.memory.HasText t'.root.number v data := by
  obtain ⟨t1, t', ht1, hslot, hmapped, -, hbyte⟩ := h.space
  obtain rfl : t1 = t := Option.some.inj (ht1.symm.trans ht)
  refine ⟨t', hslot, htext.congr ?_ fun e hm _ a ha => hbyte a ?_⟩
  · obtain ⟨-, c, hc, -, hm, -⟩ := htext
    have hcase := hmapped v
    rw [hm] at hcase
    obtain ⟨_, hm', ⟨c', hc', rfl, hpage⟩, -⟩ := hcase
    rw [isCopiedLeaf_text hv1 hv2 hc, if_neg Bool.false_ne_true, Entry.addr_link hc] at hpage
    rw [hm', hm, hpage, Entry.flags_link hc, Permission.ofFlags_toFlags]
    rfl
  · exact ha ▸ hs.accounted.count_mapped (hs.owns.isRoot ht) hm

section
variable [Addressable n]

/-- **Giving back an address space** leaves the slot free. It concerns no other process. -/
theorem reclaim_ends {pid : Pid} (h : Sound kernel g s) (hpid : pid < procCount) :
    Ends (reclaim pid) s (fun _ s' => (∃ g', Sound kernel g' s') ∧
      s'.procs = s.procs.set pid .unused ∧
      (s.procs.table? pid = none → s'.frames = s.frames) ∧ Concerns pid s s' ∧
      Memory.SameSpace kernel.root.number s.frames.memory s'.frames.memory) E := by
  unfold reclaim
  refine .step (proc_ok hpid) ?_
  rw [← s.procs.table?_eq]
  have hslot : ∀ q, q ≠ pid → (s.procs.set pid .unused).slot q = s.procs.slot q := fun q hq => by
    rw [ProcessTable.slot_set hpid, if_neg hq]
  cases ht : s.procs.table? pid with
  | none =>
    dsimp only
    exact .of_ok (setProc_ok ..)
      ⟨⟨g, h.reslot hpid ht.symm (fun _ => rfl) (fun hrun => nomatch hrun)⟩, rfl, fun _ => rfl,
        .of_frames_eq rfl hslot, .refl _ _⟩
  | some t =>
    have hr := h.owns.isRoot ht
    have hk := h.owns.ne ht
    refine .bind (.onFrames (PageTable.destroy_ends h.accounted hr)) ?_
    intro _ _ hpost
    obtain ⟨f, rfl, g', hacc, hkept, hgone⟩ := hpost
    refine .of_ok (setProc_ok ..) ⟨⟨g', hacc, ?_, ?_⟩, rfl, nofun,
      .of_kept_ne h.owns h.accounted.fits ht hkept rfl fun q hq _ => hslot q hq,
      hkept.sameSpace h.accounted.fits (Ne.symm hk) h.spaces.kernelRoot⟩
    · exact (h.spaces.mono fun _ _ => trivial).dropped hkept hk hgone
    · exact h.owns.vacate ht (fun hne => hkept.isRoot hne) hgone

/-- **Loading a program** gives the process a space of its own and concerns no other process. A
plain program is loaded into a free slot if twelve pages are free. -/
theorem load_ends {pid : Pid} {program : Program} (h : Sound kernel g s) (hpid : pid < procCount)
    (hn : 1 + n * 512 < maxCount)
    (hE : ¬ (program.Plain ∧ s.procs.state pid = .free ∧ 12 ≤ s.frames.freePages) → ∀ e, E e) :
    Ends (load kernel pid program) s (fun _ s' => (∃ g', Sound kernel g' s') ∧
      Concerns pid s s' ∧ Starts pid program s' ∧
      (program.Plain → s.procs.state pid = .free →
        s.frames.freePages ≤ s'.frames.freePages + 12) ∧
      ∀ q, q ≠ pid → s'.procs.slot q = s.procs.slot q) E := by
  unfold load
  dsimp only
  refine .step (proc_ok hpid) (.ite (fun hrun => .throw_bind (hE (fun h' => ?_) _)) fun _ => ?_)
  · have hfree := h'.2.1
    rw [s.procs.state_eq, hrun] at hfree
    cases hfree
  refine .bind (reclaim_ends h hpid) ?_
  intro _ s1 hpost
  obtain ⟨⟨g1, h1⟩, hprocs1, hframes1, hconcerns1, -⟩ := hpost
  have hframes1 : s.procs.state pid = .free → s1.frames = s.frames := fun hfree =>
    hframes1 (h.owns.free hfree)
  have hnone : s1.procs.table? pid = none := by
    rw [hprocs1, ProcessTable.table?_set hpid, if_pos rfl]
    rfl
  refine .bind (.onFrames (buildSpace_ends h1.accounted h1.spaces hn fun hfew =>
    hE fun h' => hfew ⟨h'.1, ?_⟩)) ?_
  · rw [hframes1 h'.2.1]
    exact h'.2.2
  intro t _ hpost
  obtain ⟨f, rfl, g2, h2, hs2, hfresh, hroot, hkept, hholds, hbare, hpages⟩ := hpost
  have hslot : ∀ p q, q ≠ pid → (s1.procs.set pid p).slot q = s1.procs.slot q := fun p q hq => by
    rw [ProcessTable.slot_set hpid, if_neg hq]
  refine .step (setProc_ok ..) (.of_ok (report_ok ..) ⟨⟨g2, h2, hs2, ?_⟩, hconcerns1.trans ?_,
    ⟨t, (ProcessTable.slot_set hpid).trans (if_pos rfl), hholds, hbare⟩,
    fun hplain hfree => ?_, fun q hq => ?_⟩)
  · exact h1.owns.settle hpid hnone rfl nofun hfresh hroot
      (fun heq => hfresh (heq ▸ h1.spaces.kernelRoot)) fun hne => hkept.isRoot hne
  · exact .of_kept h1.owns h1.accounted.fits hkept rfl
      (fun _ ht' heq => hfresh (heq ▸ h1.owns.isRoot ht')) fun q hq _ => hslot _ q hq
  · rw [← hframes1 hfree]
    exact hpages hplain
  · rw [hslot _ q hq, hprocs1, ProcessTable.slot_set hpid, if_neg hq]

/-- **Duplicating a process** with an address space does not halt. It concerns no process that was
there before. If it fails, no page in use and no slot has changed. There is memory enough just if
there is a free page for each table of the process and for each page that is copied. -/
theorem fork_ends {parent : Pid} (h : Sound kernel g s) (hparent : parent < procCount)
    (hn : 1 + n * 512 < maxCount)
    (hE : s.procs.table? parent = none → E (.forkWithoutSpace parent)) :
    Ends (fork parent) s (fun res s' => (∃ g', Sound kernel g' s') ∧
      (Concerns parent s s' ∧
        Memory.SameSpace kernel.root.number s.frames.memory s'.frames.memory ∧
        ∀ t, s.procs.table? parent = some t → ForkPays t res s s') ∧
      match res with
      | .ok child => Forked parent child s s'
      | .error cause => s'.procs = s.procs ∧ Frames.SameUse s.frames s'.frames ∧
          (cause = .noFreeSlot ↔ s.procs.firstFree = none)) E := by
  unfold fork
  refine .get ?_
  cases hfirst : s.procs.firstFree with
  | none =>
    exact .pure ⟨⟨g, h⟩, ⟨.refl _ _, .refl _ _, fun _ _ => trivial⟩, rfl, .refl _,
      iff_of_true rfl rfl⟩
  | some child =>
    obtain ⟨hc1, hc2, hcfree⟩ := ProcessTable.firstFree_spec hfirst
    dsimp only
    refine .step (proc_ok hparent) ?_
    rw [← s.procs.table?_eq]
    cases ht : s.procs.table? parent with
    | none => exact .throw (hE ht)
    | some t =>
      have hr := h.owns.isRoot ht
      have hk := h.owns.ne ht
      dsimp only
      refine .bind (.onFrames (copySpace_ends h.accounted h.spaces hr hk hn)) ?_
      intro found _ hpost
      obtain ⟨f, rfl, g1, h1, hs1, hres⟩ := hpost
      rcases found with _ | t'
      · obtain ⟨hkept, hfew⟩ := hres
        refine .pure ⟨⟨g1, h1, hs1, h.owns.congr fun _ => hkept.isRoot trivial⟩,
          ⟨.of_kept h.owns h.accounted.fits hkept rfl (fun _ _ => trivial) fun _ _ _ => rfl,
            hkept.sameSpace h.accounted.fits trivial h.spaces.kernelRoot, fun t' ht' => ?_⟩,
          rfl, hkept.sameUse h.accounted h1, iff_of_false nofun nofun⟩
        obtain rfl := Option.some.inj ht'
        exact hfew
      · obtain ⟨hfresh, hroot, hkept, hgrown, hpays, hmapped⟩ := hres
        have hslot : ∀ p q, q ≠ child → (s.procs.set child p).slot q = s.procs.slot q :=
          fun p q hq => by rw [ProcessTable.slot_set hc2, if_neg hq]
        refine .step (setProc_ok ..) (.step (report_ok ..) (.pure ⟨⟨g1, h1, hs1, ?_⟩,
          ⟨?_, ?_, fun t1 ht1 => ?_⟩, hfirst, hslot _, t, t', ht, ?_, hmapped, hgrown.count,
          fun a ha => ?_⟩))
        · exact h.owns.settle hc2 (h.owns.free hcfree) rfl nofun hfresh hroot
            (fun heq => hfresh (heq ▸ h.spaces.kernelRoot)) fun hne => hkept.isRoot hne
        · refine .of_kept h.owns h.accounted.fits hkept rfl
            (fun _ ht' heq => hfresh (heq ▸ h.owns.isRoot ht')) ?_
          exact fun q _ hlive => hslot _ q fun heq => hlive (heq ▸ hcfree)
        · exact hkept.sameSpace h.accounted.fits (fun heq => hfresh (heq ▸ h.spaces.kernelRoot))
            h.spaces.kernelRoot
        · obtain rfl := Option.some.inj ht1
          exact hpays
        · exact (ProcessTable.slot_set hc2).trans (if_pos rfl)
        · exact hgrown.byte a (fun ⟨_, _, hq⟩ => hfresh (h.accounted.fits.isRoot hq)) ha

end

end Userland
end PagedKernel
