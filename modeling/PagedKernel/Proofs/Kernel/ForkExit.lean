import PagedKernel.Proofs.Kernel.Text

/-!
# A child that exits

A child that exits leaves no trace. Whatever it has done by then, as long as it did not fork itself:
the counts and the free pages are what they were before it was made, its slot is free again, and its
parent has all that it had.

Key definitions: `Kernel.RunsToExit`, `Kernel.Spawned`.
Key theorems: `Kernel.RunsToExit.minds`, `Kernel.Reachable.fork_exit_traceless`.
-/

namespace PagedKernel
namespace Kernel

variable {k k' k1 k2 kt : Kernel} {loader : Loader} {parent child : Pid} {regs : Registers}
  {turn : Turn}

/-! ### The child -/

/-- Process `pid` runs, and no other does, until it exits. It does not fork. -/
inductive RunsToExit (pid : Pid) : Kernel → Kernel → Prop
  | exit {k k' kt : Kernel} {regs : Registers} {turn : Turn} : Calls k pid .exit regs kt →
    run pid k = .ok turn k' → RunsToExit pid k k'
  | step {k k1 k' : Kernel} {turn : Turn} : (∀ regs kt, ¬ Calls k pid .fork regs kt) →
    run pid k = .ok turn k1 → RunsToExit pid k1 k' → RunsToExit pid k k'

/-- **What such a process leaves** is its slot, which is free. No other slot has changed. -/
theorem RunsToExit.minds {pid : Pid} (h : RunsToExit pid k k') (hk : Sound k) :
    Minds { k with current := pid } k' ∧ k'.procs.slot pid = .unused := by
  induction h with
  | @exit k k' kt regs turn hcalls hok =>
    obtain ⟨⟨t, htraps⟩, -, hanswers⟩ := hcalls.answers hk hok
    have hexit := hanswers.exit rfl
    rw [htraps.follows.current] at hexit
    exact ⟨htraps.follows.toMinds.trans (hanswers.minds nofun), hexit⟩
  | @step k k1 k' turn hfork hok _ ih =>
    obtain ⟨t, trap, regs, kt, htrap, htraps, -, hanswers⟩ := run_answers hk hok
    have hne : callOf trap regs ≠ some .fork := fun hcall => by
      unfold callOf at hcall
      split at hcall
      · next heq => exact hfork regs kt ⟨heq ▸ htrap, hcall⟩
      · cases hcall
    have h1 := htraps.follows.toMinds.trans (hanswers.minds hne)
    have hcurrent : k1.current = pid := h1.current
    obtain ⟨h2, hslot⟩ := ih h1.sound
    rw [show { k1 with current := pid } = k1 by rw [← hcurrent]] at h2
    exact ⟨h1.trans h2, hslot⟩

/-! ### The fork -/

/-- The process that ran in `k` has made `child`, and goes on with the registers `regs` and the
result. All that was in use is as it was. -/
structure Spawned (regs : Registers) (child : Pid) (k k' : Kernel) : Prop extends Serves k k' where
  free : k.procs.state child = .free
  slot : ∀ q, q ≠ child → k'.procs.slot q = if q = k.current then
    { k.procs.slot q with regs := { regs with rax := UInt64.ofNat child } } else k.procs.slot q
  byte : ∀ a, k.frames.count (a / pageSize) ≠ 0 → k'.frames.memory.byte a = k.frames.memory.byte a

/-- The result of a fork is the number of a child just if there is one. -/
theorem eq_ok_of_resultWord {res : Except ForkError Pid} {child : Nat} (hchild : child < procCount)
    (hlt : ∀ pid : Nat, res = .ok pid → pid < procCount)
    (h : resultWord (res.map UInt64.ofNat) = UInt64.ofNat child) : res = .ok child := by
  have hsmall : procCount < 2 ^ 64 - 1 := by decide
  have hnat := congrArg UInt64.toNat h
  rw [UInt64.toNat_ofNat', Nat.mod_eq_of_lt (by omega)] at hnat
  cases res with
  | ok pid =>
    have hpid := hlt pid rfl
    have hword : (UInt64.ofNat pid).toNat = child := hnat
    rw [UInt64.toNat_ofNat', Nat.mod_eq_of_lt (by omega)] at hword
    rw [hword]
  | error cause =>
    have hword : callFailed.toNat = child := hnat
    rw [show callFailed.toNat = 2 ^ 64 - 1 from rfl] at hword
    omega

/-- **A fork that gives its caller the number of a child** has made that. -/
theorem Spawned.of_syscall (h : Sound k) (hcall : SystemCall.ofRegisters? regs = some .fork)
    (hspace : k.procs.table? k.current ≠ none) (hok : syscall regs k = .ok turn k')
    (hchild : child < procCount)
    (hrax : (k'.procs.slot k.current).regs.rax = UInt64.ofNat child) :
    Spawned regs child k k' := by
  have hends := syscall_fork_ends (E := fun _ => True) h hcall hspace
  obtain ⟨hserves, g, s0, res, s, hs0, hframes0, hprocs0, hfork, hframes, hprocs⟩ := hends.eq_ok hok
  have hp := h.current
  rw [ProcessTable.modify_eq _ hp] at hprocs0 hprocs
  obtain ⟨-, -, hresult⟩ := (Userland.fork_ends (E := fun _ => True) hs0 hp (by decide) fun _ =>
    trivial).eq_ok hfork
  rw [hprocs, ProcessTable.slot_set hp, if_pos rfl] at hrax
  obtain rfl : res = .ok child := eq_ok_of_resultWord hchild (fun pid hpid => by
    subst hpid
    exact (ProcessTable.firstFree_spec hresult.first).2.1) hrax
  obtain ⟨hfirst, hother, t, _, ht, _, _, _, hbyte⟩ := hresult
  obtain ⟨-, -, hfree⟩ := ProcessTable.firstFree_spec hfirst
  have hne : k.current ≠ child := fun heq => hs0.owns.live ht (heq ▸ hfree)
  rw [hframes0] at hbyte
  refine ⟨hserves, ?_, fun q hq => ?_, hframes ▸ hbyte⟩
  · rwa [hprocs0, ProcessTable.state_set hp, if_neg (Ne.symm hne)] at hfree
  · rw [hprocs, ProcessTable.slot_set hp, hother _ hne, hother q hq, hprocs0,
      ProcessTable.slot_set hp, ProcessTable.slot_set hp, if_pos rfl]
    by_cases hq : q = k.current
    · rw [if_pos hq, if_pos hq, hq]
      rfl
    · rw [if_neg hq, if_neg hq, if_neg hq]

namespace Spawned

variable {g : Shape} {q : Pid} {t : PageTable}

theorem sameSpace (h : Spawned regs child k k') (hg : k.toUserland.Sound k.table g) {r : Nat}
    (hr : g.IsRoot r) : Memory.SameSpace r k.frames.memory k'.frames.memory :=
  hg.accounted.sameSpace h.byte hr

theorem live (h : Spawned regs child k k') (hg : k.toUserland.Sound k.table g)
    (ht : k.procs.table? q = some t) :
    q ≠ child ∧ k'.procs.state q ≠ .free ∧ k'.procs.table? q = some t := by
  have hlive := hg.owns.live ht
  have hq : q ≠ child := fun heq => hlive (heq ▸ h.free)
  have hslot := h.slot q hq
  rw [ProcessTable.state_eq] at hlive
  rw [ProcessTable.table?_eq] at ht
  refine ⟨hq, ?_, ?_⟩
  · rw [ProcessTable.state_eq, hslot]
    split <;> exact hlive
  · rw [ProcessTable.table?_eq, hslot]
    split <;> exact ht

end Spawned

/-! ### From the fork to the exit -/

/-- What is left of `k` when the child has exited: the kernel's space, all slots but for the
registers of the parent, and all that the processes of `k` had mapped. -/
structure Traceless (regs : Registers) (child : Pid) (k k' : Kernel) : Prop where
  sound : Sound k'
  table : k'.table = k.table
  kernel : Memory.SameSpace k.table.root.number k.frames.memory k'.frames.memory
  slot : ∀ q, k'.procs.slot q = if q = child then .unused else if q = k.current then
    { k.procs.slot q with regs := { regs with rax := UInt64.ofNat child } } else k.procs.slot q
  space : ∀ {q t}, k.procs.table? q = some t →
    Memory.SameSpace t.root.number k.frames.memory k'.frames.memory
  byte : ∀ {q t v e}, k.procs.table? q = some t → k.frames.memory.mapped t.root.number v = some e →
    e.addr.pageNumber ≠ consolePage → ∀ a, a / pageSize = e.addr.pageNumber →
    k'.frames.memory.byte a = k.frames.memory.byte a

/-- **A child that has exited leaves no trace.** -/
theorem Spawned.traceless (h : Sound k) (hspawned : Spawned regs child k k1)
    (hexit : RunsToExit child k1 k2) : Traceless regs child k k2 := by
  obtain ⟨hminds, hchild⟩ := hexit.minds hspawned.sound
  obtain ⟨g, hg⟩ := h.userland
  -- the processes of `k` are none of the child's business
  have hspares : ∀ {q t}, k.procs.table? q = some t →
      Userland.Spares q k1.toUserland k2.toUserland := fun {q t} ht =>
    hminds.concerns q (hspawned.live hg ht).1 (hspawned.live hg ht).2.1
  refine ⟨hminds.sound, hminds.table.trans hspawned.table,
    hspawned.space.trans (hspawned.table ▸ hminds.space), fun q => ?_, fun ht => ?_,
    fun {q t v e} ht hm hne a ha => ?_⟩
  · by_cases hq : q = child
    · rw [if_pos hq, hq, hchild]
    · rw [if_neg hq, ← hspawned.slot q hq]
      exact hminds.slot q hq
  · have hspace := (hspares ht).space (hspawned.live hg ht).2.2
    exact (hspawned.sameSpace hg (hg.owns.isRoot ht)).trans hspace
  · have hr := hg.owns.isRoot ht
    have hm1 : k1.frames.memory.mapped t.root.number v = some e := by
      rw [(hspawned.sameSpace hg hr).mapped, hm]
    rw [(hspares ht).byte (hspawned.live hg ht).2.2 hm1 hne a ha]
    exact hspawned.byte a (ha ▸ hg.accounted.count_mapped hr hm)

theorem Traceless.count (h : Sound k) (hfree : k.procs.state child = .free)
    (hleft : Traceless regs child k k') (q : Nat) : k'.frames.count q = k.frames.count q := by
  obtain ⟨g, hg⟩ := h.userland
  obtain ⟨g', hg'⟩ := hleft.sound.userland
  have hnone : k.procs.table? child = none := hg.owns.free hfree
  have hlist : k'.procs.liveTables = k.procs.liveTables := by
    refine ProcessTable.liveTables_congr (fun pid => ?_) fun pid => ?_
    · rw [ProcessTable.state_eq, hleft.slot]
      split
      · next hpid => rw [hpid, hfree, ProcessSlot.unused]
      · split <;> rw [ProcessTable.state_eq]
    · rw [ProcessTable.table?_eq, hleft.slot]
      split
      · next hpid => rw [hpid, hnone, ProcessSlot.unused]
      · split <;> rw [ProcessTable.table?_eq]
  rw [hg'.count_eq, hg.count_eq, hleft.table, hlist]
  refine congrArg (List.count q) (List.flatMap_congr fun t ht => ?_)
  rcases List.mem_cons.mp ht with rfl | ht
  · exact hleft.kernel.references
  · obtain ⟨⟨pid, _⟩, hmem, rfl⟩ := List.mem_map.mp ht
    exact (hleft.space (ProcessTable.mem_liveTables.mp hmem).2).references

/-- **A fork and the exit of the child** are as if neither had been, but for what the fork returns.
The child may do anything in between but fork itself. -/
theorem Reachable.fork_exit_traceless (h : Reachable loader k)
    (hfork : Calls k parent .fork regs kt) (hrun : run parent k = .ok turn k1)
    (hlt : child < procCount) (hchild : (k1.procs.slot parent).regs.rax = UInt64.ofNat child)
    (hexit : RunsToExit child k1 k2) :
    (∀ q, k2.frames.count q = k.frames.count q) ∧ k2.frames.freePages = k.frames.freePages ∧
    k2.procs.slot child = .unused ∧
    ∃ t, k.procs.table? parent = some t ∧ k2.procs.slot parent =
        ⟨.runnable, { regs with rax := UInt64.ofNat child }, some t⟩ ∧
      (∀ va, t.walk k2.frames.memory va = t.walk kt.frames.memory va) ∧
      ∀ va e, t.walk kt.frames.memory va = .ok (some e) → e.addr.pageNumber ≠ consolePage →
        ∀ a, a / pageSize = e.addr.pageNumber →
          k2.frames.memory.byte a = kt.frames.memory.byte a := by
  obtain ⟨⟨t, htraps⟩, hsyscall, -⟩ := hfork.answers h.sound hrun
  have hkt : Sound kt := htraps.follows.sound
  have hcurrent : kt.current = parent := htraps.follows.current
  have ht : kt.procs.table? parent = some t := (htraps.follows.table? parent).trans htraps.table?
  have hspawned : Spawned regs child kt k1 :=
    .of_syscall hkt hfork.2 (by rw [hcurrent, ht]; exact nofun) hsyscall hlt (hcurrent ▸ hchild)
  have hleft := hspawned.traceless hkt hexit
  obtain ⟨g, hg⟩ := hkt.userland
  obtain ⟨g2, hg2⟩ := hleft.sound.userland
  have hne : parent ≠ child := (hspawned.live hg ht).1
  have hslot := hleft.slot parent
  rw [if_neg hne, if_pos hcurrent.symm] at hslot
  have ht2 : k2.procs.table? parent = some t := by
    rw [ProcessTable.table?_eq, hslot, ← ProcessTable.table?_eq, ht]
  have hwalk : ∀ va, t.walk kt.frames.memory va = .ok _ := fun va =>
    hg.accounted.fits.walk_eq t va (hg.owns.isRoot ht)
  have hcounts : ∀ q, k2.frames.count q = k.frames.count q := fun q => by
    obtain ⟨_, _, _, _, rfl⟩ := htraps.core
    exact hleft.count hkt hspawned.free q
  refine ⟨hcounts, Frames.freePages_congr hcounts, (hleft.slot child).trans (if_pos rfl), t,
    htraps.table?, ?_, fun va => ?_, fun va e hm => ?_⟩
  · have hprocs : kt.procs = k.procs := by
      obtain ⟨_, _, _, _, rfl⟩ := htraps.core
      rfl
    have hstate := htraps.state
    rw [ProcessTable.state_eq, ← hprocs] at hstate
    rw [ProcessTable.table?_eq] at ht
    rw [hslot]
    dsimp only
    rw [hstate, ht]
  · exact (hleft.space ht).walk hg.accounted.fits hg2.accounted.fits (hg.owns.isRoot ht)
      (hg2.owns.isRoot ht2) va
  · rw [hwalk, Except.ok.injEq] at hm
    exact hleft.byte ht hm

/-- A text that calls fork and then exit. -/
def forkThenExit : List Instruction :=
  [⟨.movi, .rax, .rax, 5⟩, ⟨.syscall, .rax, .rax, 0⟩,
    ⟨.movi, .rax, .rax, 6⟩, ⟨.syscall, .rax, .rax, 0⟩]

theorem fork_exit_traceless_text : ∃ k regs kt turn k1 k2 child,
    boot (textLoader forkThenExit) none = .ok k ∧ Calls k 1 .fork regs kt ∧
    run 1 k = .ok turn k1 ∧ child < procCount ∧
    (k1.procs.slot 1).regs.rax = UInt64.ofNat child ∧ RunsToExit child k1 k2 ∧
    k2.frames.freePages = k.frames.freePages ∧ k2.procs.slot child = .unused := by
  obtain ⟨k, hboot, -, htimer, -, hfree, hpages, hall⟩ := boot_text forkThenExit (by decide)
  have hcount : k.timer.count = 1000 := congrArg Timer.count htimer
  have hreach : Reachable (textLoader forkThenExit) k := .boot hboot
  obtain ⟨hat, t, ht, hbut⟩ := hall 1 le_rfl (by decide)
  obtain ⟨regs, kt, turn, k1, hfork, hrun, hk1, hcount1, child, hchild, hrax, hat1⟩ :=
    hat.forks hreach.sound rfl rfl (by omega) ht hbut (show 1 ≤ 5 by decide) (by decide)
      (hfree 5 (.inr le_rfl)) (by omega)
  obtain ⟨regs', kt', turn', k2, hcalls, hrun'⟩ := hat1.exits hk1 rfl rfl (by omega)
  have hexit : RunsToExit child k1 k2 := .exit hcalls hrun'
  obtain ⟨-, hfreePages, hslot, -⟩ :=
    hreach.fork_exit_traceless hfork hrun hchild hrax hexit
  exact ⟨k, regs, kt, turn, k1, k2, child, hboot, hfork, hrun, hchild, hrax, hexit, hfreePages,
    hslot⟩

end Kernel
end PagedKernel
