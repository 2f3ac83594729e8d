import PagedKernel.Proofs.Kernel.Boot
import PagedKernel.Proofs.Kernel.Run
import PagedKernel.Proofs.Spaces.Lockstep

/-!
# The null page

No process maps the null page. A process that is about to execute it meets a page fault, whatever
else it has, and the kernel breaks it and lets the scheduler choose without a halt.

Key theorems: `Core.RunsIn.step_null`, `Kernel.runToTrap_null`, `Kernel.run_null`,
`Kernel.boot_null`.
-/

namespace PagedKernel

namespace Core.RunsIn

variable {n : Nat} [Addressable n] {g : Shape} {f : Frames n} {r : Nat} {c : Core n}

theorem locate_null (h : RunsIn g f r c) (hnull : f.memory.mapped r 0 = none) (access : Access) :
    c.locate 0 access = throw (.page 0 (missingPageCode access true)) := by
  have hpage := h.locate_page (v := 0) (o := 0) (by decide) (by decide) access
  rwa [h.wrote.mapped h.no_table h.fits h.isRoot, hnull] at hpage

theorem fetch_null (h : RunsIn g f r c) (hrip : c.regs.rip = 0)
    (hnull : f.memory.mapped r 0 = none) :
    c.fetch = throw (.page 0 (missingPageCode .execute true)) := by
  have hread : c.readBytes .execute c.regs.rip instructionSize =
      throw (.page 0 (missingPageCode .execute true)) := by
    rw [hrip, show instructionSize = 7 + 1 from rfl, Core.readBytes, h.locate_null hnull .execute]
    rfl
  unfold Core.fetch
  rw [hread]
  rfl

theorem step_null (h : RunsIn g f r c) (hrip : c.regs.rip = 0)
    (hnull : f.memory.mapped r 0 = none) :
    c.step = .ok (some .pageFault, c.record (.page 0 (missingPageCode .execute true))) := by
  unfold Core.step Core.execute
  rw [h.fetch_null hrip hnull]
  rfl

/-- A program that is to execute the null page ends in a page fault at once. -/
theorem run_null (h : RunsIn g f r c) (hrip : c.regs.rip = 0) (hnull : f.memory.mapped r 0 = none)
    {timer : Timer} (hcount : timer.count ≠ 0) :
    ∃ c' timer', c.run timer = .ok (.pageFault, c', timer') ∧ timer'.count + 1 = timer.count := by
  obtain ⟨count, hcount⟩ := Nat.exists_eq_succ_of_ne_zero hcount
  have hrun : Core.runFor timer.quantum timer.count c = .ok (.pageFault, count,
      c.record (.page 0 (missingPageCode .execute true))) := by
    rw [hcount, Core.runFor, h.step_null hrip hnull]
    rfl
  unfold Core.run
  rw [hrun]
  exact ⟨_, _, rfl, hcount.symm⟩

end Core.RunsIn

namespace Kernel

variable {k : Kernel} {pid : Pid}

/-- No process maps the null page. -/
theorem Sound.mapped_null (h : Sound k) {t : PageTable} (ht : k.procs.table? pid = some t) :
    k.frames.memory.mapped t.root.number 0 = none := by
  obtain ⟨g, hg⟩ := h.userland
  exact hg.spaces.mapped_low trivial (hg.owns.isRoot ht) (hg.owns.ne ht) (by decide) (by decide)

/-- **A process that is to execute the null page** meets a page fault. -/
theorem runToTrap_null (h : Sound k) (hrun : k.procs.state pid = .runnable)
    (hrip : (k.procs.slot pid).regs.rip = 0) (hcount : k.timer.count ≠ 0) :
    ∃ t regs k1, runToTrap pid k = .ok (.pageFault, regs) k1 ∧
      Traps k pid t .pageFault regs k1 ∧ k1.timer.count + 1 = k.timer.count := by
  obtain ⟨g, hg⟩ := h.userland
  obtain ⟨t, ht⟩ := Option.ne_none_iff_exists'.mp (hg.owns.runnable hrun)
  obtain ⟨c, timer, hfault, hleft⟩ :=
    (hg.runsIn ht (k.procs.slot pid).regs k.cr2).run_null hrip (h.mapped_null ht) hcount
  obtain ⟨k1, hok, htraps, -, -, rfl⟩ := runToTrap_of_run h hrun ht hfault
  exact ⟨t, c.regs, k1, hok, htraps, hleft⟩

theorem exception_pageFault (h : Sound k) {regs : Registers} (htrap : regs.trap? = some .pageFault)
    (huser : regs.errorCode &&& faultUser ≠ 0) :
    Ends (exception regs) k (fun turn k' => k'.ticks = k.ticks ∧
      k'.procs.state k.current = .broken ∧ schedule k' = .ok turn k') fun _ => False := by
  refine .bind (save_ends h regs) fun _ k1 h1 => ?_
  refine .bind (viewException_ends h1.sound regs) fun _ k2 h2 => ?_
  have h2 : Follows k k2 := h1.trans h2.1
  rw [htrap]
  refine .get ?_
  refine .ite (fun hkernel => absurd (beq_iff_eq.mp hkernel) huser) fun _ => ?_
  refine .bind (report_ends h2.sound _) fun _ k3 h3 => ?_
  have h3 : Follows k k3 := h2.trans h3
  have hcurrent : k2.current = k3.current := h2.current.trans h3.current.symm
  have hends := (modifyProc_ends (E := fun _ => False) h3.sound hcurrent
    (f := fun p => { p with state := .broken }) (fun _ => rfl) fun _ => .inr rfl).eq_ok
      (modifyProc_ok ..)
  refine .step (modifyProc_ok ..) ?_
  have hbroken : (k3.procs.modify k2.current fun p => { p with state := .broken }).state
      k3.current = .broken := by
    rw [hcurrent, ProcessTable.modify_eq _ h3.sound.current, ProcessTable.state_eq,
      ProcessTable.slot_set h3.sound.current, if_pos rfl]
  refine .get ?_
  refine .ite (fun hrun => ?_) fun _ => ?_
  · dsimp only at hrun
    rw [hbroken] at hrun
    cases hrun
  · obtain ⟨turn, _, hok, rfl, -⟩ := (schedule_ends (E := fun _ => False) hends.sound).ok
    refine .of_ok hok ⟨h3.ticks, ?_, hok⟩
    rw [← h3.current]
    exact hbroken

theorem run_null (h : Sound k) (hrun : k.procs.state pid = .runnable)
    (hrip : (k.procs.slot pid).regs.rip = 0) (hcount : k.timer.count ≠ 0) :
    ∃ turn k', run pid k = .ok turn k' ∧ k'.timer.count + 1 = k.timer.count ∧
      k'.current = pid ∧ k'.procs.state pid = .broken ∧ schedule k' = .ok turn k' := by
  obtain ⟨t, regs, k1, htrap, htraps, hleft⟩ := runToTrap_null h hrun hrip hcount
  have hcurrent : k1.current = pid := htraps.follows.current
  obtain ⟨turn, k', hok, hticks, hbroken, hschedule⟩ :=
    (exception_pageFault htraps.follows.sound htraps.trap? (htraps.byUser rfl)).ok
  have hserved : Served none k1 turn k' := (exception_ends (E := fun _ => True)
    htraps.follows.sound regs (fun _ _ => trivial) (fun _ _ _ => trivial) fun _ _ =>
    trivial).eq_ok hok
  have hrun : run pid k = .ok turn k' := (run_of_trap htrap).trans hok
  refine ⟨turn, k', hrun, ?_, hserved.1.current.trans hcurrent, hcurrent ▸ hbroken, hschedule⟩
  obtain ⟨-, htimer, -⟩ | ⟨hticks', -⟩ := exception_clock hok
  · rw [htimer, hleft]
  · exact absurd (hticks.symm.trans hticks') (Nat.ne_of_lt (Nat.lt_succ_self _))

/-- Every program there is starts at the null page. -/
def nullLoader : Loader :=
  fun name => some ⟨name, 0, []⟩

/-- The kernel boots with four such programs. -/
theorem boot_null : ∃ k, boot nullLoader none = .ok k ∧ k.timer.count = 1000 ∧ k.current = 0 ∧
    k.procs.state 0 = .free ∧ 204 ≤ k.frames.freePages ∧
    ∀ pid, 1 ≤ pid → pid ≤ 4 → k.procs.state pid = .runnable ∧
      (k.procs.slot pid).regs.rip = 0 := by
  obtain ⟨k, hboot, -, htimer, hcurrent, hpages, hfree, hall⟩ :=
    boot_default nullLoader fun name => ⟨_, rfl, .inl rfl⟩
  refine ⟨k, hboot, by rw [htimer], hcurrent, hfree 0 (.inl one_pos), hpages, fun pid h1 h4 => ?_⟩
  obtain ⟨name, program, hname, t, hslot, -⟩ := hall pid h1 h4
  obtain rfl := Option.some.inj hname
  rw [ProcessTable.state_eq, hslot]
  exact ⟨rfl, rfl⟩

end Kernel
end PagedKernel
