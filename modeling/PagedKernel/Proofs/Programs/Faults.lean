import PagedKernel.Proofs.Kernel.Calls
import PagedKernel.Proofs.Kernel.Pausing

/-!
# Programs that fault

A program that meets a page fault before the timer fires is broken. If its process is the only one
that can run, the main loop ends there, since nothing is left to run. So it is with a program that
reads the null page, and with one that writes to its own text.

Key definition: `Core.Faults`.
Key theorems: `Core.Placed.faults_null`, `Core.Placed.faults_text`,
`Kernel.Sound.runFrom_faults`.
-/

namespace PagedKernel

namespace Core

variable {n : Nat} {c c' : Core n} {i : Instruction} {k : Nat}

/-- The program meets a page fault before it has completed `k` instructions. -/
def Faults (c : Core n) (k : Nat) : Prop :=
  ∀ quantum count, k ≤ count →
    ∃ left c', Core.runFor quantum count c = .ok (.pageFault, left, c')

namespace Faults

theorem step (h : c'.Faults k) (hf : c.fetch = pure i) (hop : i.op ≠ .syscall)
    (hc : c.complete i = pure c') : c.Faults (k + 1) := by
  intro quantum count hcount
  obtain ⟨count, rfl⟩ := Nat.exists_eq_succ_of_ne_zero (Nat.ne_zero_of_lt hcount)
  obtain ⟨left, d, hrun⟩ := h quantum count (Nat.le_of_succ_le_succ hcount)
  exact ⟨left, d, (runFor_step hf hop hc).trans hrun⟩

theorem of_fault {addr code : UInt64} (hf : c.fetch = pure i)
    (hc : c.complete i = throw (.page addr code)) : c.Faults 1 := by
  intro quantum count hcount
  obtain ⟨count, rfl⟩ := Nat.exists_eq_succ_of_ne_zero (Nat.ne_zero_of_lt hcount)
  have hstep : c.step = .ok (some .pageFault, c.record (.page addr code)) := by
    unfold Core.step Core.execute
    rw [hf, pure_bind, hc]
    rfl
  refine ⟨count, c.record (.page addr code), ?_⟩
  rw [Core.runFor, hstep]
  rfl

theorem run (h : c.Faults k) {timer : Timer} (hcount : k ≤ timer.count) :
    ∃ c' timer', c.run timer = .ok (.pageFault, c', timer') := by
  obtain ⟨left, d, hrun⟩ := h timer.quantum timer.count hcount
  unfold Core.run
  rw [hrun]
  exact ⟨_, _, rfl⟩

end Faults

/-! ### Two programs -/

section
variable [Addressable n] {g : Shape} {f : Frames n} {r v j : Nat} {text : List Instruction}
  {a b b1 b2 : Reg} {imm imm' : Int32}

/-- A program that sets a register goes on, and faults if it does from there on. -/
theorem Placed.movi (h : Placed g f r v text j c) (hi : text[j]? = some ⟨.movi, a, b, imm⟩) :
    ∃ d, Placed g f r v text (j + 1) d ∧ (∀ {k}, d.Faults k → c.Faults (k + 1)) ∧
      ∀ q, d.regs.get q = if q = a then signExtend imm else c.regs.get q :=
  ⟨(c.setReg a (signExtend imm)).jump (c.regs.rip + 8), h.setReg a _,
    fun hfaults => hfaults.step (h.fetch hi) nofun rfl,
    fun q => (Core.get_jump _ _ q).trans (Registers.get_set ..)⟩

/-- **A program that reads the null page** meets a page fault. -/
theorem Placed.faults_null (h : Placed g f r v text j c)
    (hmovi : text[j]? = some ⟨.movi, b, b1, 0⟩) (hload : text[j + 1]? = some ⟨.load, a, b, 0⟩)
    (hnull : f.memory.mapped r 0 = none) : c.Faults 2 := by
  obtain ⟨d, h1, hfaults, hget⟩ := h.movi hmovi
  have haddr : d.regs.get b + signExtend 0 = 0 := by
    rw [hget, if_pos rfl]
    rfl
  have hthrow : d.complete ⟨.load, a, b, 0⟩ =
      throw (.page 0 (missingPageCode .read true)) := by
    show d.loadWord (d.regs.get b + signExtend 0) >>= _ = _
    unfold Core.loadWord
    rw [haddr, show 8 = 7 + 1 from rfl, Core.readBytes, h1.locate_null hnull .read]
    rfl
  exact hfaults (.of_fault (h1.fetch hload) hthrow)

/-- Text cannot be written. -/
theorem Placed.locate_write (h : Placed g f r v text j c) : ∃ code,
    c.locate (UInt64.ofNat (v * pageSize)) .write =
      throw (.page (UInt64.ofNat (v * pageSize)) code) := by
  obtain ⟨-, p, hp, -, hm, -⟩ := h.text
  have hlocate := h.locate_page h.low (o := 0) (by decide) .write
  rw [hm, Nat.add_zero] at hlocate
  dsimp only at hlocate
  rw [Entry.large_link hp, Entry.user_link hp, Entry.writable_link hp] at hlocate
  exact ⟨_, hlocate⟩

/-- **A program that writes to its text** meets a page fault. -/
theorem Placed.faults_text (h : Placed g f r v text j c) (hne : a ≠ b)
    (himm : signExtend imm = UInt64.ofNat (v * pageSize))
    (hbase : text[j]? = some ⟨.movi, a, b1, imm⟩)
    (hvalue : text[j + 1]? = some ⟨.movi, b, b2, imm'⟩)
    (hstore : text[j + 2]? = some ⟨.storeByte, a, b, 0⟩) : c.Faults 3 := by
  obtain ⟨d1, h1, hfaults1, hget1⟩ := h.movi hbase
  obtain ⟨d, h2, hfaults2, hget2⟩ := h1.movi hvalue
  have haddr : d.regs.get a + signExtend 0 = UInt64.ofNat (v * pageSize) := by
    rw [hget2, if_neg hne, hget1, if_pos rfl, himm]
    exact UInt64.add_zero _
  obtain ⟨code, hlocate⟩ := h2.locate_write
  have hthrow : d.complete ⟨.storeByte, a, b, 0⟩ =
      throw (.page (UInt64.ofNat (v * pageSize)) code) := by
    show d.store (d.regs.get a + signExtend 0) [(d.regs.get b).toUInt8] >>= _ = _
    unfold Core.store
    rw [haddr, List.length_singleton, show 1 = 0 + 1 from rfl, Core.writeTargets, hlocate]
    rfl
  exact hfaults1 (hfaults2 (.of_fault (h2.fetch hstore) hthrow))

end

end Core

/-! ### The only process -/

namespace Kernel

variable {k : Kernel} {pid : Pid} {t : PageTable} {j : Nat}

/-- **The only process that can run** meets a page fault, and nothing can run any more. -/
theorem Sound.run_faults (h : Sound k) (hrun : k.procs.state pid = .runnable)
    (ht : k.procs.table? pid = some t) (hfaults : (k.core pid t).Faults j)
    (hcount : j ≤ k.timer.count) (halone : ∀ q, q ≠ pid → k.procs.state q ≠ .runnable) :
    ∃ k', run pid k = .ok .idle k' ∧ Sound k' ∧ k'.ticks = k.ticks ∧
      ∀ q, k'.procs.state q ≠ .runnable := by
  obtain ⟨c, timer, hcore⟩ := hfaults.run hcount
  obtain ⟨kt, htrap, htraps, -⟩ := runToTrap_of_run h hrun ht hcore
  obtain ⟨turn, k', hok, hticks, hbroken, -⟩ :=
    (exception_pageFault htraps.follows.sound htraps.trap? (htraps.byUser rfl)).ok
  replace hok : run pid k = .ok turn k' := (run_of_trap htrap).trans hok
  obtain ⟨_, _, _, _, htrap', -, -, hanswers⟩ := run_answers h hok
  rw [htrap] at htrap'
  cases htrap'
  have hcurrent : kt.current = pid := htraps.follows.current
  rw [hcurrent] at hbroken
  have hstuck : ∀ q, k'.procs.state q ≠ .runnable := fun q => by
    by_cases hq : q = pid
    · rw [hq, hbroken]
      exact nofun
    · rw [ProcessTable.state_eq, hanswers.slot nofun q (hcurrent ▸ hq), htraps.procs,
        ← ProcessTable.state_eq]
      exact halone q hq
  obtain ⟨hsound, hready⟩ := run_sound h hok
  cases turn with
  | run q => exact absurd (hready q rfl) (hstuck q)
  | idle => exact ⟨k', hok, hsound, hticks.trans htraps.follows.ticks, hstuck⟩

theorem Sound.runFrom_faults (h : Sound k) (hrun : k.procs.state pid = .runnable)
    (ht : k.procs.table? pid = some t) (hfaults : (k.core pid t).Faults j)
    (hcount : j ≤ k.timer.count) (halone : ∀ q, q ≠ pid → k.procs.state q ≠ .runnable) {time : Nat}
    (hlt : k.ticks < time) :
    ∃ k', runFrom (atTick time) () (.run pid) k = .ok (.idle, ()) k' := by
  obtain ⟨k1, hok, h1, hticks, hstuck⟩ := h.run_faults hrun ht hfaults hcount halone
  obtain ⟨k2, hidle, -⟩ := idle_stuck h1 hstuck redrawSpins
  refine ⟨k2, ?_⟩
  rw [runFrom_eq, atTick_false.mpr hlt]
  dsimp only
  rw [hok]
  dsimp only
  rw [runFrom_eq, atTick_false.mpr (hticks ▸ hlt)]
  dsimp only
  rw [hidle]

end Kernel
end PagedKernel
