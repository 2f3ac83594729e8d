import PagedKernel.Proofs.Kernel.Text

/-!
# Counting down

A process whose text is `countdown` prepares two registers, counts down from 500 in a loop of two
instructions, and makes a system call. With 1000 instructions to a turn, the timer preempts it one
round before the end of the loop.

Key definitions: `countdown`, `Core.Counting`, `Kernel.Counted`.
Key theorems: `Core.Counting.rounds`, `Core.Placed.run_countdown`, `Kernel.Counted.succ`.
-/

namespace PagedKernel

/-- Count down from 500, and make a system call. -/
def countdown : List Instruction :=
  [⟨.movi, .rcx, .rax, 500⟩, ⟨.movi, .rbx, .rax, 0⟩, ⟨.addi, .rcx, .rax, -1⟩,
    ⟨.jne, .rcx, .rbx, -16⟩, ⟨.syscall, .rax, .rax, 0⟩]

/-! ### The loop -/

namespace Core

variable {n : Nat} {g : Shape} {f : Frames n} {r v x : Nat} {c c' : Core n}

/-- The core is about to count down from `x`, in the space with root `r`. -/
structure Counting (g : Shape) (f : Frames n) (r v x : Nat) (c : Core n) : Prop
    extends Placed g f r v countdown 2 c where
  rcx : c.regs.rcx = UInt64.ofNat x
  rbx : c.regs.rbx = 0

variable [Addressable n]

/-- Two instructions prepare the registers. -/
theorem Placed.prepares (h : Placed g f r v countdown 0 c) :
    ∃ c', Leads 2 c c' ∧ Counting g f r v 500 c' := by
  have h1 := h.setReg .rcx 500
  exact ⟨_, (Leads.of_complete (h.fetch rfl) nofun rfl).trans
    (.of_complete (h1.fetch rfl) nofun rfl), h1.setReg .rbx 0, rfl, rfl⟩

/-- The jump leads back to the beginning of the round. -/
theorem rip_back (v : Nat) : UInt64.ofNat (v * pageSize + instructionSize * 3) + 8 +
    signExtend (-16) = UInt64.ofNat (v * pageSize + instructionSize * 2) := by
  rw [← rip_succ v 2, UInt64.add_assoc, UInt64.add_assoc,
    show (8 + (8 + signExtend (-16)) : UInt64) = 0 from rfl, UInt64.add_zero]

theorem Counting.decrement (h : Counting g f r v (x + 1) c) : ∃ c', Leads 1 c c' ∧
    Placed g f r v countdown 3 c' ∧ c'.regs.rcx = UInt64.ofNat x ∧ c'.regs.rbx = 0 := by
  have hrcx : c.regs.rcx + signExtend (-1) = UInt64.ofNat x := by
    rw [h.rcx, UInt64.ofNat_add, UInt64.add_assoc,
      show (UInt64.ofNat 1 + signExtend (-1) : UInt64) = 0 from rfl, UInt64.add_zero]
  have hc : c.complete ⟨.addi, .rcx, .rax, -1⟩ =
      pure ((c.setReg .rcx (UInt64.ofNat x)).jump (c.regs.rip + 8)) := by
    rw [← hrcx]
    rfl
  exact ⟨_, .of_complete (h.fetch rfl) nofun hc, h.setReg .rcx _, rfl, h.rbx⟩

/-- **A round** that is not the last one leads to the next. -/
theorem Counting.round (h : Counting g f r v (x + 1) c) (hpos : x ≠ 0) (hx : x < 2 ^ 64) :
    ∃ c', Leads 2 c c' ∧ Counting g f r v x c' := by
  obtain ⟨c1, hleads, h1, hrcx, hrbx⟩ := h.decrement
  have hne : (c1.regs.rcx != c1.regs.rbx) = true := by
    rw [hrcx, hrbx, bne_iff_ne, ne_eq, ← UInt64.toNat_inj, UInt64.toNat_ofNat_of_lt' hx]
    exact hpos
  have hback : c1.complete ⟨.jne, .rcx, .rbx, -16⟩ =
      pure (c1.jump (UInt64.ofNat (v * pageSize + instructionSize * 2))) := by
    rw [← rip_back, ← h1.rip]
    show pure (c1.jump (if (c1.regs.rcx != c1.regs.rbx) = true then _ else _)) = _
    rw [if_pos hne]
  exact ⟨_, hleads.trans (.of_complete (h1.fetch rfl) nofun hback), h1.jump rfl, hrcx, hrbx⟩

/-- **Rounds** count down, as long as the last one is not among them. -/
theorem Counting.rounds (hpos : x ≠ 0) : ∀ (m : Nat) {c : Core n}, m + x < 2 ^ 64 →
    Counting g f r v (m + x) c → ∃ c', Leads (2 * m) c c' ∧ Counting g f r v x c'
  | 0, c, _, h => ⟨c, fun _ _ => rfl, by rwa [Nat.zero_add] at h⟩
  | m + 1, c, hlt, h => by
    rw [Nat.add_right_comm] at h
    obtain ⟨c1, hleads1, h1⟩ := h.round (by omega) (by omega)
    obtain ⟨c2, hleads2, h2⟩ := rounds hpos m (by omega) h1
    exact ⟨c2, hleads1.trans hleads2, h2⟩

/-- After the last round there is a system call. -/
theorem Counting.last (h : Counting g f r v 1 c) {timer : Timer} (hcount : 3 ≤ timer.count) :
    ∃ c', c.run timer = .ok (.syscall, c', { timer with count := timer.count - 3 }) := by
  obtain ⟨c1, hleads, h1, hrcx, hrbx⟩ := h.decrement
  have hon : c1.complete ⟨.jne, .rcx, .rbx, -16⟩ = pure (c1.jump (c1.regs.rip + 8)) := by
    show pure (c1.jump (if (c1.regs.rcx != c1.regs.rbx) = true then _ else _)) = _
    rw [if_neg (by rw [hrcx, hrbx]; exact Bool.false_ne_true)]
  have hleads2 := hleads.trans (.of_complete (h1.fetch rfl) nofun hon)
  obtain ⟨c2, hrun, -⟩ := hleads2.run_call h1.skip rfl hcount
  exact ⟨c2, hrun⟩

/-- **The first turn** ends one round before the end. -/
theorem Placed.run_countdown (h : Placed g f r v countdown 0 c) {timer : Timer}
    (hcount : timer.count = 1000) :
    ∃ c', c.run timer = .ok (.timer, c', { timer with count := timer.quantum }) ∧
      Counting g f r v 1 c' := by
  obtain ⟨c1, hleads1, h1⟩ := h.prepares
  obtain ⟨c2, hleads2, h2⟩ := Counting.rounds one_ne_zero 499 (by decide) h1
  unfold Core.run
  rw [hcount, show (1000 : Nat) = 0 + (2 * 499 + 2) from rfl, hleads1.trans hleads2]
  exact ⟨_, rfl, ⟨h2.of_memory_eq rfl rfl, h2.text, h2.low, h2.rip⟩, h2.rcx, h2.rbx⟩

omit [Addressable n] in
/-- Each instruction is completed. It has no operand in memory, and unless it is the system call,
another one comes next. -/
theorem Placed.complete_countdown {j : Nat} (h : Placed g f r v countdown j c)
    (hj : j < countdown.length) : ∃ i c', countdown[j]? = some i ∧ c.operands i = [] ∧
      c.complete i = pure c' ∧
      (i.op = .syscall ∨ ∃ j' < countdown.length, Placed g f r v countdown j' c') := by
  match j, hj with
  | 0, _ => exact ⟨_, _, rfl, rfl, rfl, .inr ⟨1, by decide, h.setReg .rcx _⟩⟩
  | 1, _ => exact ⟨_, _, rfl, rfl, rfl, .inr ⟨2, by decide, h.setReg .rbx _⟩⟩
  | 2, _ => exact ⟨_, _, rfl, rfl, rfl, .inr ⟨3, by decide, h.setReg .rcx _⟩⟩
  | 3, _ =>
    refine ⟨_, _, rfl, rfl, rfl, .inr ?_⟩
    by_cases hne : (c.regs.get .rcx != c.regs.get .rbx) = true
    · refine ⟨2, by decide, h.jump ?_⟩
      rw [if_pos hne, h.rip, rip_back]
    · refine ⟨4, by decide, h.jump ?_⟩
      rw [if_neg hne, h.rip, rip_succ]
  | 4, _ => exact ⟨_, _, rfl, rfl, rfl, .inl rfl⟩

theorem Placed.step_countdown {j : Nat} (h : Placed g f r v countdown j c)
    (hj : j < countdown.length) : (∀ pa ∈ c.accesses, pa.pageNumber ≠ consolePage) ∧
      ∀ c', c.step = .ok (none, c') → ∃ j' < countdown.length, Placed g f r v countdown j' c' := by
  obtain ⟨i, c1, hi, hops, hc, hnext⟩ := h.complete_countdown hj
  refine ⟨fun pa hpa => (h.accesses_text hi hops pa hpa).ne_console, fun c' hstep => ?_⟩
  rw [step_eq (h.fetch hi) hc] at hstep
  by_cases hop : i.op = .syscall
  · rw [if_pos hop] at hstep
    cases hstep
  · rw [if_neg hop] at hstep
    cases hstep
    exact hnext.resolve_left hop

end Core

/-! ### Turns -/

namespace Kernel

variable {k k' : Kernel} {pid : Pid} {i : Nat}

/-- Process `pid` is about to begin the last round. -/
structure AtLastRound (k : Kernel) (pid : Pid) : Prop extends At k pid countdown 2 where
  rcx : (k.procs.slot pid).regs.rcx = 1
  rbx : (k.procs.slot pid).regs.rbx = 0

/-- The first `i` of four such processes have had a turn, and it is the turn of the next. -/
structure Counted (k : Kernel) (i : Nat) : Prop where
  sound : Sound k
  current : k.current = i
  ticks : k.ticks = i + 1
  count : k.timer.count = 1000
  quantum : k.timer.quantum = 1000
  free : ∀ q : Nat, q < 1 ∨ 5 ≤ q → k.procs.state q = .free
  had : ∀ q : Nat, 1 ≤ q → q ≤ i → AtLastRound k q
  next : ∀ q : Nat, i < q → q ≤ 4 → At k q countdown 0

theorem AtLastRound.spared (h : AtLastRound k pid)
    (hspares : Userland.Spares pid k.toUserland k'.toUserland) : AtLastRound k' pid :=
  ⟨h.toAt.spared hspares, hspares.slot ▸ h.rcx, hspares.slot ▸ h.rbx⟩

/-- **A turn** of the next process, which the timer ends. -/
theorem Counted.succ (h : Counted k i) (hi : i < 4) : ∃ regs kt turn k',
    runToTrap (i + 1) k = .ok (.timer, regs) kt ∧ run (i + 1) k = .ok turn k' ∧
      Counted k' (i + 1) ∧ schedule k' = .ok turn k' := by
  have hat : At k (i + 1) countdown 0 := h.next (i + 1) (Nat.lt_succ_self i) hi
  obtain ⟨t, g, ht, hplaced⟩ := hat.placed h.sound
  obtain ⟨c, hrun, hcounting⟩ := hplaced.run_countdown h.count
  have hclock : k.ticks + 1 < 2 ^ 64 := by
    rw [h.ticks]
    omega
  obtain ⟨kt, turn, k', htrap, hok, hat', hprocs, hcurrent, hticks, htimer, hschedule⟩ :=
    hat.preempted h.sound ht hrun hcounting.toPlaced hclock
  obtain ⟨⟨hk', -⟩, hconcerns⟩ := run_ok h.sound hok
  have hp : i + 1 < procCount := ProcessTable.lt_of_table? ht
  have hregs : (k'.procs.slot (i + 1)).regs = c.regs := by
    rw [hprocs, ProcessTable.slot_set hp, if_pos rfl]
  have hspares : ∀ q : Nat, q ≠ i + 1 → k.procs.state q = .runnable →
      Userland.Spares q k.toUserland k'.toUserland := fun q hne hrunnable =>
    hconcerns q hne (by rw [hrunnable]; nofun)
  refine ⟨_, kt, turn, k', htrap, hok, ⟨hk', hcurrent, by rw [hticks, h.ticks], ?_, ?_,
    fun q hq => ?_, fun q h1 hle => ?_, fun q hlt h4 => ?_⟩, hschedule⟩
  · rw [htimer]
    exact h.quantum
  · rw [htimer]
    exact h.quantum
  · have hne : q ≠ i + 1 := by omega
    rw [hprocs, ProcessTable.state_set hp, if_neg hne, h.free q hq]
  · rcases Nat.lt_or_eq_of_le hle with hlt | rfl
    · have hlast := h.had q h1 (Nat.le_of_lt_succ hlt)
      exact hlast.spared (hspares q (Nat.ne_of_lt hlt) hlast.state)
    · exact ⟨hat', hregs ▸ hcounting.rcx, hregs ▸ hcounting.rbx⟩
  · have hq := h.next q (Nat.lt_of_succ_lt hlt) h4
    exact hq.spared (hspares q (Nat.ne_of_gt hlt) hq.state)

theorem Counted.schedule_eq (h : Counted k i) (h1 : 1 ≤ i) (h4 : i ≤ 4) {turn : Turn}
    (hok : schedule k = .ok turn k') : turn = .run (i % 4 + 1) := by
  rcases Nat.lt_or_eq_of_le h4 with hlt | rfl
  · have hnext := (h.next (i + 1) (Nat.lt_succ_self i) hlt).state
    rw [schedule_succ h.current (lt_of_le_of_lt hlt (show 4 < procCount by decide)) hnext] at hok
    cases hok
    rw [Nat.mod_eq_of_lt hlt]
  have hrun : ∀ q : Nat, 1 ≤ q → q ≤ 4 → k.procs.state q = .runnable := fun q h1 h4 =>
    (h.had q h1 h4).state
  cases turn with
  | idle => exact absurd (hrun 1 le_rfl (by decide)) (schedule_idle h.sound.current hok 1)
  | run q =>
    obtain ⟨-, hnext⟩ := schedule_eq_ok hok
    have hq := hnext q rfl
    rw [h.current] at hq
    obtain ⟨i, hi, hle, rfl, hrunnable, hbefore⟩ := ProcessTable.nextRunnable_some hq
    -- the slots from 5 on are skipped, and so is slot 0
    rcases Nat.lt_trichotomy i 13 with hlt | rfl | hgt
    · rw [h.free _ (by unfold procCount; omega)] at hrunnable
      cases hrunnable
    · rfl
    · exact absurd (hrun 1 le_rfl (by decide)) (hbefore 13 (by decide) hgt)

/-- The last round ends in the system call. -/
theorem AtLastRound.calls (h : AtLastRound k pid) (hk : Sound k) (hcount : 3 ≤ k.timer.count) :
    ∃ regs kt, runToTrap pid k = .ok (.syscall, regs) kt := by
  obtain ⟨t, g, ht, hplaced⟩ := h.placed hk
  obtain ⟨c, hrun⟩ := Core.Counting.last ⟨hplaced, h.rcx, h.rbx⟩ hcount
  obtain ⟨kt, hok, -⟩ := runToTrap_of_run hk h.state ht hrun
  exact ⟨c.regs, kt, hok⟩

theorem boot_countdown : ∃ k, boot (textLoader countdown) none = .ok k ∧ Counted k 0 := by
  obtain ⟨k, hboot, hticks, htimer, hcurrent, hfree, -, hall⟩ := boot_text countdown (by decide)
  exact ⟨k, hboot, boot_sound hboot, hcurrent, hticks, congrArg Timer.count htimer,
    congrArg Timer.quantum htimer, hfree, fun q h1 h0 => absurd (h1.trans h0) (by decide),
    fun q hpos h4 => (hall q hpos h4).1⟩

end Kernel
end PagedKernel
