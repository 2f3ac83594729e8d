import PagedKernel.Kernel.Handler

/-!
# The clock moves with the timer alone

Whatever the kernel does, its clock and its timer stay as they are, but for two things: the timer
counts the instructions that a program attempts, and a timer interrupt moves the clock on by one. So
each time a process runs, the clock moves on or the timer has less left to count. The clock cannot
move on for ever, since a word bounds it: this is why the kernel's main loop ends.

Key definitions: `KeepsClock`.
Key theorems: `Core.runFor_count`, `Kernel.exception_clock`, `Kernel.syscall_keepsClock`.
-/

namespace PagedKernel

/-- A sequence of two computations that ends without a halt is one of two that do. -/
theorem HaltM.bind_eq_ok {σ α β : Type} {x : HaltM σ α} {f : α → HaltM σ β} {s s' : σ} {b : β}
    (h : (x >>= f) s = .ok b s') : ∃ a s1, x s = .ok a s1 ∧ f a s1 = .ok b s' := by
  change EStateM.bind x f s = _ at h
  unfold EStateM.bind at h
  split at h
  · next a s1 h1 => exact ⟨a, s1, h1, h⟩
  · cases h

/-- A program that stops before the timer fires leaves the timer less to count. -/
theorem Core.runFor_count {n : Nat} {quantum : Nat} :
    ∀ {count : Nat} {c c' : Core n} {trap : Trap} {left : Nat},
      Core.runFor quantum count c = .ok (trap, left, c') → trap = .timer ∨ left < count
  | 0, _, _, _, _, h => by
    cases h
    exact .inl rfl
  | count + 1, c, c', trap, left, h => by
    unfold Core.runFor at h
    change Except.bind _ _ = _ at h
    unfold Except.bind at h
    split at h
    · cases h
    · dsimp only at h
      split at h
      · rcases runFor_count h with h | h
        · exact .inl h
        · exact .inr (by omega)
      · cases h
        exact .inr (by omega)

/-- A computation that leaves the clock and the timer alone. -/
def KeepsClock {α : Type} (x : KernelM α) : Prop :=
  ∀ k a k', x k = .ok a k' → k'.ticks = k.ticks ∧ k'.timer = k.timer

namespace KeepsClock

variable {α β : Type}

theorem pure (a : α) : KeepsClock (Pure.pure a : KernelM α) := by
  intro k a' k' h
  cases h
  exact ⟨rfl, rfl⟩

theorem throw (e : Halt) : KeepsClock (MonadExcept.throw e : KernelM α) := by
  intro k a k' h
  cases h

theorem get : KeepsClock (MonadState.get : KernelM Kernel) := by
  intro k a k' h
  cases h
  exact ⟨rfl, rfl⟩

theorem lift (x : Except Halt α) : KeepsClock (liftM x : KernelM α) := by
  intro k a k' h
  cases x <;> cases h
  exact ⟨rfl, rfl⟩

theorem onUserland (x : UserlandM physicalPages α) : KeepsClock (Kernel.onUserland x) := by
  intro k a k' h
  unfold Kernel.onUserland at h
  split at h <;> cases h
  exact ⟨rfl, rfl⟩

theorem setViewer (v : Viewer) :
    KeepsClock (modify fun k => { k with viewer := v } : KernelM Unit) := by
  intro k a k' h
  cases h
  exact ⟨rfl, rfl⟩

theorem bind {x : KernelM α} {f : α → KernelM β} (hx : KeepsClock x) (hf : ∀ a, KeepsClock (f a)) :
    KeepsClock (x >>= f) := by
  intro k b k' h
  obtain ⟨a, k1, h1, h2⟩ := HaltM.bind_eq_ok h
  have hx := hx k a k1 h1
  have hf := hf a k1 b k' h2
  exact ⟨hf.1.trans hx.1, hf.2.trans hx.2⟩

theorem ite {x y : KernelM α} {c : Prop} [Decidable c] (hx : KeepsClock x) (hy : KeepsClock y) :
    KeepsClock (if c then x else y) := by
  split
  · exact hx
  · exact hy

end KeepsClock

namespace Kernel

theorem report_keepsClock (notice : Notice) : KeepsClock (report notice) :=
  .onUserland _

theorem modifyProc_keepsClock (pid : Pid) (f : ProcessSlot → ProcessSlot) :
    KeepsClock (modifyProc pid f) :=
  .onUserland _

theorem save_keepsClock (regs : Registers) : KeepsClock (save regs) :=
  .bind .get fun _ => modifyProc_keepsClock _ _

theorem setResult_keepsClock (pid : Pid) (v : UInt64) : KeepsClock (setResult pid v) :=
  modifyProc_keepsClock _ _

theorem schedule_keepsClock : KeepsClock schedule :=
  .bind .get fun _ => .bind (.lift _) fun next => by
    cases next <;> exact .pure _

theorem resume_keepsClock : KeepsClock resume :=
  .bind .get fun _ => .ite (.pure _) schedule_keepsClock

theorem updateViewer_keepsClock : KeepsClock updateViewer :=
  .bind .get fun _ => .bind (.onUserland _) fun _ => .setViewer _

theorem callPageAlloc_keepsClock (pid : Pid) (addr : UInt64) :
    KeepsClock (callPageAlloc pid addr) := by
  refine .bind .get fun k => ?_
  cases k.procs.table? pid with
  | none => exact .throw _
  | some t => exact .bind (.onUserland _) fun _ => .pure _

theorem callFork_keepsClock (pid : Pid) : KeepsClock (callFork pid) := by
  refine .bind (.onUserland _) fun r => ?_
  cases r with
  | ok child => exact .pure _
  | error cause => exact .bind (report_keepsClock _) fun _ => .pure _

theorem viewException_keepsClock (regs : Registers) : KeepsClock (viewException regs) :=
  .ite (.pure _) updateViewer_keepsClock

theorem pageFault_keepsClock (regs : Registers) : KeepsClock (pageFault regs) :=
  .bind .get fun _ => .ite (.bind (.throw _) fun _ => .bind (report_keepsClock _) fun _ =>
    .bind (modifyProc_keepsClock _ _) fun _ => resume_keepsClock)
    (.bind (report_keepsClock _) fun _ => .bind (modifyProc_keepsClock _ _) fun _ =>
      resume_keepsClock)

/-- A timer interrupt moves the clock on by one, and leaves the count of the timer alone. -/
theorem tick_clock {k k' : Kernel} (h : tick k = .ok () k') :
    k'.ticks = k.ticks + 1 ∧ k.ticks + 1 < UInt64.size := by
  by_cases hlt : k.ticks + 1 < UInt64.size
  · have : tick k = .ok () { k with ticks := k.ticks + 1, timer := k.timer.ack } := by
      change (if k.ticks + 1 < UInt64.size then _ else _ : KernelM Unit) k = _
      rw [if_pos hlt]
      rfl
    rw [this] at h
    cases h
    exact ⟨rfl, hlt⟩
  · have : tick k = .error .overflow k := by
      change (if k.ticks + 1 < UInt64.size then _ else _ : KernelM Unit) k = _
      rw [if_neg hlt]
      rfl
    rw [this] at h
    cases h

/-- **The clock moves on just at timer interrupts.** -/
theorem exception_clock {regs : Registers} {k k' : Kernel} {r : Turn}
    (h : exception regs k = .ok r k') :
    (k'.ticks = k.ticks ∧ k'.timer = k.timer ∧ regs.trap? ≠ some .timer) ∨
      (k'.ticks = k.ticks + 1 ∧ k.ticks + 1 < UInt64.size ∧ regs.trap? = some .timer) := by
  obtain ⟨_, k1, h1, h⟩ := HaltM.bind_eq_ok h
  obtain ⟨_, k2, h2, h⟩ := HaltM.bind_eq_ok h
  have h1 := save_keepsClock regs _ _ _ h1
  have h2 := viewException_keepsClock regs _ _ _ h2
  cases ht : regs.trap? with
  | none => simp only [ht] at h; cases h
  | some trap =>
    simp only [ht] at h
    cases trap with
    | timer =>
      obtain ⟨_, k3, h3, h⟩ := HaltM.bind_eq_ok h
      have h3 := tick_clock h3
      have h4 := schedule_keepsClock _ _ _ h
      exact .inr ⟨by omega, by omega, rfl⟩
    | pageFault =>
      have h3 := pageFault_keepsClock regs _ _ _ h
      exact .inl ⟨by omega, h3.2.trans (h2.2.trans h1.2), by simp⟩
    | _ => cases h

/-- A system call leaves the clock and the timer alone. -/
theorem syscall_keepsClock (regs : Registers) : KeepsClock (syscall regs) := by
  refine .bind (save_keepsClock regs) fun _ => .bind updateViewer_keepsClock fun _ =>
    .bind .get fun k => ?_
  cases SystemCall.ofRegisters? regs with
  | none => exact .throw _
  | some call =>
    cases call with
    | panic => exact .throw _
    | getpid => exact .bind (setResult_keepsClock _ _) fun _ => resume_keepsClock
    | yield => exact .bind (setResult_keepsClock _ _) fun _ => schedule_keepsClock
    | pageAlloc addr =>
      exact .bind (callPageAlloc_keepsClock _ _) fun _ => .bind (setResult_keepsClock _ _)
        fun _ => resume_keepsClock
    | fork =>
      exact .bind (callFork_keepsClock _) fun _ => .bind (setResult_keepsClock _ _)
        fun _ => resume_keepsClock
    | exit =>
      exact .bind (.onUserland _) fun _ => .bind (report_keepsClock _) fun _ => schedule_keepsClock

end Kernel
end PagedKernel
