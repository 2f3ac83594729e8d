import PagedKernel.Kernel.Clock

/-!
# Running processes

`Kernel.run` lets a process run until it traps, and handles the trap. `Kernel.runUntil` goes on with
whatever the kernel resumes until a condition holds or nothing can run. It ends: each time a process
runs, the clock moves on or the timer has less left to count, and the clock is bounded by a word.

Key definitions: `Kernel.run`, `Kernel.idle`, `Kernel.runUntil`.
Key theorem: `Kernel.run_clock`.
-/

namespace PagedKernel

/-- Why the kernel stopped running processes. -/
inductive Ending
  /-- The condition holds. -/
  | condition
  /-- No process can run. -/
  | idle
deriving DecidableEq, Inhabited

def Ending.name : Ending → String
  | condition => "Condition"
  | idle => "Idle"

namespace Kernel

/-- Run the program with the registers `regs` in the address space with root `cr3` until it traps.
-/
def enter (cr3 : PhysAddr) (regs : Registers) : KernelM (Trap × Registers) := fun k =>
  match Core.run ⟨k.frames.memory, regs, cr3, k.cr2⟩ k.timer with
  | .ok (trap, c, timer) =>
    .ok (trap, c.regs)
      { k with frames := { k.frames with memory := c.memory }, cr3 := cr3, cr2 := c.cr2, timer }
  | .error e => .error e { k with cr3 := cr3 }

def handle (trap : Trap) (regs : Registers) : KernelM Turn :=
  if trap = .syscall then syscall regs else exception regs

/-- The registers and the address space of process `pid`, which has to be able to run. It becomes
the current process. -/
def dispatch (pid : Pid) : KernelM (Registers × PageTable) := do
  let p ← (← get).procs.get pid
  if p.state ≠ .runnable then throw (.notRunnable pid)
  modify fun k => { k with current := pid }
  match p.table with
  | none => throw (.runWithoutSpace pid)
  | some t => return (p.regs, t)

/-- Run process `pid` until it traps, and handle the trap. Its page table is audited before. -/
def run (pid : Pid) : KernelM Turn := do
  let (regs, t) ← dispatch pid
  let k ← get
  checkTable k.frames.memory k.table t
  let (trap, regs) ← enter t.pa regs
  handle trap regs

/-! ### The clock while processes run -/

theorem dispatch_keepsClock (pid : Pid) : KeepsClock (dispatch pid) := by
  refine .bind .get fun k => .bind (.lift _) fun p => ?_
  have rest : KeepsClock (do
      modify fun k => { k with current := pid }
      match p.table with
      | none => throw (.runWithoutSpace pid)
      | some t => return (p.regs, t) : KernelM (Registers × PageTable)) := by
    refine .bind ?_ fun _ => ?_
    · intro k a k' h
      cases h
      exact ⟨rfl, rfl⟩
    · cases p.table with
      | none => exact .throw _
      | some t => exact .pure _
  exact .ite (.bind (.throw _) fun _ => rest) rest

/-- A program leaves the clock alone. It ends in a timer interrupt, or leaves the timer less to
count. -/
theorem enter_clock {cr3 : PhysAddr} {regs regs' : Registers} {trap : Trap} {k k' : Kernel}
    (h : enter cr3 regs k = .ok (trap, regs') k') :
    k'.ticks = k.ticks ∧ regs'.trap? = some trap ∧
      (trap = .timer ∨ k'.timer.count < k.timer.count) := by
  unfold enter Core.run at h
  cases hr : Core.runFor k.timer.quantum k.timer.count ⟨k.frames.memory, regs, cr3, k.cr2⟩ with
  | error e =>
    rw [hr] at h
    cases h
  | ok r =>
    obtain ⟨trap', left, c⟩ := r
    rw [hr] at h
    cases h
    exact ⟨rfl, Trap.ofCode?_code trap, Core.runFor_count hr⟩

/-- **Each run of a process moves the clock on or leaves the timer less to count.** -/
theorem run_clock {pid : Pid} {k k' : Kernel} {r : Turn} (h : run pid k = .ok r k') :
    (k'.ticks = k.ticks ∧ k'.timer.count < k.timer.count) ∨
      (k'.ticks = k.ticks + 1 ∧ k.ticks + 1 < UInt64.size) := by
  obtain ⟨⟨regs, t⟩, k1, h1, h⟩ := HaltM.bind_eq_ok h
  obtain ⟨_, k2, h2, h⟩ := HaltM.bind_eq_ok h
  obtain ⟨_, k3, h3, h⟩ := HaltM.bind_eq_ok h
  obtain ⟨⟨trap, regs'⟩, k4, h4, h⟩ := HaltM.bind_eq_ok h
  have h1 := dispatch_keepsClock pid _ _ _ h1
  have h2 := KeepsClock.get _ _ _ h2
  have h3 := KeepsClock.lift _ _ _ _ h3
  have h4 := enter_clock h4
  have ht : k3.timer = k.timer := h3.2.trans (h2.2.trans h1.2)
  simp only [handle] at h
  split at h
  · next hs =>
    have h5 := syscall_keepsClock regs' _ _ _ h
    refine .inl ⟨by omega, ?_⟩
    rw [h5.2]
    rcases h4.2.2 with h6 | h6
    · rw [hs] at h6
      cases h6
    · rwa [ht] at h6
  · rcases exception_clock h with h5 | h5
    · refine .inl ⟨by omega, ?_⟩
      rw [h5.2.1]
      rcases h4.2.2 with h6 | h6
      · exact absurd (h6 ▸ h4.2.1) h5.2.2
      · rwa [ht] at h6
    · exact .inr ⟨by omega, by omega⟩

/-! ### The main loop -/

/-- Spin up to `k` times, the first of them being spin number `spin`, until some process can run. -/
def idleFrom (spin : Nat) : Nat → KernelM (Option Pid)
  | 0 => return none
  | k + 1 => do
    match ← schedule with
    | .run pid => return some pid
    | .idle =>
      if spin % redrawSpins = 0 then
        let kernel ← get
        let viewer ← onUserland (kernel.viewer.draw kernel.table)
        modify fun kernel => { kernel with viewer }
        report (.idle spin)
      idleFrom (spin + 1) k

/-- Spin up to `spins` times until some process can run. The memory is drawn now and then. -/
def idle (spins : Nat) : KernelM (Option Pid) :=
  idleFrom 1 spins

theorem idleFrom_keepsClock : ∀ spin k : Nat, KeepsClock (idleFrom spin k)
  | _, 0 => .pure _
  | spin, k + 1 => by
    refine .bind schedule_keepsClock fun next => ?_
    cases next with
    | run pid => exact .pure _
    | idle =>
      exact .ite (.bind .get fun _ => .bind (.onUserland _) fun _ => .bind (.setViewer _) fun _ =>
        .bind (report_keepsClock _) fun _ => idleFrom_keepsClock _ _) (idleFrom_keepsClock _ _)

/-- Run processes, first the one that `next` names, until the condition holds or nothing can run.
The condition is asked before each run; it sees the kernel and a state of its own. -/
def runFrom {σ : Type} (stop : σ → Kernel → Bool × σ) (s : σ) (next : Turn) (k : Kernel) :
    EStateM.Result Halt Kernel (Ending × σ) :=
  match stop s k with
  | (true, s) => .ok (.condition, s) k
  | (false, s) =>
    match next with
    | .run pid =>
      match _h : run pid k with
      | .error e k' => .error e k'
      | .ok next k' => runFrom stop s next k'
    | .idle =>
      match _h : idle redrawSpins k with
      | .error e k' => .error e k'
      | .ok none k' => .ok (.idle, s) k'
      | .ok (some pid) k' => runFrom stop s (.run pid) k'
termination_by (UInt64.size - k.ticks, k.timer.count, if next = .idle then 1 else 0)
decreasing_by
  · rcases run_clock _h with h | h
    · rw [h.1]
      exact .right _ (.left _ _ h.2)
    · exact .left _ _ (by omega)
  · have h := idleFrom_keepsClock _ _ _ _ _ _h
    rw [h.1, h.2]
    exact .right _ (.right _ (by simp))

/-- Run processes until the condition holds or nothing can run. The current process comes first if
it can run. -/
def runUntil {σ : Type} (stop : σ → Kernel → Bool × σ) (s : σ) : KernelM (Ending × σ) := do
  let next ← resume
  fun k => runFrom stop s next k

end Kernel
end PagedKernel
