import PagedKernel.Proofs.Kernel.Boot
import PagedKernel.Proofs.Kernel.Run

/-!
# Reachable states

`Reachable` are the kernels that a boot and any calls after it lead to: loading programs, running
processes, one at a time or in the main loop, and spinning. `Driven` are those that come up if traps
with any registers are handled as well. Each call keeps a kernel sound, and so all of them are.

Key definitions: `Kernel.Call`, `Kernel.Reachable`, `Kernel.Driven`.
Key theorems: `Kernel.Call.sound`, `Kernel.Driven.sound`, `Kernel.Reachable.sound`.
-/

namespace PagedKernel
namespace Kernel

variable {k k' : Kernel} {loader : Loader}

/-- One call of the kernel, if it does not halt. -/
inductive Call (loader : Loader) (k k' : Kernel) : Prop
  /-- A program is loaded into a slot that belongs to processes. -/
  | load {pid : Pid} {name : String} : 1 ≤ pid → pid < procCount →
    load loader pid name k = .ok () k' → Call loader k k'
  /-- A process runs up to its next trap, which is handled. -/
  | run {pid : Pid} {turn : Turn} : run pid k = .ok turn k' → Call loader k k'
  /-- The main loop, with any condition to stop at. -/
  | runUntil {σ : Type} {stop : σ → Kernel → Bool × σ} {s : σ} {res : Ending × σ} :
    runUntil stop s k = .ok res k' → Call loader k k'
  | idle {spins : Nat} {next : Option Pid} : idle spins k = .ok next k' → Call loader k k'

/-- A trap of the current process is handled, whatever its registers are. -/
inductive Trapped (k k' : Kernel) : Prop
  | exception {regs : Registers} {turn : Turn} : exception regs k = .ok turn k' → Trapped k k'
  | syscall {regs : Registers} {turn : Turn} : syscall regs k = .ok turn k' → Trapped k k'

/-- The kernels that come from a boot by calls. -/
inductive Reachable (loader : Loader) : Kernel → Prop
  | boot {command : Option String} {k : Kernel} : boot loader command = .ok k → Reachable loader k
  | call {k k' : Kernel} : Reachable loader k → Call loader k k' → Reachable loader k'

/-- The kernels that come from a boot by calls and traps. -/
inductive Driven (loader : Loader) : Kernel → Prop
  | boot {command : Option String} {k : Kernel} : boot loader command = .ok k → Driven loader k
  | call {k k' : Kernel} : Driven loader k → Call loader k k' → Driven loader k'
  | trap {k k' : Kernel} : Driven loader k → Trapped k k' → Driven loader k'

theorem Reachable.driven (h : Reachable loader k) : Driven loader k := by
  induction h with
  | boot hok => exact .boot hok
  | call _ hcall ih => exact ih.call hcall

/-- **A call keeps the kernel sound.** -/
theorem Call.sound (hcall : Call loader k k') (h : Sound k) : Sound k' := by
  cases hcall with
  | load _ hpid hok =>
    exact ((load_ends (E := fun _ => True) h hpid fun _ _ => trivial).eq_ok hok).1
  | run hok => exact (run_sound h hok).1
  | runUntil hok => exact runUntil_sound h hok
  | idle hok => exact ((idle_ends (E := fun _ => True) h _).eq_ok hok).sound

/-- **Handling a trap keeps the kernel sound.** -/
theorem Trapped.sound (htrap : Trapped k k') (h : Sound k) : Sound k' := by
  cases htrap with
  | exception hok =>
    exact ((exception_ends (E := fun _ => True) h _ (fun _ _ => trivial) (fun _ _ _ => trivial)
      fun _ _ => trivial).eq_ok hok).1.sound
  | syscall hok =>
    exact ((syscall_ends (E := fun _ => True) h _ (fun _ => trivial) (fun _ => trivial)
      fun _ _ => trivial).eq_ok hok).1.sound

theorem Reachable.loadAll : ∀ {names : List String} {pid : Nat} {k : Kernel}, Reachable loader k →
    1 ≤ pid → pid + names.length ≤ procCount → loadAll loader pid names k = .ok () k' →
    Reachable loader k'
  | [], _, _, h, _, _, hok => by
    cases hok
    exact h
  | name :: rest, pid, k, h, hpid, hlen, hok => by
    rw [List.length_cons] at hlen
    have hlt : pid < procCount := by omega
    have hnext : pid + 1 + rest.length ≤ procCount := by omega
    obtain ⟨_, k1, hload, hrest⟩ := HaltM.bind_eq_ok hok
    exact (h.call (.load hpid hlt hload)).loadAll (Nat.le_add_left 1 pid) hnext hrest

theorem Driven.sound (h : Driven loader k) : Sound k := by
  induction h with
  | boot hok => exact boot_sound hok
  | call _ hcall ih => exact hcall.sound ih
  | trap _ htrap ih => exact htrap.sound ih

/-- **Every kernel that comes from a boot is sound.** -/
theorem Reachable.sound (h : Reachable loader k) : Sound k :=
  h.driven.sound

end Kernel
end PagedKernel
