import PagedKernel.Proofs.Kernel.NullPage
import PagedKernel.Proofs.Kernel.Reachable
import PagedKernel.Proofs.Kernel.Twins

/-!
# What a freed page holds

A page that is freed keeps what it holds until it is handed out again. Nobody can observe that. Let
somebody have the kernel load programs, run processes, one at a time or in the main loop, and spin,
and choose each call by what the ones before have returned. On kernels that differ in nothing but
what free pages hold, all these calls return the same, or one halts for the same cause. What they
leave differs again in nothing but what free pages hold.

The condition at which the main loop stops is given the whole kernel. One that looked into free
pages would tell what they hold itself, without any read of the kernel's or of a process's. So the
conditions are those that do not (`Kernel.Blind`).

Key definition: `Kernel.Session`.
Key theorem: `Kernel.Reachable.stale_unobservable`.
-/

namespace PagedKernel
namespace Kernel

variable {α : Type} {k k' : Kernel} {loader : Loader} {x : KernelM α}

/-- The calls that somebody makes one after the other. The next one may depend on what those before
have returned. A condition to stop at is the same for two kernels only if it does not look into free
pages, and only such are allowed. -/
inductive Session (loader : Loader) : {α : Type} → KernelM α → Prop
  | load (pid : Pid) (name : String) : Session loader (load loader pid name)
  | run (pid : Pid) : Session loader (run pid)
  | runUntil {σ : Type} {stop : σ → Kernel → Bool × σ} (s : σ) : Blind stop →
    Session loader (runUntil stop s)
  | idle (spins : Nat) : Session loader (idle spins)
  | pure {α : Type} (a : α) : Session loader (Pure.pure a)
  | bind {α β : Type} {x : KernelM α} {f : α → KernelM β} : Session loader x →
    (∀ a, Session loader (f a)) → Session loader (x >>= f)

theorem Session.sound (hx : Session loader x) : ∀ {k : Kernel}, Sound k →
    Ends x k (fun _ k' => Sound k') fun _ => True := by
  induction hx with
  | load pid name =>
    intro k h
    refine .of_eq_ok fun _ k' hok => ?_
    have hpid : pid < procCount := (load_lt k pid name).eq_ok hok
    exact ((load_ends (E := fun _ => True) h hpid fun _ _ => trivial).eq_ok hok).1
  | run pid => exact fun h => .of_eq_ok fun _ _ hok => (run_sound h hok).1
  | runUntil s _ => exact fun h => .of_eq_ok fun _ _ hok => runUntil_sound h hok
  | idle spins => exact fun h => (idle_ends h spins).imp fun _ _ h' => h'.sound
  | pure a => exact fun h => .pure h
  | bind _ _ ihx ihf => exact fun h => .bind (ihx h) fun a _ h' => ihf a h'

/-- **What free pages hold is never observed** by the kernel or by a process. On twins, the calls of a
session, whose conditions to stop at do not look into free pages, return the same or end in the same
halt, and leave twins. -/
theorem Reachable.stale_unobservable (h : Reachable loader k) (ht : k.Twin k')
    (hx : Session loader x) : Coincide Twin x k k' := by
  have hsound := h.sound
  clear h
  induction hx generalizing k k' with
  | load pid name => exact load_coincide loader hsound ht pid name
  | run pid => exact run_coincide hsound ht pid
  | runUntil s hstop => exact runUntil_coincide hstop s hsound ht
  | idle spins => exact idle_coincide hsound ht spins
  | pure a => exact .pure ht
  | bind hx _ ihx ihf =>
    exact .bind_ends (ihx ht hsound) (hx.sound hsound) fun a _ _ h' ht' => ihf a ht' h'

/-- If some page is free, another byte in it makes a twin. -/
theorem exists_twin (h : 0 < k.frames.freePages) :
    ∃ k' a, k.Twin k' ∧ k'.frames.memory.byte a ≠ k.frames.memory.byte a := by
  obtain ⟨q, -, hfree⟩ := List.countP_pos_iff.mp h
  obtain ⟨-, hlt, hcount⟩ := (k.frames.isFree_iff q).mp hfree
  have hpage : q * pageSize / pageSize = q := Nat.mul_div_cancel q (by decide)
  refine ⟨_, q * pageSize, .of_frames (.putByte k.frames (hpage.symm ▸ hcount)
    (k.frames.memory.byte (q * pageSize) + 1)), ?_⟩
  dsimp only
  rw [Memory.byte_putByte, if_pos ⟨rfl, hpage.symm ▸ hlt⟩]
  simp

theorem stale_unobservable_null : ∃ k k' a, boot nullLoader none = .ok k ∧ k.Twin k' ∧
    k'.frames.memory.byte a ≠ k.frames.memory.byte a ∧
    (∃ turn k1 k1', run 1 k = .ok turn k1 ∧ run 1 k' = .ok turn k1' ∧ k1.Twin k1') ∧
    Coincide Twin (runUntil (fun s k => (decide (100 ≤ k.ticks), s)) ()) k k' := by
  obtain ⟨k, hboot, hcount, -, -, hpages, hall⟩ := boot_null
  have hreach : Reachable nullLoader k := .boot hboot
  obtain ⟨hrun, hrip⟩ := hall 1 le_rfl (by decide)
  obtain ⟨turn, k1, hok, -⟩ := run_null hreach.sound hrun hrip (by rw [hcount]; decide)
  obtain ⟨k', a, ht, hne⟩ := exists_twin (k := k) (by omega)
  obtain ⟨k1', hok', ht1⟩ := (hreach.stale_unobservable ht (.run 1)).eq_ok hok
  have hblind : Blind fun (s : Unit) k => (decide (100 ≤ k.ticks), s) :=
    .of_ticks fun s ticks => (decide (100 ≤ ticks), s)
  exact ⟨k, k', a, hboot, ht, hne, ⟨turn, k1, k1', hok, hok', ht1⟩,
    hreach.stale_unobservable ht (.runUntil () hblind)⟩

end Kernel
end PagedKernel
