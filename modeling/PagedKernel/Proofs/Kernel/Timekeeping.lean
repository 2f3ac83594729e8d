import PagedKernel.Proofs.Kernel.Calls
import PagedKernel.Proofs.Kernel.Pausing
import PagedKernel.Proofs.Spaces.Ticking

/-!
# The clock and the timer agree

The clock of the kernel starts at one and moves on with each timer interrupt that ends a run, at
which the interrupt is acknowledged as well; nothing else touches either. So whatever the kernel has
been through since it booted, its clock tells how many runs have ended in timer interrupts
(`Kernel.History`), and its timer is one that has served just these runs.

Key definitions: `Kernel.Loop.Taken`, `Kernel.History`.
Key theorems: `Kernel.run_keepsTime`, `Kernel.History.keepsTime`, `Kernel.Reachable.history`,
`Kernel.timer_conserved`.
-/

namespace PagedKernel
namespace Kernel

variable {k k' kt : Kernel} {loader : Loader} {pid : Pid} {turn : Turn} {trap : Trap}
  {traps : List Trap} {regs : Registers} {σ : Type}

/-! ### What keeps the clock -/

theorem load_keepsClock (loader : Loader) (pid : Pid) (name : String) :
    KeepsClock (load loader pid name) := by
  unfold load
  cases loader name with
  | none => exact .throw _
  | some program => exact .bind .get fun _ => .onUserland _

theorem loadAll_keepsClock (loader : Loader) : ∀ (names : List String) (pid : Pid),
    KeepsClock (loadAll loader pid names)
  | [], _ => .pure _
  | name :: rest, pid =>
    .bind (load_keepsClock loader pid name) fun _ => loadAll_keepsClock loader rest (pid + 1)

/-- When the kernel has booted, its clock is at one, and its timer has just been started. -/
theorem boot_clock {command : Option String} (hok : boot loader command = .ok k) :
    k.ticks = 1 ∧ Timer.ofRate timerRate = .ok k.timer := by
  obtain ⟨k1, s, hstart, -, -, -, hticks, htimer, -⟩ := startUserland_ends.ok
  rw [boot_eq hstart] at hok
  split at hok
  · cases hok
  · next k2 hall =>
    cases hok
    obtain ⟨names, k3, hnames, hload⟩ := HaltM.bind_eq_ok hall
    obtain ⟨log, hsame⟩ := bootPrograms_ok loader command k1
    rw [hsame] at hnames
    cases hnames
    obtain ⟨hticks', htimer'⟩ := loadAll_keepsClock loader _ 1 _ _ _ hload
    exact ⟨hticks'.trans hticks, htimer' ▸ htimer⟩

/-- A run up to a trap leaves the clock alone. The timer serves a run of the processor. -/
theorem runToTrap_clock (hok : runToTrap pid k = .ok (trap, regs) kt) :
    kt.ticks = k.ticks ∧ regs.trap? = some trap ∧
      ∃ c c' : Core physicalPages, c.run k.timer = .ok (trap, c', kt.timer) := by
  obtain ⟨⟨regs0, t⟩, k1, h1, hok⟩ := HaltM.bind_eq_ok hok
  obtain ⟨_, k2, h2, hok⟩ := HaltM.bind_eq_ok hok
  obtain ⟨_, k3, h3, hok⟩ := HaltM.bind_eq_ok hok
  have h1 := dispatch_keepsClock pid _ _ _ h1
  have h2 := KeepsClock.get _ _ _ h2
  have h3 := KeepsClock.lift _ _ _ _ h3
  have hclock := enter_clock hok
  refine ⟨by omega, hclock.2.1, ⟨k3.frames.memory, regs0, t.pa, k3.cr2⟩, ?_⟩
  have htimer : k3.timer = k.timer := h3.2.trans (h2.2.trans h1.2)
  rw [← htimer]
  unfold enter at hok
  split at hok
  · next trap' c timer hrun =>
    cases hok
    exact ⟨c, hrun⟩
  · cases hok

/-- **A run moves the clock on** just if it ends in a timer interrupt, and that is acknowledged. -/
theorem run_keepsTime (htrap : runToTrap pid k = .ok (trap, regs) kt)
    (hok : run pid k = .ok turn k') :
    if trap = .timer then k'.ticks = k.ticks + 1 ∧ k'.timer = kt.timer.ack
    else k'.ticks = k.ticks ∧ k'.timer = kt.timer := by
  obtain ⟨hticks, htrap?, -⟩ := runToTrap_clock htrap
  rw [run_of_trap htrap] at hok
  unfold handle at hok
  split at hok
  · next hsys =>
    rw [if_neg (hsys ▸ nofun), ← hticks]
    exact syscall_keepsClock regs _ _ _ hok
  · obtain ⟨hticks', htimer', hne⟩ | ⟨hticks', -, htimer⟩ := exception_clock hok
    · have hother : trap ≠ .timer := by
        rintro rfl
        exact hne htrap?
      rw [if_neg hother, ← hticks]
      exact ⟨hticks', htimer'⟩
    · rw [if_pos (Option.some.inj (htrap?.symm.trans htimer)), ← hticks]
      exact ⟨hticks', exception_acks hok htimer⟩

/-! ### The history of a kernel -/

/-- The main loop comes from one place to another. The runs meanwhile have ended in these traps, the
last one first. -/
inductive Loop.Taken (stop : σ → Kernel → Bool × σ) : Loop σ → List Trap → Loop σ → Prop
  | here (l : Loop σ) : Taken stop l [] l
  | run {l l' : Loop σ} {traps : List Trap} {s : σ} {pid : Pid} {k kt : Kernel} {trap : Trap}
    {regs : Registers} : Taken stop l traps ⟨s, .run pid, k⟩ →
    runToTrap pid k = .ok (trap, regs) kt → Step stop ⟨s, .run pid, k⟩ l' →
    Taken stop l (trap :: traps) l'
  | idle {l l' : Loop σ} {traps : List Trap} {s : σ} {k : Kernel} : Taken stop l traps ⟨s, .idle, k⟩ →
    Step stop ⟨s, .idle, k⟩ l' → Taken stop l traps l'

/-- The kernel has booted and been called, and the runs since then have ended in these traps, the
last one first. -/
inductive History (loader : Loader) : Kernel → List Trap → Prop
  | boot {command : Option String} {k : Kernel} : boot loader command = .ok k → History loader k []
  | load {k k' : Kernel} {traps : List Trap} {pid : Pid} {name : String} : History loader k traps →
    1 ≤ pid → pid < procCount → load loader pid name k = .ok () k' → History loader k' traps
  | run {k kt k' : Kernel} {traps : List Trap} {pid : Pid} {trap : Trap} {regs : Registers}
    {turn : Turn} : History loader k traps → runToTrap pid k = .ok (trap, regs) kt →
    run pid k = .ok turn k' → History loader k' (trap :: traps)
  | runUntil {σ : Type} {stop : σ → Kernel → Bool × σ} {s s' : σ} {next : Turn} {k k0 k' : Kernel}
    {l : Loop σ} {ending : Ending} {traps taken : List Trap} : History loader k traps →
    resume k = .ok next k0 → Loop.Taken stop ⟨s, next, k0⟩ taken l →
    l.EndsAt stop s' k' ending → runUntil stop s k = .ok (ending, s') k' →
    History loader k' (taken ++ traps)
  | idle {k k' : Kernel} {traps : List Trap} {spins : Nat} {next : Option Pid} :
    History loader k traps → idle spins k = .ok next k' → History loader k' traps

/-- The clock has counted the timer interrupts, and the timer has served the runs. -/
structure KeepsTime (k : Kernel) (traps : List Trap) : Prop where
  acked : k.timer.acked = traps.count .timer
  ticks : k.ticks = k.timer.acked + 1
  serves : ∃ calls, k.timer.Serves timerRate calls ∧ calls.map (·.1) = traps

namespace KeepsTime

theorem congr (h : KeepsTime k traps) (hticks : k'.ticks = k.ticks)
    (htimer : k'.timer = k.timer) : KeepsTime k' traps :=
  ⟨htimer ▸ h.acked, by rw [hticks, htimer, h.ticks], htimer ▸ h.serves⟩

theorem start (hticks : k.ticks = 1) (htimer : Timer.ofRate timerRate = .ok k.timer) :
    KeepsTime k [] := by
  have hbalanced := (Timer.Serves.start htimer).balanced
  rw [hbalanced.started] at htimer
  have hacked : k.timer.acked = 0 := (congrArg Timer.acked (Except.ok.inj htimer)).symm
  exact ⟨hacked, by rw [hticks, hacked], [], .start (hbalanced.started ▸ htimer ▸ rfl), rfl⟩

theorem run (h : KeepsTime k traps) (htrap : runToTrap pid k = .ok (trap, regs) kt)
    (hok : Kernel.run pid k = .ok turn k') : KeepsTime k' (trap :: traps) := by
  obtain ⟨-, -, c, c', hrun⟩ := runToTrap_clock htrap
  obtain ⟨d, ticks, attempts, hticked, -⟩ := Core.ticked_of_run hrun
  obtain ⟨calls, hserves, hcalls⟩ := h.serves
  have hserves' := hserves.run hrun hticked
  have hacked : kt.timer.acked = k.timer.acked := hticked.conserves.acked
  have hkeeps := run_keepsTime htrap hok
  split at hkeeps
  · next htimer =>
    obtain ⟨hticks, htimer'⟩ := hkeeps
    have hacked' : k'.timer.acked = k.timer.acked + 1 := by rw [htimer', Timer.ack, hacked]
    refine ⟨?_, by rw [hticks, hacked', h.ticks], _, htimer' ▸ hserves'.ack, by rw [← hcalls]; rfl⟩
    rw [hacked', h.acked, htimer, List.count_cons_self]
  · next htimer =>
    obtain ⟨hticks, htimer'⟩ := hkeeps
    refine ⟨?_, by rw [hticks, htimer', hacked, h.ticks], _, htimer' ▸ hserves',
      by rw [← hcalls]; rfl⟩
    rw [htimer', hacked, h.acked, List.count_cons_of_ne htimer]

theorem idle (h : KeepsTime k traps) {spins : Nat} {next : Option Pid}
    (hok : Kernel.idle spins k = .ok next k') : KeepsTime k' traps :=
  h.congr (idleFrom_keepsClock _ _ _ _ _ hok).1 (idleFrom_keepsClock _ _ _ _ _ hok).2

theorem taken {stop : σ → Kernel → Bool × σ} {l l' : Loop σ} {later : List Trap}
    (h : KeepsTime l.kernel traps) (htaken : l.Taken stop later l') :
    KeepsTime l'.kernel (later ++ traps) := by
  induction htaken with
  | here => exact h
  | run _ htrap hstep ih =>
    cases hstep with
    | run _ hrun => exact ih.run htrap hrun
  | idle _ hstep ih =>
    cases hstep with
    | idle _ hidle => exact ih.idle hidle

end KeepsTime

/-- **Whatever the kernel has been through**, it keeps time. -/
theorem History.keepsTime (h : History loader k traps) : KeepsTime k traps := by
  induction h with
  | boot hok => exact .start (boot_clock hok).1 (boot_clock hok).2
  | load _ _ _ hok ih =>
    obtain ⟨hticks, htimer⟩ := load_keepsClock _ _ _ _ _ _ hok
    exact ih.congr hticks htimer
  | run _ htrap hok ih => exact ih.run htrap hok
  | @runUntil _ _ _ _ _ _ _ _ _ ending _ _ _ hresume htaken hend _ ih =>
    obtain rfl := resume_same hresume
    have hl := ih.taken htaken
    cases ending with
    | condition => exact hend.2 ▸ hl
    | idle => exact hl.idle hend.2.2
  | idle _ hok ih => exact ih.idle hok

/-- What the main loop comes to by steps it comes to by runs. -/
theorem Loop.taken_of_steps {stop : σ → Kernel → Bool × σ} {l l' : Loop σ}
    (h : Relation.ReflTransGen (Loop.Step stop) l l') : ∃ traps, l.Taken stop traps l' := by
  induction h with
  | refl => exact ⟨[], .here l⟩
  | tail _ hstep ih =>
    obtain ⟨traps, htaken⟩ := ih
    cases hstep with
    | @run _ _ pid _ _ _ hstop hrun =>
      rw [run_eq] at hrun
      obtain ⟨⟨trap, regs⟩, kt, htrap, -⟩ := HaltM.bind_eq_ok hrun
      rw [← run_eq] at hrun
      exact ⟨trap :: traps, htaken.run htrap (.run hstop hrun)⟩
    | idle hstop hidle => exact ⟨traps, htaken.idle (.idle hstop hidle)⟩

theorem Reachable.history (h : Reachable loader k) : ∃ traps, History loader k traps := by
  induction h with
  | boot hok => exact ⟨[], .boot hok⟩
  | call _ hcall ih =>
    obtain ⟨traps, hhistory⟩ := ih
    cases hcall with
    | load hpid hlt hok => exact ⟨traps, hhistory.load hpid hlt hok⟩
    | run hok =>
      rw [run_eq] at hok
      obtain ⟨⟨trap, regs⟩, kt, htrap, -⟩ := HaltM.bind_eq_ok hok
      rw [← run_eq] at hok
      exact ⟨trap :: traps, hhistory.run htrap hok⟩
    | @runUntil _ _ _ res hok =>
      obtain ⟨ending, s'⟩ := res
      obtain ⟨l, ⟨next, k0, hresume, hsteps⟩, hend⟩ := Loop.of_runUntil hok
      obtain ⟨taken, htaken⟩ := Loop.taken_of_steps hsteps
      exact ⟨taken ++ traps, hhistory.runUntil hresume htaken hend hok⟩
    | idle hok => exact ⟨traps, hhistory.idle hok⟩

/-! ### Conservation -/

/-- **Every run ends, and the timer is conserved.** A run takes as many ticks as the timer has left
to count, and one more, at most. What has been attempted with one timer and what it has left make up
one quantum more than the timer interrupts do, and so between two of them just a quantum is
attempted. In the kernel the clock is one ahead of the timer interrupts, all of which are
acknowledged. -/
theorem timer_conserved :
    (∀ rate, 0 < rate → rate ≤ instructionsPerSecond →
      (∃ timer, Timer.ofRate rate = .ok timer) ∧
      ∀ timer calls, Timer.Serves rate timer calls →
        Timer.ofRate rate = .ok ⟨timer.quantum, timer.quantum, 0⟩ ∧
        timer.count ≤ timer.quantum ∧
        (∀ (n : Nat) (c : Core n), (∀ d, c.Reaches d → d.WalksInside) →
          ∃ trap c' timer' d ticks attempts, c.run timer = .ok (trap, c', timer') ∧
            c.Ticked timer trap d timer' ticks attempts ∧ ticks ≤ timer.count + 1) ∧
        Timer.attempted calls + timer.count = (Timer.interrupts calls + 1) * timer.quantum ∧
        ∀ later mid before a b,
          calls = later ++ (Trap.timer, a) :: (mid ++ (Trap.timer, b) :: before) →
          (∀ call ∈ mid, call.1 ≠ .timer) → a + Timer.attempted mid = timer.quantum) ∧
    ∀ loader k, Reachable loader k → (∃ traps, History loader k traps) ∧
      ∀ traps, History loader k traps →
        k.ticks = k.timer.acked + 1 ∧ k.timer.acked = traps.count .timer ∧
        ∃ calls, Timer.Serves timerRate k.timer calls ∧ calls.map (·.1) = traps := by
  constructor
  · intro rate hpos hle
    obtain ⟨quantum, -, hrate⟩ := Timer.ofRate_ok hpos hle
    refine ⟨⟨_, hrate⟩, fun timer calls hserves => ?_⟩
    obtain ⟨hstarted, hcount, hbalance⟩ := hserves.balanced
    refine ⟨hstarted, hcount, fun n c hinside => ?_, hbalance,
      fun later mid before a b heq hmid => ?_⟩
    · obtain ⟨trap, c', timer', hrun⟩ := Core.run_of_walksInside hinside timer
      obtain ⟨d, ticks, attempts, hticked, -⟩ := Core.ticked_of_run hrun
      exact ⟨trap, c', timer', d, ticks, attempts, hrun, hticked, hticked.conserves.ticks⟩
    · subst heq
      exact hserves.between hmid
  · intro loader k hk
    refine ⟨hk.history, fun traps hhistory => ?_⟩
    obtain ⟨hacked, hticks, hserves⟩ := hhistory.keepsTime
    exact ⟨hticks, hacked, hserves⟩

/-- A process that has just booted is run with the timer of the kernel. -/
theorem timer_conserved_null : ∃ (k : Kernel) (c c' d : Core physicalPages) (trap : Trap)
    (timer : Timer) (ticks attempts : Nat), boot nullLoader none = .ok k ∧
    c.run k.timer = .ok (trap, c', timer) ∧ c.Ticked k.timer trap d timer ticks attempts ∧
    ticks ≤ k.timer.count + 1 ∧
    Timer.attempted [(trap, attempts)] + timer.count =
      (Timer.interrupts [(trap, attempts)] + 1) * timer.quantum ∧
    k.ticks = k.timer.acked + 1 := by
  obtain ⟨k, hboot, -, -, -, -, hall⟩ := boot_null
  obtain ⟨hrun, -⟩ := hall 1 le_rfl (by decide)
  obtain ⟨hrates, hkernels⟩ := timer_conserved
  obtain ⟨-, hserved⟩ := hrates timerRate (by decide) (by decide)
  have hstart : k.timer.Serves timerRate [] := .start (boot_clock hboot).2
  obtain ⟨g, hg⟩ := (boot_sound hboot).userland
  obtain ⟨t, ht⟩ := Option.ne_none_iff_exists'.mp (hg.owns.runnable hrun)
  obtain ⟨-, -, hruns, -⟩ := hserved k.timer [] hstart
  obtain ⟨trap, c', timer, d, ticks, attempts, hok, hticked, hle⟩ :=
    hruns _ (k.core 1 t) fun _ hd => (hg.runsIn ht (k.procs.slot 1).regs k.cr2).walksInside hd
  obtain ⟨-, -, -, hbalance, -⟩ := hserved timer _ (hstart.run hok hticked)
  have hclock := (hkernels nullLoader k (.boot hboot)).2 [] (.boot hboot)
  exact ⟨k, _, c', d, trap, timer, ticks, attempts, hboot, hok, hticked, hle, hbalance, hclock.1⟩

end Kernel
end PagedKernel
