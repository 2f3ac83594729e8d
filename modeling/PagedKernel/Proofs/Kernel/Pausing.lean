import PagedKernel.Proofs.Kernel.Preemption
import PagedKernel.Proofs.Kernel.Text

/-!
# Pausing

The main loop can be stopped at some time of the clock and called again to go on to a later one. It
then stops at a timer interrupt, and forgets whom the scheduler has chosen: the next call goes on
with the process that was preempted, where the loop itself would have gone on with the one chosen.
The two ways end in different machines if there are other processes that can run. They end in the
same one if there are none, if nothing was run before the stop, or if the loop ended because nothing
could run.

Key definition: `Kernel.atTick`.
Key theorems: `Kernel.Loop.of_runFrom`, `Kernel.run_interrupted`, `Kernel.Reachable.pause_resumes`.
-/

namespace PagedKernel
namespace Kernel

variable {k k' k1 k2 : Kernel} {loader : Loader} {pid : Pid} {turn : Turn} {t t1 t2 : Nat}
  {ending ending' : Ending} {σ : Type}

/-- The clock moves on in a run that the timer ends. The process can go on, and the scheduler has
chosen. -/
theorem run_interrupted (h : Sound k) (hok : run pid k = .ok turn k') (hlt : k.ticks < k'.ticks) :
    k'.procs.state k'.current = .runnable ∧ schedule k' = .ok turn k' := by
  obtain ⟨table, trap, regs, kt, -, htraps, hhandle, -⟩ := run_answers h hok
  have hticks : kt.ticks = k.ticks := htraps.follows.ticks
  have hcurrent : kt.current = pid := htraps.follows.current
  unfold handle at hhandle
  split at hhandle
  · have hclock := (syscall_keepsClock regs _ _ _ hhandle).1
    omega
  obtain ⟨hclock, -⟩ | ⟨-, -, htimer⟩ := exception_clock hhandle
  · omega
  obtain ⟨-, hprocs, hcurrent', -, hschedule⟩ := (exception_timer_ends (E := fun _ => True)
    htraps.follows.sound htimer fun _ => trivial).eq_ok hhandle
  have hp : pid < procCount := ProcessTable.lt_of_table? htraps.table?
  refine ⟨?_, hschedule⟩
  rw [hcurrent', hcurrent, hprocs, hcurrent, htraps.procs, ProcessTable.modify_eq _ hp,
    ProcessTable.state_set hp, if_pos rfl, ← ProcessTable.state_eq]
  exact htraps.state

/-- A run until the condition holds begins with the turn that is resumed. -/
theorem runUntil_of_resume {stop : σ → Kernel → Bool × σ} {s : σ} (h : resume k = .ok turn k) :
    runUntil stop s k = runFrom stop s turn k :=
  Loop.Execution.runUntil_eq ⟨turn, k, h, .refl⟩

namespace Loop

/-- The main loop ends at `l`, since its condition holds or nothing can run. -/
def EndsAt (stop : σ → Kernel → Bool × σ) (l : Loop σ) (s : σ) (k : Kernel) : Ending → Prop
  | .condition => stop l.memo l.kernel = (true, s) ∧ k = l.kernel
  | .idle => stop l.memo l.kernel = (false, s) ∧ l.next = .idle ∧
      idle redrawSpins l.kernel = .ok none k

/-- **The main loop comes by steps** to where it ends. -/
theorem of_runFrom {stop : σ → Kernel → Bool × σ} {s s' : σ} {next : Turn}
    (hok : runFrom stop s next k = .ok (ending, s') k') : ∃ l : Loop σ,
      Relation.ReflTransGen (Step stop) ⟨s, next, k⟩ l ∧ l.EndsAt stop s' k' ending := by
  induction s, next, k using runFrom.induct stop with
  | case1 s next k s1 hstop =>
    rw [runFrom_eq, hstop] at hok
    cases hok
    exact ⟨_, .refl, hstop, rfl⟩
  | case2 s k s1 hstop pid e k1 hrun =>
    simp only [runFrom_eq stop s, hstop, hrun] at hok
    cases hok
  | case3 s k s1 hstop pid turn k1 hrun ih =>
    simp only [runFrom_eq stop s, hstop, hrun] at hok
    obtain ⟨l, hsteps, hend⟩ := ih hok
    exact ⟨l, .head (.run hstop hrun) hsteps, hend⟩
  | case4 s k s1 hstop e k1 hidle =>
    simp only [runFrom_eq stop s, hstop, hidle] at hok
    cases hok
  | case5 s k s1 hstop k1 hidle =>
    simp only [runFrom_eq stop s, hstop, hidle] at hok
    cases hok
    exact ⟨_, .refl, hstop, rfl, hidle⟩
  | case6 s k s1 hstop pid k1 hidle ih =>
    simp only [runFrom_eq stop s, hstop, hidle] at hok
    obtain ⟨l, hsteps, hend⟩ := ih hok
    exact ⟨l, .head (.idle hstop hidle) hsteps, hend⟩

theorem of_runUntil {stop : σ → Kernel → Bool × σ} {s s' : σ}
    (hok : runUntil stop s k = .ok (ending, s') k') :
    ∃ l : Loop σ, Execution stop s k l ∧ l.EndsAt stop s' k' ending := by
  obtain ⟨next, k0, hresume, hloop⟩ := HaltM.bind_eq_ok hok
  obtain ⟨l, hsteps, hend⟩ := of_runFrom hloop
  exact ⟨l, ⟨next, k0, hresume, hsteps⟩, hend⟩

end Loop

/-! ### Up to a time -/

/-- The condition that the clock is at time `t`. -/
def atTick (t : Nat) : Unit → Kernel → Bool × Unit :=
  fun _ k => (decide (t ≤ k.ticks), ())

theorem atTick_true {s : Unit} : atTick t s k = (true, ()) ↔ t ≤ k.ticks := by
  unfold atTick
  rw [Prod.mk.injEq, decide_eq_true_eq, and_iff_left rfl]

theorem atTick_false {s : Unit} : atTick t s k = (false, ()) ↔ k.ticks < t := by
  unfold atTick
  rw [Prod.mk.injEq, decide_eq_false_iff_not, and_iff_left rfl, Nat.not_le]

theorem runFrom_atTick (ht : t ≤ k.ticks) :
    runFrom (atTick t) () turn k = .ok (.condition, ()) k := by
  rw [runFrom_eq, atTick_true.mpr ht]

theorem runUntil_atTick (h : Sound k) (ht : t ≤ k.ticks) :
    runUntil (atTick t) () k = .ok (.condition, ()) k := by
  obtain ⟨turn, _, hresume, rfl, -⟩ := (resume_ends (E := fun _ => False) h).ok
  rw [runUntil_of_resume hresume, runFrom_atTick ht]

namespace Loop

variable {l l' : Loop Unit}

theorem Step.later (hle : t1 ≤ t2) (h : Step (atTick t1) l l') : Step (atTick t2) l l' := by
  cases h with
  | run hstop hrun => exact .run (atTick_false.mpr ((atTick_false.mp hstop).trans_le hle)) hrun
  | idle hstop hidle => exact .idle (atTick_false.mpr ((atTick_false.mp hstop).trans_le hle)) hidle

theorem Execution.later (hle : t1 ≤ t2) (h : Execution (atTick t1) () k l) :
    Execution (atTick t2) () k l := by
  obtain ⟨next, k0, hresume, hsteps⟩ := h
  exact ⟨next, k0, hresume, Relation.ReflTransGen.mono (fun _ _ => Step.later hle) _ _ hsteps⟩

/-- A step that comes to the time is a run that the timer ends. -/
theorem Step.interrupted (h : Step (atTick t) l l') (hl : Sound l.kernel)
    (ht : t ≤ l'.kernel.ticks) : l'.kernel.ticks = t ∧
      l'.kernel.procs.state l'.kernel.current = .runnable ∧
      schedule l'.kernel = .ok l'.next l'.kernel := by
  cases h with
  | run hstop hrun =>
    have hlt := atTick_false.mp hstop
    refine ⟨?_, run_interrupted hl hrun (hlt.trans_le ht)⟩
    rcases run_clock hrun with hclock | hclock
    · exact absurd (hclock.1 ▸ ht) (Nat.not_le.mpr hlt)
    · exact Nat.le_antisymm (hclock.1.trans_le hlt) ht
  | idle hstop hidle =>
    have hticks := ((idle_ends (E := fun _ => True) hl _).eq_ok hidle).ticks
    exact absurd (hticks ▸ ht) (Nat.not_le.mpr (atTick_false.mp hstop))

theorem Execution.interrupted (h : Execution (atTick t) () k l) (hk : Sound k) (hlt : k.ticks < t)
    (ht : t ≤ l.kernel.ticks) : l.kernel.ticks = t ∧
      l.kernel.procs.state l.kernel.current = .runnable ∧
      schedule l.kernel = .ok l.next l.kernel := by
  obtain ⟨next, k0, hresume, hsteps⟩ := h
  obtain ⟨rfl, -⟩ := (resume_ends (E := fun _ => True) hk).eq_ok hresume
  cases hsteps with
  | refl => exact absurd ht (Nat.not_le.mpr hlt)
  | tail hsteps hstep => exact hstep.interrupted (Execution.sound ⟨next, k0, hresume, hsteps⟩ hk) ht

end Loop

/-! ### Up to a time and on -/

/-- **At the pause** a process is preempted. It goes on when the loop is called again, while the
loop itself goes on with the process that the scheduler has chosen. -/
theorem pause_interrupted (h : Sound k) (hle : t1 ≤ t2)
    (hfirst : runUntil (atTick t1) () k = .ok (.condition, ()) k1) (hlt : k.ticks < t1) :
    k1.ticks = t1 ∧ k1.procs.state k1.current = .runnable ∧
      runUntil (atTick t2) () k1 = runFrom (atTick t2) () (.run k1.current) k1 ∧
      ∃ pid, schedule k1 = .ok (.run pid) k1 ∧
        runUntil (atTick t2) () k = runFrom (atTick t2) () (.run pid) k1 := by
  obtain ⟨⟨_, next, _⟩, hexec, hstop, rfl⟩ := Loop.of_runUntil hfirst
  obtain ⟨hticks, hrun, hschedule⟩ := hexec.interrupted h hlt (atTick_true.mp hstop)
  have hsingle := (hexec.later hle).runUntil_eq
  dsimp only at hticks hrun hschedule hsingle
  refine ⟨hticks, hrun, runUntil_of_resume (resume_runnable hrun), ?_⟩
  cases next with
  | run pid => exact ⟨pid, hschedule, hsingle⟩
  | idle => exact absurd hrun (schedule_idle (hexec.sound h).current hschedule _)

theorem pause_idle (h : Sound k) (hle : t1 ≤ t2)
    (hfirst : runUntil (atTick t1) () k = .ok (.idle, ()) k1) :
    runUntil (atTick t2) () k = .ok (.idle, ()) k1 ∧
      ∃ k2, runUntil (atTick t2) () k1 = .ok (.idle, ()) k2 ∧ SameMachine k1 k2 := by
  obtain ⟨⟨_, _, k0⟩, hexec, hstop, rfl, hidle⟩ := Loop.of_runUntil hfirst
  have hk0 : Sound k0 := hexec.sound h
  have hspun : Spun k0 none k1 := (idle_ends (E := fun _ => True) hk0 _).eq_ok hidle
  have hlt : k0.ticks < t2 := (atTick_false.mp hstop).trans_le hle
  have hstuck : ∀ pid, k0.procs.state pid ≠ .runnable := idle_none hk0 (by decide) hidle
  constructor
  · rw [(hexec.later hle).runUntil_eq, runFrom_eq, atTick_false.mpr hlt]
    dsimp only
    rw [hidle]
  obtain ⟨turn, _, hresume, rfl, hready⟩ := (resume_ends (E := fun _ => False) hspun.sound).ok
  cases turn with
  | run pid => exact absurd (hspun.procs ▸ hready pid rfl) (hstuck pid)
  | idle =>
    obtain ⟨k2, hidle2, hspun2⟩ := idle_stuck hspun.sound (hspun.procs ▸ hstuck) redrawSpins
    refine ⟨k2, ?_, hspun2.toSameMachine⟩
    rw [runUntil_of_resume hresume, runFrom_eq, atTick_false.mpr (hspun.ticks ▸ hlt)]
    dsimp only
    rw [hidle2]

/-- **Pausing** is no different if nothing is run before the pause or after it, if nothing can run,
or if only the process that ran last can. -/
theorem pause_same (h : Sound k) (hle : t1 ≤ t2)
    (hfirst : runUntil (atTick t1) () k = .ok (ending, ()) k1)
    (hcase : t1 ≤ k.ticks ∨ t1 = t2 ∨ ending = .idle ∨
      ∀ pid, k1.procs.state pid = .runnable → pid = k1.current)
    {ending2 ending' : Ending} (hsecond : runUntil (atTick t2) () k1 = .ok (ending2, ()) k2)
    (hsingle : runUntil (atTick t2) () k = .ok (ending', ()) k') :
    ending2 = ending' ∧ SameMachine k' k2 := by
  have hsame : runUntil (atTick t2) () k1 = runUntil (atTick t2) () k →
      ending2 = ending' ∧ SameMachine k' k2 := fun heq => by
    rw [heq, hsingle] at hsecond
    cases hsecond
    exact ⟨rfl, .refl k'⟩
  by_cases hlt : t1 ≤ k.ticks
  · rw [runUntil_atTick h hlt] at hfirst
    cases hfirst
    exact hsame rfl
  cases ending with
  | idle =>
    obtain ⟨hsingle', k3, hsecond', hk3⟩ := pause_idle h hle hfirst
    rw [hsingle'] at hsingle
    rw [hsecond'] at hsecond
    cases hsingle
    cases hsecond
    exact ⟨rfl, hk3⟩
  | condition =>
    obtain ⟨hticks, hrun, hsecond', pid, hschedule, hsingle'⟩ :=
      pause_interrupted h hle hfirst (Nat.not_le.mp hlt)
    rcases hcase.resolve_left hlt with rfl | hidle | honly
    · exact hsame ((runUntil_atTick (runUntil_sound h hfirst) hticks.ge).trans hfirst.symm)
    · cases hidle
    · obtain ⟨-, hready⟩ := (schedule_ends (E := fun _ => True) (runUntil_sound h hfirst)).eq_ok
        hschedule
      rw [honly pid (hready pid rfl)] at hsingle'
      exact hsame (hsecond'.trans hsingle'.symm)

/-! ### Processes that jump to themselves -/

/-- A text that jumps to itself. -/
def spin : List Instruction :=
  [⟨.jmp, .rax, .rax, -8⟩]

/-- A process with this text is preempted, and others are where they were. -/
theorem At.spins_on (h : At k pid spin 0) (hk : Sound k) (hclock : k.ticks + 1 < 2 ^ 64) :
    ∃ turn k', run pid k = .ok turn k' ∧ Sound k' ∧ k'.current = pid ∧ k'.ticks = k.ticks + 1 ∧
      schedule k' = .ok turn k' ∧ ∀ q, At k q spin 0 → At k' q spin 0 := by
  obtain ⟨turn, k', hrun, hat, hcurrent, hticks, hschedule⟩ := h.spins hk rfl hclock
  obtain ⟨⟨hk', -⟩, hconcerns⟩ := run_ok hk hrun
  refine ⟨turn, k', hrun, hk', hcurrent, hticks, hschedule, fun q hq => ?_⟩
  by_cases hpid : q = pid
  · rwa [hpid]
  · exact hq.spared (hconcerns q hpid (by rw [hq.state]; nofun))

/-- The first of four processes with this text is preempted at time 2. In the next run up to time 3
it has the turn again, and in the run up to time 3 at once it is the turn of the second. -/
theorem spin_paused : ∃ k k1 k2 k', boot (textLoader spin) none = .ok k ∧
    runUntil (atTick 2) () k = .ok (.condition, ()) k1 ∧ k.ticks = 1 ∧ k1.current = 1 ∧
    runUntil (atTick 3) () k1 = .ok (.condition, ()) k2 ∧ k2.current = 1 ∧
    runUntil (atTick 3) () k = .ok (.condition, ()) k' ∧ k'.current = 2 := by
  obtain ⟨k, hboot, hticks, -, hcurrent, hfree, -, hall⟩ := boot_text spin (by decide)
  have hk : Sound k := boot_sound hboot
  have hat : ∀ pid, 1 ≤ pid → pid ≤ 4 → At k pid spin 0 := fun pid h1 h4 => (hall pid h1 h4).1
  have hresume : resume k = .ok (.run 1) k := by
    rw [resume_other (by rw [hcurrent, hfree 0 (.inl one_pos)]; nofun)]
    exact schedule_succ hcurrent (by decide) (hat 1 le_rfl (by decide)).state
  -- the first process runs up to time 2
  obtain ⟨turn, k1, hrun, hk1, hcurrent1, hticks1, hschedule, hat1⟩ :=
    (hat 1 le_rfl (by decide)).spins_on hk (by omega)
  have hat1 : ∀ pid, 1 ≤ pid → pid ≤ 4 → At k1 pid spin 0 := fun pid h1 h4 =>
    hat1 pid (hat pid h1 h4)
  obtain rfl : turn = .run 2 := by
    rw [schedule_succ hcurrent1 (by decide) (hat1 2 (by decide) (by decide)).state] at hschedule
    cases hschedule
    rfl
  -- from there on it is its turn, or that of the second
  obtain ⟨turn2, k2, hrun2, -, hcurrent2, hticks2, -⟩ :=
    (hat1 1 le_rfl (by decide)).spins_on hk1 (by omega)
  obtain ⟨turn', k', hrun', -, hcurrent', hticks', -⟩ :=
    (hat1 2 (by decide) (by decide)).spins_on hk1 (by omega)
  have hresume1 : resume k1 = .ok (.run 1) k1 := by
    rw [← hcurrent1]
    exact resume_runnable (hcurrent1 ▸ (hat1 1 le_rfl (by decide)).state)
  have hstep : ∀ t, k.ticks < t → runUntil (atTick t) () k = runFrom (atTick t) () (.run 2) k1 :=
    fun t ht => (runUntil_of_resume hresume).trans
      (Loop.Step.runFrom_eq (.run (atTick_false.mpr ht) hrun))
  refine ⟨k, k1, k2, k', hboot, ?_, hticks, hcurrent1, ?_, hcurrent2, ?_, hcurrent'⟩
  · rw [hstep 2 (by omega), runFrom_atTick (by omega)]
  · rw [runUntil_of_resume hresume1]
    exact (Loop.Step.runFrom_eq (.run (atTick_false.mpr (by omega)) hrun2)).trans
      (runFrom_atTick (by dsimp only; omega))
  · rw [hstep 3 (by omega)]
    exact (Loop.Step.runFrom_eq (.run (atTick_false.mpr (by omega)) hrun')).trans
      (runFrom_atTick (by dsimp only; omega))

/-! ### What a pause changes -/

/-- **What a pause changes.** Take a run up to time `t1`, another from there on up to time `t2`, and
the run up to time `t2` at once, none of which halts. The two ways end in the same machine if the
first run stops at once, if it ends because nothing can run, if the times are the same, or if no
other process can run at the pause. If the first run is stopped by the clock, then at a timer
interrupt: the second goes on with the process that was preempted, and the single run with the one
that the scheduler has chosen. -/
theorem Reachable.pause_resumes (h : Reachable loader k) (hle : t1 ≤ t2) {ending2 ending' : Ending}
    (hfirst : runUntil (atTick t1) () k = .ok (ending, ()) k1)
    (hsecond : runUntil (atTick t2) () k1 = .ok (ending2, ()) k2)
    (hsingle : runUntil (atTick t2) () k = .ok (ending', ()) k') :
    ((t1 ≤ k.ticks ∨ t1 = t2 ∨ ending = .idle ∨
        ∀ pid, k1.procs.state pid = .runnable → pid = k1.current) →
      ending2 = ending' ∧ SameMachine k' k2) ∧
    (k.ticks < t1 → ending = .condition →
      k1.ticks = t1 ∧ k1.procs.state k1.current = .runnable ∧
      runFrom (atTick t2) () (.run k1.current) k1 = .ok (ending2, ()) k2 ∧
      ∃ pid, schedule k1 = .ok (.run pid) k1 ∧
        runFrom (atTick t2) () (.run pid) k1 = .ok (ending', ()) k') := by
  refine ⟨fun hcase => pause_same h.sound hle hfirst hcase hsecond hsingle, ?_⟩
  rintro hlt rfl
  obtain ⟨hticks, hrun, hsecond', pid, hschedule, hsingle'⟩ :=
    pause_interrupted h.sound hle hfirst hlt
  exact ⟨hticks, hrun, hsecond'.symm.trans hsecond, pid, hschedule, hsingle'.symm.trans hsingle⟩

/-- Processes that jump to themselves end in different machines with a pause and without. -/
theorem pause_differs_spin : ∃ k k1 k2 k', Reachable (textLoader spin) k ∧
    runUntil (atTick 2) () k = .ok (.condition, ()) k1 ∧
    runUntil (atTick 3) () k1 = .ok (.condition, ()) k2 ∧
    runUntil (atTick 3) () k = .ok (.condition, ()) k' ∧ k2.current = 1 ∧ k'.current = 2 := by
  obtain ⟨k, k1, k2, k', hboot, hfirst, -, -, hsecond, hcurrent, hsingle, hcurrent'⟩ := spin_paused
  exact ⟨k, k1, k2, k', .boot hboot, hfirst, hsecond, hsingle, hcurrent, hcurrent'⟩

/-- The two ways part at the pause. -/
theorem pause_resumes_spin : ∃ k k1 k2 k' pid, boot (textLoader spin) none = .ok k ∧
    runUntil (atTick 2) () k = .ok (.condition, ()) k1 ∧
    runFrom (atTick 3) () (.run 1) k1 = .ok (.condition, ()) k2 ∧
    schedule k1 = .ok (.run pid) k1 ∧
    runFrom (atTick 3) () (.run pid) k1 = .ok (.condition, ()) k' := by
  obtain ⟨k, k1, k2, k', hboot, hfirst, hticks, hcurrent, hsecond, -, hsingle, -⟩ := spin_paused
  have hreach : Reachable (textLoader spin) k := .boot hboot
  obtain ⟨-, hpause⟩ := hreach.pause_resumes (by decide) hfirst hsecond hsingle
  obtain ⟨-, -, hgoes, pid, hschedule, hchosen⟩ := hpause (by omega) rfl
  rw [hcurrent] at hgoes
  exact ⟨k, k1, k2, k', pid, hboot, hfirst, hgoes, hschedule, hchosen⟩

end Kernel
end PagedKernel
