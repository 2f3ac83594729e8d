import PagedKernel.Kernel.Run
import PagedKernel.Proofs.Kernel.Handler
import PagedKernel.Proofs.Spaces.Execution

/-!
# Running processes

A run of a process has two parts: its program runs until it traps (`Kernel.runToTrap`), and the trap
is handled. A process that can run passes the audit, and its program runs in its own space whatever
it does, so the kernel stays sound and no other process is concerned. The halts that a program can
bring about are those of `ProgramHalt`; the end of the clock apart, there are no others. The main
loop is many such runs.

Key definitions: `ProgramHalt`, `Kernel.runToTrap`, `Kernel.Traps`, `Kernel.Calls`.
Key theorems: `Kernel.runToTrap_ends`, `Kernel.run_serves`, `Kernel.idle_ends`,
`Kernel.runUntil_sound`.
-/

namespace PagedKernel

/-- How the program of process `pid` can halt the kernel: by a call that is not known, by the call
that asks for it, by bytes that are no instruction or by an address that is not canonical. -/
inductive ProgramHalt (pid : Pid) : Halt → Prop
  | unknownCall (number : UInt64) : ProgramHalt pid (.unexpectedSyscall number)
  | panicked : ProgramHalt pid (.processPanicked pid)
  | invalidOpcode : ProgramHalt pid (.unexpectedException 6)
  | generalProtection : ProgramHalt pid (.unexpectedException 13)

/-- In a sound userland any program of a process runs in the space of that. -/
theorem Userland.Sound.runsIn {n : Nat} {kernel : PageTable} {g : Shape} {s : Userland n}
    (h : s.Sound kernel g) {pid : Pid} {t : PageTable} (ht : s.procs.table? pid = some t)
    (regs : Registers) (cr2 : UInt64) :
    Core.RunsIn g s.frames t.root.number ⟨s.frames.memory, regs, t.pa, cr2⟩ :=
  ⟨h.accounted.fits, h.spaces.linked, h.owns.isRoot ht, rfl, .refl _ _⟩

namespace Kernel

variable {k : Kernel} {E : Halt → Prop} {pid : Pid} {t : PageTable}

theorem enter_ok {cr3 : PhysAddr} {regs : Registers} {trap : Trap} {c : Core physicalPages}
    {timer : Timer}
    (hrun : Core.run ⟨k.frames.memory, regs, cr3, k.cr2⟩ k.timer = .ok (trap, c, timer)) :
    enter cr3 regs k = .ok (trap, c.regs) { k with
      frames := { k.frames with memory := c.memory }, cr3 := cr3, cr2 := c.cr2, timer } := by
  unfold enter
  rw [hrun]

/-- **A program runs in the space of its process**, and the kernel stays sound. -/
theorem enter_ends (h : Sound k) (ht : k.procs.table? k.current = some t) (regs : Registers) :
    Ends (enter t.pa regs) k (fun res k' => Follows k k' ∧
      res.1 ∈ [Trap.invalidOpcode, .generalProtection, .pageFault, .timer, .syscall] ∧
      res.2.vector = res.1.code ∧ (res.1 = .pageFault → res.2.errorCode &&& faultUser ≠ 0)) E := by
  obtain ⟨g, hg⟩ := h.userland
  have hfits := hg.accounted.fits
  obtain ⟨trap, c, timer, hrun, ⟨hend, htrap, hfault⟩, hvector⟩ :=
    (hg.runsIn ht regs k.cr2).run k.timer
  refine .of_ok (enter_ok hrun) ⟨⟨⟨⟨⟨⟨g, ?_, ?_, hg.owns⟩, h.current, h.viewer⟩, rfl, rfl,
    hend.wrote.sameSpace hend.no_table hfits hg.spaces.kernelRoot, ?_⟩, fun _ _ => rfl⟩, rfl,
    fun _ => rfl⟩, htrap, hvector, hfault⟩
  · exact hend.wrote.accounted hend.no_table hg.accounted
  · exact hg.spaces.wrote hend.wrote hend.no_table hfits
  · exact .of_wrote hg.owns hg.spaces hfits ht hend.wrote rfl

/-- The system call that a trap is, if it is one. -/
def callOf (trap : Trap) (regs : Registers) : Option SystemCall :=
  if trap = .syscall then SystemCall.ofRegisters? regs else none

theorem handle_ends (h : Sound k) {trap : Trap} {regs : Registers}
    (htrap : trap ∈ [Trap.invalidOpcode, .generalProtection, .pageFault, .timer, .syscall])
    (hvector : regs.vector = trap.code)
    (hfault : trap = .pageFault → regs.errorCode &&& faultUser ≠ 0)
    (hspace : k.procs.table? k.current ≠ none) (hclock : 2 ^ 64 ≤ k.ticks + 1 → E .overflow)
    (hprogram : ∀ e, ProgramHalt k.current e → E e) :
    Ends (handle trap regs) k (Served (callOf trap regs) k) E := by
  have htrap? : regs.trap? = some trap := by
    unfold Registers.trap?
    rw [hvector, Trap.ofCode?_code]
  unfold callOf
  refine .ite (fun hcall => ?_) fun hne => ?_
  · rw [if_pos hcall]
    exact syscall_ends h regs (fun _ => hprogram _ (.unknownCall _))
      (fun _ => hprogram _ .panicked) fun hnone => absurd hnone hspace
  · rw [if_neg hne]
    refine exception_ends h regs (fun _ => hclock) (fun hpf hu => ?_) fun htimer hpf => ?_
    · rw [htrap?] at hpf
      exact absurd hu (hfault (Option.some.inj hpf))
    · rw [htrap?] at htimer hpf
      simp only [List.mem_cons, List.not_mem_nil, or_false] at htrap
      rcases htrap with rfl | rfl | rfl | rfl | rfl
      · rw [hvector]
        exact hprogram _ .invalidOpcode
      · rw [hvector]
        exact hprogram _ .generalProtection
      · exact absurd rfl hpf
      · exact absurd rfl htimer
      · exact absurd rfl hne

theorem dispatch_ends (h : Sound k) (hstate : k.procs.state pid ≠ .runnable → ∀ e, E e) :
    Ends (dispatch pid) k (fun res k' => Sound k' ∧ k' = { k with current := pid } ∧
      k.procs.slot pid = ⟨.runnable, res.1, some res.2⟩) E := by
  unfold dispatch
  refine .get ?_
  refine .bind (.lift_cases (Q := fun p k1 => pid < procCount ∧ p = k.procs.slot pid ∧ k1 = k)
    (fun p hp => ?_) fun e he => ?_) ?_
  · by_cases hpid : pid < procCount
    · rw [ProcessTable.get_eq hpid] at hp
      exact ⟨hpid, (Except.ok.inj hp).symm, rfl⟩
    · unfold ProcessTable.get at hp
      rw [dif_neg hpid] at hp
      cases hp
  · refine hstate (fun hrun => ?_) e
    rw [ProcessTable.get_eq (ProcessTable.lt_of_state (by rw [hrun]; nofun))] at he
    cases he
  intro _ k hpost
  obtain ⟨hpid, rfl, rfl⟩ := hpost
  rw [ProcessTable.state_eq] at hstate
  refine .ite (fun hne => .throw_bind (hstate hne _)) fun hrun => ?_
  have hrun : (k.procs.slot pid).state = .runnable := not_not.mp hrun
  have h' : Sound { k with current := pid } := ⟨h.userland, hpid, h.viewer⟩
  refine .update_bind ?_
  rcases hslot : k.procs.slot pid with ⟨state, regs, table⟩
  rw [hslot] at hrun
  obtain rfl : state = .runnable := hrun
  cases table with
  | none =>
    obtain ⟨g, hg⟩ := h.userland
    have hnone : k.procs.table? pid = none := by rw [ProcessTable.table?_eq, hslot]
    exact absurd hnone (hg.owns.runnable (by rw [ProcessTable.state_eq, hslot]))
  | some t => exact .pure ⟨h', rfl, rfl⟩

/-! ### A run -/

/-- Let process `pid` run until it traps. The trap is not handled yet. -/
def runToTrap (pid : Pid) : KernelM (Trap × Registers) := do
  let (regs, t) ← dispatch pid
  let k ← get
  checkTable k.frames.memory k.table t
  enter t.pa regs

/-- A run is one up to a trap, and the handling of the trap. -/
theorem run_eq (pid : Pid) : run pid = runToTrap pid >>= fun res => handle res.1 res.2 := by
  unfold run runToTrap
  simp only [bind_assoc]

/-- The core on which process `pid` runs in the space of `t`. -/
def core (k : Kernel) (pid : Pid) (t : PageTable) : Core physicalPages :=
  ⟨k.frames.memory, (k.procs.slot pid).regs, t.pa, k.cr2⟩

/-- Process `pid`, which can run in the space of `t`, has run on its core up to a trap. -/
structure Traps (k : Kernel) (pid : Pid) (t : PageTable) (trap : Trap) (regs : Registers)
    (k' : Kernel) : Prop where
  state : k.procs.state pid = .runnable
  table? : k.procs.table? pid = some t
  core : ∃ c timer, (k.core pid t).run k.timer = .ok (trap, c, timer) ∧ regs = c.regs ∧
    k' = { k with
      frames := { k.frames with memory := c.memory }
      cr3 := t.pa, cr2 := c.cr2, timer, current := pid }
  follows : Follows { k with current := pid } k'
  trap_mem : trap ∈ [Trap.invalidOpcode, .generalProtection, .pageFault, .timer, .syscall]
  vector : regs.vector = trap.code
  byUser : trap = .pageFault → regs.errorCode &&& faultUser ≠ 0

theorem Traps.trap? {trap : Trap} {regs : Registers} {k' : Kernel}
    (h : Traps k pid t trap regs k') : regs.trap? = some trap := by
  unfold Registers.trap?
  rw [h.vector, Trap.ofCode?_code]

theorem Traps.procs {trap : Trap} {regs : Registers} {k' : Kernel}
    (h : Traps k pid t trap regs k') : k'.procs = k.procs := by
  obtain ⟨_, _, _, _, rfl⟩ := h.core
  rfl

/-- **A process that can run does so up to a trap.** -/
theorem runToTrap_ends (h : Sound k) (hstate : k.procs.state pid ≠ .runnable → ∀ e, E e) :
    Ends (runToTrap pid) k (fun res k' => ∃ t, Traps k pid t res.1 res.2 k') E := by
  refine .bind (dispatch_ends h hstate) ?_
  rintro ⟨regs, t⟩ k1 ⟨h1, rfl, hslot⟩
  have ht : k.procs.table? pid = some t := by rw [ProcessTable.table?_eq, hslot]
  have hregs : (k.procs.slot pid).regs = regs := by rw [hslot]
  refine .get ?_
  obtain ⟨g, hg⟩ := h1.userland
  refine .lift (hg.checkTable_ok (hg.owns.isRoot ht) (hg.owns.ne ht)) ?_
  obtain ⟨⟨trap, regs'⟩, k2, hok, hfollows, htrap, hvector, hfault⟩ := (enter_ends h1 ht regs).ok
  refine .of_ok hok ⟨t, by rw [ProcessTable.state_eq, hslot], ht, ?_, hfollows, htrap, hvector,
    hfault⟩
  unfold enter at hok
  split at hok
  · next trap c timer hrun =>
    cases hok
    unfold core
    rw [hregs]
    exact ⟨c, timer, hrun, rfl, rfl⟩
  · cases hok

/-- Up to the trap a process does what its core does. -/
theorem runToTrap_of_run (h : Sound k) (hstate : k.procs.state pid = .runnable)
    (ht : k.procs.table? pid = some t) {trap : Trap} {c : Core physicalPages} {timer : Timer}
    (hrun : (k.core pid t).run k.timer = .ok (trap, c, timer)) :
    ∃ k', runToTrap pid k = .ok (trap, c.regs) k' ∧ Traps k pid t trap c.regs k' ∧
      k'.frames = { k.frames with memory := c.memory } ∧ k'.procs = k.procs ∧ k'.timer = timer := by
  have hends : Ends (runToTrap pid) k _ fun _ => False :=
    runToTrap_ends h fun hne => absurd hstate hne
  obtain ⟨⟨_, _⟩, k', hok, t', htraps⟩ := hends.ok
  obtain rfl : t' = t := Option.some.inj (htraps.table?.symm.trans ht)
  obtain ⟨_, _, hrun', rfl, rfl⟩ := htraps.core
  rw [hrun] at hrun'
  cases hrun'
  exact ⟨_, hok, htraps, rfl, rfl, rfl⟩

theorem run_of_trap {trap : Trap} {regs : Registers} {k' : Kernel}
    (htrap : runToTrap pid k = .ok (trap, regs) k') : run pid k = handle trap regs k' := by
  rw [run_eq]
  show EStateM.bind _ _ k = _
  unfold EStateM.bind
  rw [htrap]

/-- **Running a process** keeps the kernel sound and concerns no other process. It ends in a turn or
in a halt that its program brings about. -/
theorem run_serves (h : Sound k) (hstate : k.procs.state pid ≠ .runnable → ∀ e, E e)
    (hclock : 2 ^ 64 ≤ k.ticks + 1 → E .overflow) (hprogram : ∀ e, ProgramHalt pid e → E e) :
    Ends (run pid) k (fun turn k' => Handled turn k' ∧
      Userland.Concerns pid k.toUserland k'.toUserland) E := by
  rw [run_eq]
  refine .bind (runToTrap_ends h hstate) ?_
  rintro ⟨trap, regs⟩ k2 ⟨t, htraps⟩
  have h2 := htraps.follows
  refine (handle_ends h2.sound htraps.trap_mem htraps.vector htraps.byUser ?_ ?_ ?_).imp
    fun turn k3 h3 => ?_
  · rw [h2.table?, h2.current, htraps.table?]
    exact Option.some_ne_none _
  · rw [h2.ticks]
    exact hclock
  · rw [h2.current]
    exact hprogram
  · exact ⟨⟨h3.1.sound, h3.2⟩, (h2.toServes.trans h3.1.toServes).concerns⟩

theorem run_ends (h : Sound k) (hstate : k.procs.state pid ≠ .runnable → ∀ e, E e)
    (hclock : 2 ^ 64 ≤ k.ticks + 1 → E .overflow) (hprogram : ∀ e, ProgramHalt pid e → E e) :
    Ends (run pid) k Handled E :=
  (run_serves h hstate hclock hprogram).imp fun _ _ h' => h'.1

/-! ### The main loop -/

/-- What programs and the scheduler know of is the same, which is all but the log and the viewer. -/
structure SameMachine (k k' : Kernel) : Prop where
  frames : k'.frames = k.frames
  procs : k'.procs = k.procs
  table : k'.table = k.table
  cr3 : k'.cr3 = k.cr3
  cr2 : k'.cr2 = k.cr2
  timer : k'.timer = k.timer
  ticks : k'.ticks = k.ticks
  current : k'.current = k.current

theorem SameMachine.refl (k : Kernel) : SameMachine k k :=
  ⟨rfl, rfl, rfl, rfl, rfl, rfl, rfl, rfl⟩

/-- What spinning leaves: the same machine, and one that can run, if any. -/
structure Spun (k : Kernel) (next : Option Pid) (k' : Kernel) : Prop extends SameMachine k k' where
  sound : Sound k'
  ready : ∀ pid, next = some pid → k'.procs.state pid = .runnable

theorem idleFrom_ends : ∀ (spins spin : Nat) {k : Kernel}, Sound k →
    Ends (idleFrom spin spins) k (Spun k) E
  | 0, _, k, h => .pure ⟨.refl k, h, nofun⟩
  | spins + 1, spin, k, h => by
    refine .bind (schedule_ends h) fun turn k1 h1 => ?_
    cases turn with
    | run pid =>
      obtain ⟨rfl, hready⟩ := h1
      exact .pure ⟨.refl k1, h, fun q hq => hready q (congrArg Turn.run (Option.some.inj hq))⟩
    | idle =>
      obtain ⟨rfl, -⟩ := h1
      refine .ite (fun _ => ?_) fun _ => idleFrom_ends spins (spin + 1) h
      refine .get ?_
      obtain ⟨g, hg⟩ := h.userland
      refine .bind (.onUserland (Viewer.draw_ends k1.viewer hg)) ?_
      intro v _ hpost
      obtain ⟨s, rfl, hv, hframes, hprocs⟩ := hpost
      refine .update_bind ?_
      have h2 := h.viewed hframes hprocs (hv.trans_le h.viewer)
      refine .step (report_ok _) ?_
      refine (idleFrom_ends spins (spin + 1) (h2.reported _)).imp fun next k4 h4 => ?_
      exact ⟨⟨h4.frames.trans hframes, h4.procs.trans hprocs, h4.table, h4.cr3, h4.cr2, h4.timer,
        h4.ticks, h4.current⟩, h4.sound, h4.ready⟩

/-- **Spinning** keeps the kernel sound and does not halt. -/
theorem idle_ends (h : Sound k) (spins : Nat) :
    Ends (idle spins) k (Spun k) E :=
  idleFrom_ends spins 1 h

/-- Spinning is in vain only if no process can run. -/
theorem idle_none (h : Sound k) {spins : Nat} {k' : Kernel} (hspins : 0 < spins)
    (hok : idle spins k = .ok none k') (pid : Pid) : k.procs.state pid ≠ .runnable := by
  obtain ⟨spins, rfl⟩ := Nat.exists_eq_succ_of_ne_zero (Nat.ne_of_gt hspins)
  obtain ⟨turn, k1, hschedule, hrest⟩ := HaltM.bind_eq_ok hok
  cases turn with
  | run pid => cases hrest
  | idle => exact schedule_idle h.current hschedule pid

theorem idle_stuck (h : Sound k) (hstuck : ∀ pid, k.procs.state pid ≠ .runnable) (spins : Nat) :
    ∃ k', idle spins k = .ok none k' ∧ Spun k none k' := by
  obtain ⟨next, k', hok, hspun⟩ := (idle_ends (E := fun _ => False) h spins).ok
  cases next with
  | none => exact ⟨k', hok, hspun⟩
  | some pid => exact absurd (hspun.procs ▸ hspun.ready pid rfl) (hstuck pid)

theorem run_ok (h : Sound k) {turn : Turn} {k' : Kernel} (hok : run pid k = .ok turn k') :
    Handled turn k' ∧ Userland.Concerns pid k.toUserland k'.toUserland :=
  (run_serves (E := fun _ => True) h (fun _ _ => trivial) (fun _ => trivial)
    fun _ _ => trivial).eq_ok hok

theorem run_sound (h : Sound k) {turn : Turn} {k' : Kernel} (hok : run pid k = .ok turn k') :
    Handled turn k' :=
  (run_ok h hok).1

/-- A run that does not halt is a trap that is handled. -/
theorem run_answers (h : Sound k) {turn : Turn} {k' : Kernel} (hok : run pid k = .ok turn k') :
    ∃ t trap regs kt, runToTrap pid k = .ok (trap, regs) kt ∧ Traps k pid t trap regs kt ∧
      handle trap regs kt = .ok turn k' ∧ Answers (callOf trap regs) kt k' := by
  rw [run_eq] at hok
  obtain ⟨⟨trap, regs⟩, kt, htrap, hhandle⟩ := HaltM.bind_eq_ok hok
  obtain ⟨t, htraps⟩ := (runToTrap_ends (E := fun _ => True) h fun _ _ => trivial).eq_ok htrap
  have hspace : kt.procs.table? kt.current ≠ none := by
    rw [htraps.follows.table?, htraps.follows.current, htraps.table?]
    exact Option.some_ne_none t
  have hserved := (handle_ends (E := fun _ => True) htraps.follows.sound htraps.trap_mem
    htraps.vector htraps.byUser hspace (fun _ => trivial) fun _ _ => trivial).eq_ok hhandle
  exact ⟨t, trap, regs, kt, htrap, htraps, hhandle, hserved.1⟩

/-- The next run of process `pid` gets to `kt`, where it makes the system call `call` with the
registers `regs`. -/
def Calls (k : Kernel) (pid : Pid) (call : SystemCall) (regs : Registers) (kt : Kernel) : Prop :=
  runToTrap pid k = .ok (.syscall, regs) kt ∧ SystemCall.ofRegisters? regs = some call

theorem Calls.answers {call : SystemCall} {regs : Registers} {kt k' : Kernel} {turn : Turn}
    (h : Sound k) (hcalls : Calls k pid call regs kt) (hok : run pid k = .ok turn k') :
    (∃ t, Traps k pid t .syscall regs kt) ∧ syscall regs kt = .ok turn k' ∧
      Answers (some call) kt k' := by
  obtain ⟨htrap, hcall⟩ := hcalls
  obtain ⟨t, _, _, _, htrap', htraps, hhandle, hanswers⟩ := run_answers h hok
  rw [htrap] at htrap'
  cases htrap'
  rw [callOf, if_pos rfl, hcall] at hanswers
  exact ⟨⟨t, htraps⟩, hhandle, hanswers⟩

/-- One turn of the main loop, and the rest of it. -/
theorem runFrom_eq {σ : Type} (stop : σ → Kernel → Bool × σ) (s : σ) (next : Turn) (k : Kernel) :
    runFrom stop s next k =
      match stop s k with
      | (true, s) => .ok (.condition, s) k
      | (false, s) =>
        match next with
        | .run pid =>
          match run pid k with
          | .error e k' => .error e k'
          | .ok next k' => runFrom stop s next k'
        | .idle =>
          match idle redrawSpins k with
          | .error e k' => .error e k'
          | .ok none k' => .ok (.idle, s) k'
          | .ok (some pid) k' => runFrom stop s (.run pid) k' := by
  rw [runFrom]
  rcases stop s k with ⟨_ | _, s⟩
  · cases next <;> dsimp only <;> split <;> next hturn => rw [hturn]
  · rfl

/-- **The main loop** keeps the kernel sound. -/
theorem runFrom_sound {σ : Type} (stop : σ → Kernel → Bool × σ) (s : σ) (next : Turn) (k : Kernel)
    (h : Sound k) {res : Ending × σ} {k' : Kernel} (hok : runFrom stop s next k = .ok res k') :
    Sound k' := by
  induction s, next, k using runFrom.induct stop with
  | case1 s next k s1 hstop =>
    rw [runFrom_eq, hstop] at hok
    cases hok
    exact h
  | case2 s k s1 hstop pid e k1 hrun =>
    simp only [runFrom_eq stop s, hstop, hrun] at hok
    cases hok
  | case3 s k s1 hstop pid turn k1 hrun ih =>
    simp only [runFrom_eq stop s, hstop, hrun] at hok
    exact ih (run_sound h hrun).1 hok
  | case4 s k s1 hstop e k1 hidle =>
    simp only [runFrom_eq stop s, hstop, hidle] at hok
    cases hok
  | case5 s k s1 hstop k1 hidle =>
    simp only [runFrom_eq stop s, hstop, hidle] at hok
    cases hok
    exact ((idle_ends (E := fun _ => True) h _).eq_ok hidle).sound
  | case6 s k s1 hstop pid k1 hidle ih =>
    simp only [runFrom_eq stop s, hstop, hidle] at hok
    exact ih ((idle_ends (E := fun _ => True) h _).eq_ok hidle).sound hok

theorem runUntil_sound {σ : Type} {stop : σ → Kernel → Bool × σ} {s : σ} (h : Sound k)
    {res : Ending × σ} {k' : Kernel} (hok : runUntil stop s k = .ok res k') : Sound k' := by
  obtain ⟨next, k1, hresume, hloop⟩ := HaltM.bind_eq_ok hok
  obtain ⟨rfl, -⟩ := (resume_ends (E := fun _ => True) h).eq_ok hresume
  exact runFrom_sound stop s next _ h hloop

end Kernel
end PagedKernel
