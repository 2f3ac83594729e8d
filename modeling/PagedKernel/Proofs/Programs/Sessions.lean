import PagedKernel.Proofs.Kernel.Timekeeping
import PagedKernel.Proofs.Programs.Faults
import PagedKernel.Proofs.Programs.Processes
import PagedKernel.Session

/-!
# Sessions with the bundled programs

A session with programs that are vetted goes on until its time is over: the kernel is tame when it
has booted, and each run leaves it so, moves its clock on by one at most, and leaves a process to
run. Of the bundled programs all are vetted but two, one that reads the null page and one that
writes to its text. They are loaded alone, meet a page fault at once, and nothing is left to run.

Key theorems: `Kernel.Tame.runFrom`, `Kernel.runUntil_vetted`, `Kernel.runUntil_faults`,
`bundled_vetted`, `bundled_sessions`.
-/

namespace PagedKernel

/-! ### Programs -/

section
variable {program : Program} {v : Nat} {text : List Instruction}

theorem Program.IsPage.entry_eq (h : program.IsPage v text) :
    program.entry = UInt64.ofNat (v * pageSize + instructionSize * 0) := by
  rw [Nat.mul_zero, Nat.add_zero, h.entry]

theorem Program.IsPage.isText (h : program.IsPage v text) : ∃ seg, program.segments = [seg] ∧
    seg.IsText v ∧ seg.data = text.flatMap Instruction.encode :=
  ⟨_, h.segments, ⟨rfl, h.first_le, h.lt_stack, Nat.zero_lt_succ 4095, le_rfl,
    (Instruction.length_flatMap_encode text).trans_le h.length_le, rfl⟩, rfl⟩

end

namespace Kernel

variable {k k' : Kernel} {loader : Loader} {command : Option String} {pid : Pid} {time : Nat}
  {program : Program} {v : Nat} {text : List Instruction} {o : Outline}

/-- A process that is about to run a page of text has that, and is at its beginning. -/
theorem starts_page (h : k.toUserland.Starts pid program) (hpage : program.IsPage v text) :
    ∃ t, k.procs.slot pid =
        ⟨.runnable, .starting program.entry (UInt64.ofNat virtualSize), some t⟩ ∧
      k.frames.memory.HasText t.root.number v (text.flatMap Instruction.encode) := by
  obtain ⟨t, hslot, ⟨-, hholds⟩, -⟩ := h
  obtain ⟨seg, hsegs, hseg, hdata⟩ := hpage.isText
  exact ⟨t, hslot, hdata ▸ (hholds seg v hsegs hseg).1⟩

/-- **A process that is about to run a page of text stands** if the program has an outline, and
lives. -/
theorem stands_of_starts (h : k.toUserland.Starts pid program) (hfollows : program.Follows o) :
    Stands k pid true := by
  obtain ⟨t, hslot, htext⟩ := starts_page h hfollows.toIsPage
  obtain ⟨s, hs, himp⟩ := hfollows.entered
  have hat : o.At .entry k.frames.memory t.root.number
      (.starting program.entry (UInt64.ofNat virtualSize)) :=
    ⟨htext, hfollows.entry_eq, fun _ => trivial⟩
  exact ⟨o, s, _, t, hs, (Stage.implies_iff.mp himp).2.1.symm, hslot, hat.implies himp⟩

/-! ### The main loop -/

/-- A kernel resumes some process that can run, if any. -/
theorem Sound.resume_run (h : Sound k) (hrun : k.procs.state pid = .runnable) :
    ∃ q, resume k = .ok (.run q) k ∧ k.procs.state q = .runnable := by
  by_cases hcurrent : k.procs.state k.current = .runnable
  · exact ⟨_, resume_runnable hcurrent, hcurrent⟩
  · obtain ⟨turn, _, hok, rfl, hready⟩ := (schedule_ends (E := fun _ => False) h).ok
    obtain ⟨q, rfl⟩ := schedule_run h.current hok hrun
    exact ⟨q, (resume_other hcurrent).trans hok, hready q rfl⟩

/-- **The main loop of a tame kernel** goes on until the time is over. -/
theorem Tame.runFrom {k : Kernel} {pid : Pid} (h : Tame k)
    (hrun : k.procs.state pid = .runnable) (hle : k.ticks ≤ time) (htime : time < 2 ^ 64) :
    ∃ k', Kernel.runFrom (atTick time) () (.run pid) k = .ok (.condition, ()) k' ∧
      k'.ticks = time := by
  by_cases hlt : k.ticks < time
  · obtain ⟨_, k1, hok, h1⟩ := h.run hrun (by omega)
    obtain ⟨p, hlives⟩ := h1.lives
    obtain ⟨q, rfl⟩ := run_next h.sound hok hlives.state
    have hclock := run_clock hok
    obtain ⟨k', hok', htime'⟩ :=
      h1.runFrom ((run_sound h.sound hok).2 q rfl) (by omega) htime
    refine ⟨k', ?_, htime'⟩
    rw [runFrom_eq, atTick_false.mpr hlt]
    dsimp only
    rw [hok]
    exact hok'
  · have hticks : k.ticks = time := Nat.le_antisymm hle (Nat.le_of_not_lt hlt)
    exact ⟨k, runFrom_atTick hticks.ge, hticks⟩
-- each run moves the clock on, or leaves the timer less to count
termination_by (time - k.ticks, k.timer.count)
decreasing_by
  rcases hclock with ⟨hticks, hcount⟩ | ⟨hticks, -⟩
  · rw [hticks]
    exact .right _ hcount
  · exact .left _ _ (by omega)

/-! ### Booting -/

theorem programNames_ne_nil (loader : Loader) (command : Option String) :
    programNames loader command ≠ [] := by
  unfold programNames
  cases command with
  | none => exact nofun
  | some name =>
    dsimp only
    split <;> exact nofun

/-- **The kernel is tame** when it has booted with programs that are vetted. -/
theorem boot_vetted (hvetted : ∀ name ∈ programNames loader command,
    ∃ program, loader name = some program ∧ program.vetted = true) :
    ∃ k, boot loader command = .ok k ∧ k.ticks = 1 ∧ Tame k := by
  have hfinds : ∀ name ∈ programNames loader command, Finds loader name := fun name hname => by
    obtain ⟨program, hprogram, hok⟩ := hvetted name hname
    obtain ⟨o, hfollows⟩ := Program.exists_follows hok
    obtain ⟨seg, hsegs, hseg, -⟩ := hfollows.toIsPage.isText
    exact ⟨program, hprogram, .inr ⟨seg, _, hsegs, hseg⟩⟩
  obtain ⟨k, hboot, hticks, -, -, -, hfree, hall⟩ := boot_names
    (fun k => bootPrograms_ok loader command k) (length_programNames loader command) hfinds
  have hstands : ∀ i : Nat, i < (programNames loader command).length → Stands k (1 + i) true :=
    fun i hi => by
      obtain ⟨program, hprogram, hstarts⟩ := hall i _ (List.getElem?_eq_getElem hi)
      obtain ⟨program', hprogram', hok⟩ := hvetted _ (List.getElem_mem hi)
      obtain rfl := Option.some.inj (hprogram.symm.trans hprogram')
      obtain ⟨o, hfollows⟩ := Program.exists_follows hok
      exact stands_of_starts hstarts hfollows
  refine ⟨k, hboot, hticks, boot_sound hboot, fun pid => ?_, 1 + 0,
    hstands 0 (List.length_pos_iff.mpr (programNames_ne_nil loader command))⟩
  rcases Nat.lt_or_ge pid 1 with hpid | hpid
  · exact .inl (hfree pid (.inl hpid))
  rcases Nat.lt_or_ge pid (1 + (programNames loader command).length) with hlt | hge
  · obtain ⟨i, rfl⟩ := Nat.exists_eq_add_of_le hpid
    exact .inr ⟨true, hstands i (by omega)⟩
  · exact .inl (hfree pid (.inr hge))

/-- **A kernel with programs that are vetted** runs until the time is over. -/
theorem runUntil_vetted (hvetted : ∀ name ∈ programNames loader command,
    ∃ program, loader name = some program ∧ program.vetted = true) (hpos : 1 ≤ time)
    (htime : time < 2 ^ 64) :
    ∃ k k', boot loader command = .ok k ∧
      runUntil (atTick time) () k = .ok (.condition, ()) k' ∧ k'.ticks = time := by
  obtain ⟨k, hboot, hticks, htame⟩ := boot_vetted hvetted
  obtain ⟨p, hlives⟩ := htame.lives
  obtain ⟨q, hresume, hrun⟩ := htame.sound.resume_run hlives.state
  obtain ⟨k', hok, htime'⟩ := htame.runFrom hrun (hticks.trans_le hpos) htime
  exact ⟨k, k', hboot, (runUntil_of_resume hresume).trans hok, htime'⟩

theorem boot_page {name : String} (hname : loader name = some program)
    (hpage : program.IsPage v text) : ∃ k t g, boot loader (some name) = .ok k ∧ k.ticks = 1 ∧
      k.timer.count = 1000 ∧ (∀ q : Nat, q ≠ 1 → k.procs.state q = .free) ∧
      k.procs.state 1 = .runnable ∧ k.procs.table? 1 = some t ∧
      (k.core 1 t).Placed g k.frames t.root.number v text 0 := by
  have hnames : programNames loader (some name) = [name] := by
    unfold programNames
    exact if_pos (hname ▸ rfl)
  obtain ⟨seg, hsegs, hseg, -⟩ := hpage.isText
  have hok : ∀ k, ∃ log, bootPrograms loader (some name) k = .ok [name] { k with log } :=
    fun k => hnames ▸ bootPrograms_ok loader (some name) k
  have hfinds : ∀ name' ∈ [name], Finds loader name' := fun name' hmem => by
    obtain rfl := List.mem_singleton.mp hmem
    exact ⟨program, hname, .inr ⟨seg, _, hsegs, hseg⟩⟩
  obtain ⟨k, hboot, hticks, htimer, -, -, hfree, hall⟩ :=
    boot_names hok (Nat.le_add_left 1 3) hfinds
  obtain ⟨program', hname', hstarts⟩ := hall 0 name rfl
  obtain rfl := Option.some.inj (hname.symm.trans hname')
  obtain ⟨t, hslot, htext⟩ := starts_page hstarts hpage
  have ht : k.procs.table? 1 = some t := by rw [ProcessTable.table?_eq, hslot]
  obtain ⟨g, hg⟩ := (boot_sound hboot).userland
  refine ⟨k, t, g, hboot, hticks, ?_, fun q hq => hfree q ?_, ?_, ht, hg.runsIn ht _ _, htext,
    lt_trans hpage.lt_stack (by decide), ?_⟩
  · rw [← Except.ok.inj htimer]
    rfl
  · rw [List.length_singleton]
    omega
  · rw [ProcessTable.state_eq, hslot]
  · show (k.procs.slot 1).regs.rip = _
    rw [hslot]
    exact hpage.entry_eq

/-- **A kernel with a program that faults** is idle soon, if its time is not over at once. -/
theorem runUntil_faults {name : String} (hname : loader name = some program)
    (hpage : program.IsPage v text) {j : Nat} (hj : j ≤ 1000)
    (hfaults : ∀ {k : Kernel} {t : PageTable} {g : Shape}, Sound k → k.procs.table? 1 = some t →
      (k.core 1 t).Placed g k.frames t.root.number v text 0 → (k.core 1 t).Faults j)
    (hpos : 1 ≤ time) : ∃ k k' ending, boot loader (some name) = .ok k ∧
      runUntil (atTick time) () k = .ok (ending, ()) k' ∧ (ending = .idle ↔ 1 < time) ∧
      (ending = .condition → k'.ticks = time) := by
  obtain ⟨k, t, g, hboot, hticks, hcount, hfree, hrun, ht, hplaced⟩ := boot_page hname hpage
  have hk := boot_sound hboot
  have halone : ∀ q, q ≠ 1 → k.procs.state q ≠ .runnable := fun q hq => by
    rw [hfree q hq]
    exact nofun
  obtain ⟨q, hresume, hq⟩ := hk.resume_run hrun
  obtain rfl : q = 1 := not_not.mp fun hne => halone q hne hq
  by_cases hlt : 1 < time
  · obtain ⟨k', hok⟩ := hk.runFrom_faults hrun ht (hfaults hk ht hplaced) (hcount ▸ hj) halone
      (hticks ▸ hlt)
    exact ⟨k, k', .idle, hboot, (runUntil_of_resume hresume).trans hok, iff_of_true rfl hlt, nofun⟩
  · have hle : time ≤ k.ticks := hticks ▸ Nat.le_of_not_lt hlt
    exact ⟨k, k, .condition, hboot, runUntil_atTick hk hle, iff_of_false nofun hlt,
      fun _ => by omega⟩

end Kernel

/-! ### The bundled programs -/

/-- **The bundled programs are vetted**, but for two. -/
theorem bundled_vetted {name : String} {program : Program} (hname : bundled name = some program)
    (hnull : name ≠ "null_deref") (htext : name ≠ "text_write") : program.vetted = true := by
  have hall : ∀ entry ∈ bundledPrograms, entry.1 = "null_deref" ∨ entry.1 = "text_write" ∨
      entry.2.toOption.all Program.vetted = true := by
    decide +kernel
  unfold bundled at hname
  obtain ⟨entry, hfind, hentry⟩ := Option.bind_eq_some_iff.mp hname
  obtain rfl : entry.1 = name :=
    eq_of_beq (List.find?_some (p := fun e : String × Except Halt Program => e.1 == name) hfind)
  obtain h | h | h := hall entry (List.mem_of_find?_eq_some hfind)
  · exact absurd h hnull
  · exact absurd h htext
  · exact (Option.all_eq_true _ _).mp h program hentry

theorem bundled_assembled : ∀ name ∈ programNames, (bundled name).isSome = true := by
  decide +kernel

/-- The programs that a session without a command has are among them. -/
theorem bundled_default : ∀ name ∈ defaultPrograms,
    name ∈ programNames ∧ name ≠ "null_deref" ∧ name ≠ "text_write" := by
  decide +kernel

/-- The text of the program that reads the null page. -/
def nullText : List Instruction :=
  [⟨.movi, .rbx, .rax, 0⟩, ⟨.load, .rax, .rbx, 0⟩,
    ⟨.movi, .rax, .rax, 2⟩, ⟨.syscall, .rax, .rax, 0⟩, ⟨.jmp, .rax, .rax, -24⟩]

/-- The text of the program that writes to its own text. -/
def writingText : List Instruction :=
  [⟨.movi, .rbx, .rax, 0x100000⟩, ⟨.movi, .rcx, .rax, 0x41⟩, ⟨.storeByte, .rbx, .rcx, 0⟩,
    ⟨.movi, .rax, .rax, 2⟩, ⟨.syscall, .rax, .rax, 0⟩, ⟨.jmp, .rax, .rax, -24⟩]

theorem bundled_page {name : String} {text : List Instruction}
    (h : ((bundled name).any fun p => decide (p.IsPage userFirst text)) = true) :
    ∃ program, bundled name = some program ∧ program.IsPage userFirst text := by
  obtain ⟨program, hprogram, hpage⟩ := (Option.any_eq_true _ _).mp h
  exact ⟨program, hprogram, of_decide_eq_true hpage⟩

theorem bundled_null :
    ∃ program, bundled "null_deref" = some program ∧ program.IsPage userFirst nullText :=
  bundled_page (by decide +kernel)

theorem bundled_text :
    ∃ program, bundled "text_write" = some program ∧ program.IsPage userFirst writingText :=
  bundled_page (by decide +kernel)

/-- Unless the command is one of the two, what is loaded is vetted. -/
theorem programNames_vetted {command : Option String} (hnull : command ≠ some "null_deref")
    (htext : command ≠ some "text_write") : ∀ name ∈ Kernel.programNames bundled command,
    ∃ program, bundled name = some program ∧ program.vetted = true := by
  have hdefault : ∀ name ∈ defaultPrograms,
      ∃ program, bundled name = some program ∧ program.vetted = true := fun name hname => by
    obtain ⟨hmem, hne1, hne2⟩ := bundled_default name hname
    obtain ⟨program, hprogram⟩ := Option.isSome_iff_exists.mp (bundled_assembled name hmem)
    exact ⟨program, hprogram, bundled_vetted hprogram hne1 hne2⟩
  unfold Kernel.programNames
  cases command with
  | none => exact hdefault
  | some name =>
    dsimp only
    split
    · next hsome =>
      intro name' hname'
      obtain rfl := List.mem_singleton.mp hname'
      obtain ⟨program, hprogram⟩ := Option.isSome_iff_exists.mp hsome
      exact ⟨program, hprogram, bundled_vetted hprogram (fun heq => hnull (heq ▸ rfl))
        fun heq => htext (heq ▸ rfl)⟩
    · exact hdefault

/-! ### Sessions -/

section
variable {loader : Loader} {command : Option String} {k k' : Kernel} {ending : Ending} {n : Nat}

/-- The clock has passed the limit when it is at the next time. -/
theorem passed_eq_atTick (n : Nat) :
    (fun (s : Unit) k => (passed (some n) k, s)) = Kernel.atTick (n + 1) :=
  rfl

/-- The definition of `runSession`. It is unfolded before it is applied, as `boot` is. -/
theorem runSession_def : runSession = fun loader command limit =>
    match Kernel.boot loader command with
    | .error (cause, log) => (.error cause, log)
    | .ok kernel =>
      match Kernel.runSession limit kernel with
      | .ok stop kernel => (.ok stop, kernel.log)
      | .error cause kernel => (.error cause, kernel.log) := by
  delta runSession
  funext loader command limit
  generalize Kernel.boot loader command = r
  cases r <;> rfl

/-- A session ends as the main loop does. -/
theorem runSession_of_runUntil (hboot : Kernel.boot loader command = .ok k)
    (hrun : Kernel.runUntil (Kernel.atTick (n + 1)) () k = .ok (ending, ()) k') :
    ∃ log, runSession loader command (some n) = (.ok ending, log) := by
  have hends : Ends (Kernel.runSession (some n)) k (fun stop _ => stop = ending)
      fun _ => False := by
    unfold Kernel.runSession
    rw [passed_eq_atTick]
    exact .step hrun (.get (.step (Kernel.report_ok _) (.pure rfl)))
  obtain ⟨_, k'', hsession, rfl⟩ := hends.ok
  refine ⟨k''.log, (congrFun (congrFun (congrFun runSession_def loader) command) _).trans ?_⟩
  generalize Kernel.boot loader command = r at hboot ⊢
  subst hboot
  dsimp only
  rw [hsession]

/-- The main loop ends, for each command. -/
theorem bundled_ends (command : Option String) (hn : n < 2 ^ 64 - 1) :
    ∃ k k' ending, Kernel.boot bundled command = .ok k ∧
      Kernel.runUntil (Kernel.atTick (n + 1)) () k = .ok (ending, ()) k' ∧
      (ending = .idle ↔ 1 ≤ n ∧ (command = some "null_deref" ∨ command = some "text_write")) ∧
      (ending = .condition → k'.ticks = n + 1) := by
  have hpos : 1 ≤ n + 1 := Nat.le_add_left 1 n
  have hiff : 1 < n + 1 ↔ 1 ≤ n := Nat.succ_lt_succ_iff
  by_cases hnull : command = some "null_deref"
  · obtain ⟨program, hprogram, hpage⟩ := bundled_null
    subst hnull
    obtain ⟨k, k', ending, hboot, hrun, hidle, hticks⟩ := Kernel.runUntil_faults hprogram hpage
      (show 2 ≤ 1000 by decide)
      (fun hk ht hplaced => hplaced.faults_null rfl rfl (hk.mapped_null ht)) hpos
    exact ⟨k, k', ending, hboot, hrun, by rw [hidle, hiff, and_iff_left (.inl rfl)], hticks⟩
  by_cases htext : command = some "text_write"
  · obtain ⟨program, hprogram, hpage⟩ := bundled_text
    subst htext
    obtain ⟨k, k', ending, hboot, hrun, hidle, hticks⟩ := Kernel.runUntil_faults hprogram hpage
      (show 3 ≤ 1000 by decide)
      (fun _ _ hplaced => hplaced.faults_text (by decide) (by decide) rfl rfl rfl) hpos
    exact ⟨k, k', ending, hboot, hrun, by rw [hidle, hiff, and_iff_left (.inr rfl)], hticks⟩
  · obtain ⟨k, k', hboot, hrun, hticks⟩ :=
      Kernel.runUntil_vetted (programNames_vetted hnull htext) hpos (by omega)
    exact ⟨k, k', .condition, hboot, hrun,
      iff_of_false nofun fun h => h.2.elim hnull htext, fun _ => hticks⟩

end

/-- **A session with the bundled programs never halts.** All of them can be assembled. The session
boots for each command, whether it names one of them or not, and ends as the main loop does. If the
command is one of the two programs that fault, then nothing can run before the first timer
interrupt; else the time runs out, and then as many timer interrupts as it was limited to have ended
runs since the boot. -/
theorem bundled_sessions (command : Option String) {n : Nat} (hn : n < 2 ^ 64 - 2) :
    (∀ name ∈ programNames, ∃ program, bundled name = some program) ∧
    ∃ k k' ending log, Kernel.boot bundled command = .ok k ∧
      Kernel.runUntil (fun s k => (passed (some n) k, s)) () k = .ok (ending, ()) k' ∧
      runSession bundled command (some n) = (.ok ending, log) ∧
      (ending = .idle ↔ 1 ≤ n ∧ (command = some "null_deref" ∨ command = some "text_write")) ∧
      (ending = .condition → k'.ticks = n + 1 ∧ (∃ traps, Kernel.History bundled k' traps) ∧
        ∀ traps, Kernel.History bundled k' traps → traps.count .timer = n) := by
  refine ⟨fun name hname => Option.isSome_iff_exists.mp (bundled_assembled name hname), ?_⟩
  obtain ⟨k, k', ending, hboot, hrun, hidle, hticks⟩ := bundled_ends command (n := n) (by omega)
  obtain ⟨log, hsession⟩ := runSession_of_runUntil hboot hrun
  refine ⟨k, k', ending, log, hboot, hrun, hsession, hidle, fun hending => ?_⟩
  have htime := hticks hending
  refine ⟨htime, Kernel.Reachable.history (.call (.boot hboot) (.runUntil hrun)),
    fun traps hhistory => ?_⟩
  obtain ⟨hacked, hclock, -⟩ := hhistory.keepsTime
  omega

/-- A session with the program that reads the null page has nothing to run any more, and one with a
program that forks goes on until three timer interrupts have passed. -/
theorem bundled_sessions_null_fork :
    (∃ log, runSession bundled (some "null_deref") (some 1) = (.ok .idle, log)) ∧
    (∃ program, bundled "fork" = some program) ∧
    ∃ k k' log traps, Kernel.boot bundled (some "fork") = .ok k ∧
      Kernel.runUntil (fun s k => (passed (some 3) k, s)) () k = .ok (.condition, ()) k' ∧
      runSession bundled (some "fork") (some 3) = (.ok .condition, log) ∧
      Kernel.History bundled k' traps ∧ traps.count .timer = 3 := by
  constructor
  · obtain ⟨-, -, -, ending, log, -, -, hsession, hidle, -⟩ :=
      bundled_sessions (some "null_deref") (n := 1) (by decide)
    obtain rfl := hidle.mpr ⟨le_rfl, .inl rfl⟩
    exact ⟨log, hsession⟩
  · obtain ⟨hassembled, k, k', ending, log, hboot, hrun, hsession, hidle, htime⟩ :=
      bundled_sessions (some "fork") (n := 3) (by decide)
    refine ⟨hassembled "fork" (by decide), ?_⟩
    cases ending with
    | idle => exact absurd (hidle.mp rfl).2 (by decide)
    | condition =>
      obtain ⟨-, ⟨traps, hhistory⟩, hcount⟩ := htime rfl
      exact ⟨k, k', log, traps, hboot, hrun, hsession, hhistory, hcount traps hhistory⟩

end PagedKernel
