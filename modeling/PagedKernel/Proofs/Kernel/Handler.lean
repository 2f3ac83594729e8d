import PagedKernel.Kernel.Handler
import PagedKernel.Proofs.Kernel.Table
import PagedKernel.Proofs.Process.Maps
import PagedKernel.Proofs.Process.PageAlloc

/-!
# Handling a trap

A kernel is sound if its userland is, it knows which process ran last, and the viewer is not ahead
of the clock. Every handler keeps it sound, concerns the current process alone, and gives the turn
to a process that can run, if to any. What a handler may halt for is what a process asks for, an
exception that is not handled, a page fault of the kernel itself, or the end of the clock. A fork
apart, no handler changes another slot, not even a free one.

Key definitions: `Kernel.Sound`, `Kernel.Serves`, `Kernel.Minds`, `Kernel.Follows`,
`Kernel.Answers`.
Key theorems: `Kernel.exception_ends`, `Kernel.exception_timer_ends`, `Kernel.syscall_ends`,
`Kernel.syscall_fork_ends`.
-/

namespace PagedKernel

section
variable {α : Type} {k : Kernel} {x : UserlandM physicalPages α}

theorem Kernel.onUserland_ok {a : α} {s : Userland physicalPages} (h : x k.toUserland = .ok a s) :
    Kernel.onUserland x k = .ok a { k with toUserland := s } := by
  unfold Kernel.onUserland
  rw [h]

theorem Kernel.onUserland_error {e : Halt} {s : Userland physicalPages}
    (h : x k.toUserland = .error e s) :
    Kernel.onUserland x k = .error e { k with toUserland := s } := by
  unfold Kernel.onUserland
  rw [h]

theorem Ends.onUserland {E : Halt → Prop} {Q : α → Userland physicalPages → Prop}
    (h : Ends x k.toUserland Q E) :
    Ends (Kernel.onUserland x) k (fun a k' => ∃ s, k' = { k with toUserland := s } ∧ Q a s) E := by
  rcases h.ok_or_halt with ⟨a, s, hx, hQ⟩ | ⟨e, s, hx, he⟩
  · exact .of_ok (Kernel.onUserland_ok hx) ⟨s, rfl, hQ⟩
  · exact .of_error (Kernel.onUserland_error hx) he

end

namespace Kernel

variable {α : Type} {k k' k'' : Kernel} {E : Halt → Prop}

/-- The invariant of the kernel. -/
structure Sound (k : Kernel) : Prop where
  userland : ∃ g, k.toUserland.Sound k.table g
  current : k.current < procCount
  viewer : k.viewer.lastTicks ≤ k.ticks

/-- `k'` is sound, and what differs from `k` concerns the current process alone, which is still the
same. The kernel's own space is untouched. -/
structure Serves (k k' : Kernel) : Prop where
  sound : Sound k'
  current : k'.current = k.current
  table : k'.table = k.table
  space : Memory.SameSpace k.table.root.number k.frames.memory k'.frames.memory
  concerns : Userland.Concerns k.current k.toUserland k'.toUserland

/-- All other slots of `k'` are those of `k` as well, free or not. -/
structure Minds (k k' : Kernel) : Prop extends Serves k k' where
  slot : ∀ q, q ≠ k.current → k'.procs.slot q = k.procs.slot q

/-- `k'` has the clock and the address spaces of `k` as well. -/
structure Follows (k k' : Kernel) : Prop extends Minds k k' where
  ticks : k'.ticks = k.ticks
  table? : ∀ pid, k'.procs.table? pid = k.procs.table? pid

theorem Serves.trans (h : Serves k k') (h' : Serves k' k'') : Serves k k'' where
  sound := h'.sound
  current := h'.current.trans h.current
  table := h'.table.trans h.table
  space := h.space.trans (h.table ▸ h'.space)
  concerns := h.concerns.trans (h.current ▸ h'.concerns)

theorem Minds.trans (h : Minds k k') (h' : Minds k' k'') : Minds k k'' :=
  ⟨h.toServes.trans h'.toServes, fun q hq =>
    (h'.slot q (h.current.symm ▸ hq)).trans (h.slot q hq)⟩

theorem Follows.refl (h : Sound k) : Follows k k :=
  ⟨⟨⟨h, rfl, rfl, .refl _ _, .refl _ _⟩, fun _ _ => rfl⟩, rfl, fun _ => rfl⟩

theorem Follows.trans (h : Follows k k') (h' : Follows k' k'') : Follows k k'' :=
  ⟨h.toMinds.trans h'.toMinds, h'.ticks.trans h.ticks,
    fun pid => (h'.table? pid).trans (h.table? pid)⟩

theorem Minds.of_frames_eq (h : Sound k') (hcurrent : k'.current = k.current)
    (htable : k'.table = k.table) (hframes : k'.frames = k.frames)
    (hslot : ∀ q, q ≠ k.current → k'.procs.slot q = k.procs.slot q) : Minds k k' :=
  ⟨⟨h, hcurrent, htable, hframes ▸ .refl _ _, .of_frames_eq hframes hslot⟩, hslot⟩

/-! ### Parts of the handlers -/

theorem report_ok (notice : Notice) :
    report notice k = .ok () { k with log := k.log.push notice } := rfl

theorem Sound.reported (h : Sound k) (notice : Notice) :
    Sound { k with log := k.log.push notice } := by
  obtain ⟨g, hg⟩ := h.userland
  exact ⟨⟨g, hg.accounted, hg.spaces, hg.owns⟩, h.current, h.viewer⟩

theorem report_ends (h : Sound k) (notice : Notice) :
    Ends (report notice) k (fun _ k' => Follows k k') E :=
  .of_ok (report_ok notice) ⟨.of_frames_eq (h.reported notice) rfl rfl rfl fun _ _ => rfl, rfl,
    fun _ => rfl⟩

theorem modifyProc_ok (pid : Pid) (f : ProcessSlot → ProcessSlot) :
    modifyProc pid f k = .ok () { k with procs := k.procs.modify pid f } := rfl

/-- The slot of the current process changes, but not its address space. It is not made able to run
like this. -/
theorem modifyProc_ends (h : Sound k) {pid : Pid} (hcurrent : pid = k.current)
    {f : ProcessSlot → ProcessSlot} (htable : ∀ p, (f p).table = p.table)
    (hstate : ∀ p, (f p).state = p.state ∨ (f p).state = .broken) :
    Ends (modifyProc pid f) k (fun _ k' => Follows k k') E := by
  obtain ⟨g, hg⟩ := h.userland
  have hpid : pid < procCount := hcurrent ▸ h.current
  have hpart : (f (k.procs.slot pid)).table = k.procs.table? pid := by
    rw [htable, ProcessTable.table?_eq]
  have hsound := hg.reslot (p := f (k.procs.slot pid)) hpid hpart (fun hfree => ?_) fun hrun => ?_
  · refine .of_ok (modifyProc_ok pid f) ⟨.of_frames_eq ⟨⟨g, ?_⟩, h.current, h.viewer⟩ rfl rfl rfl
      fun q hq => ?_, rfl, fun q => ?_⟩
    · rw [← ProcessTable.modify_eq f hpid] at hsound
      exact hsound
    · dsimp only
      rw [ProcessTable.modify_eq f hpid, ProcessTable.slot_set hpid, if_neg (hcurrent ▸ hq)]
    · dsimp only
      rw [ProcessTable.modify_eq f hpid, ProcessTable.table?_set hpid, hpart]
      exact ite_eq_right_iff.mpr fun hq => by rw [hq]
  · rw [hpart]
    rcases hstate (k.procs.slot pid) with heq | heq
    · exact hg.owns.free (by rw [ProcessTable.state_eq, ← heq, hfree])
    · rw [heq] at hfree
      cases hfree
  · rw [hpart]
    rcases hstate (k.procs.slot pid) with heq | heq
    · exact hg.owns.runnable (by rw [ProcessTable.state_eq, ← heq, hrun])
    · rw [heq] at hrun
      cases hrun

theorem save_ok (regs : Registers) : save regs k = .ok () { k with
    procs := k.procs.modify k.current fun p => { p with regs } } := rfl

theorem setResult_ok (pid : Pid) (v : UInt64) : setResult pid v k = .ok () { k with
    procs := k.procs.modify pid fun p => { p with regs := { p.regs with rax := v } } } := rfl

theorem save_ends (h : Sound k) (regs : Registers) :
    Ends (save regs) k (fun _ k' => Follows k k') E := by
  refine .get ?_
  exact modifyProc_ends h rfl (fun _ => rfl) fun _ => .inl rfl

theorem setResult_ends (h : Sound k) {pid : Pid} (hcurrent : pid = k.current) (v : UInt64) :
    Ends (setResult pid v) k (fun _ k' => Follows k k') E :=
  modifyProc_ends h hcurrent (fun _ => rfl) fun _ => .inl rfl

theorem Sound.viewed (h : Sound k) {s : Userland physicalPages} {v : Viewer}
    (hframes : s.frames = k.frames) (hprocs : s.procs = k.procs) (hv : v.lastTicks ≤ k.ticks) :
    Sound { k with toUserland := s, viewer := v } := by
  obtain ⟨g, hg⟩ := h.userland
  refine ⟨⟨g, ?_, ?_, ?_⟩, h.current, hv⟩
  · exact hframes ▸ hg.accounted
  · exact hframes ▸ hg.spaces
  · exact hprocs ▸ hg.owns

theorem updateViewer_ends (h : Sound k) :
    Ends updateViewer k (fun _ k' => Follows k k' ∧ k'.frames = k.frames ∧ k'.procs = k.procs)
      E := by
  refine .get ?_
  obtain ⟨g, hg⟩ := h.userland
  refine .bind (.onUserland (Viewer.update_ends k.viewer hg h.viewer)) ?_
  intro v _ hpost
  obtain ⟨s, rfl, hv, hframes, hprocs⟩ := hpost
  refine .update ⟨⟨.of_frames_eq (h.viewed hframes hprocs hv) rfl rfl hframes fun q _ => ?_, rfl,
    fun pid => ?_⟩, hframes, hprocs⟩
  · exact congrArg (ProcessTable.slot · q) hprocs
  · exact congrArg (ProcessTable.table? · pid) hprocs

theorem viewException_ends (h : Sound k) (regs : Registers) :
    Ends (viewException regs) k (fun _ k' => Follows k k' ∧ k'.frames = k.frames ∧
      k'.procs = k.procs) E :=
  .ite (fun _ => .pure ⟨.refl h, rfl, rfl⟩) fun _ => updateViewer_ends h

/-- A process that has the turn can run. -/
def Ready (turn : Turn) (k : Kernel) : Prop :=
  ∀ pid, turn = .run pid → k.procs.state pid = .runnable

/-- What a run of a process leaves. -/
def Handled (turn : Turn) (k : Kernel) : Prop :=
  Sound k ∧ Ready turn k

theorem schedule_ends (h : Sound k) :
    Ends schedule k (fun turn k' => k' = k ∧ Ready turn k') E := by
  refine .get ?_
  obtain ⟨next, hnext, hrun⟩ := k.procs.nextRunnable_spec h.current
  refine .lift hnext ?_
  cases next with
  | none => exact .pure ⟨rfl, nofun⟩
  | some pid => exact .pure ⟨rfl, fun q hq => Turn.run.inj hq ▸ hrun pid rfl⟩

theorem schedule_succ {pid : Pid} (hcurrent : k.current = pid) (hlt : pid + 1 < procCount)
    (hrun : k.procs.state (pid + 1) = .runnable) : schedule k = .ok (.run (pid + 1)) k := by
  subst hcurrent
  have hnext : Ends schedule k (fun turn k' => turn = .run (k.current + 1) ∧ k' = k)
      fun _ => False := by
    refine .get ?_
    exact .lift (ProcessTable.nextRunnable_succ hlt hrun) (.pure ⟨rfl, rfl⟩)
  obtain ⟨_, _, hok, rfl, rfl⟩ := hnext.ok
  exact hok

/-- The scheduler leaves nobody out. -/
theorem schedule_idle (h : k.current < procCount) (hok : schedule k = .ok .idle k') (pid : Pid) :
    k.procs.state pid ≠ .runnable := by
  have hnext : Ends schedule k (fun turn _ => turn = .idle →
      k.procs.nextRunnable k.current = .ok none) fun _ => True := by
    refine .get ?_
    obtain ⟨next, hnext, -⟩ := k.procs.nextRunnable_spec h
    refine .lift hnext ?_
    cases next with
    | none => exact .pure fun _ => hnext
    | some pid => exact .pure nofun
  exact ProcessTable.nextRunnable_none (hnext.eq_ok hok rfl) pid

/-- A process that can run goes on. -/
theorem resume_runnable (h : k.procs.state k.current = .runnable) :
    resume k = .ok (.run k.current) k := by
  show (if k.procs.state k.current = .runnable then _ else schedule : KernelM Turn) k = _
  rw [if_pos h]
  rfl

theorem resume_other (h : k.procs.state k.current ≠ .runnable) : resume k = schedule k := by
  show (if k.procs.state k.current = .runnable then _ else schedule : KernelM Turn) k = _
  rw [if_neg h]

theorem resume_ends (h : Sound k) :
    Ends resume k (fun turn k' => k' = k ∧ Ready turn k') E := by
  refine .get ?_
  exact .ite (fun hrun => .pure ⟨rfl, fun q hq => Turn.run.inj hq ▸ hrun⟩) fun _ => schedule_ends h

/-- What is left of `k` once the system call `call` is answered, if there was one. A fork may change
another slot, and an exit frees that of the process. -/
structure Answers (call : Option SystemCall) (k k' : Kernel) : Prop extends Serves k k' where
  slot : call ≠ some .fork → ∀ q, q ≠ k.current → k'.procs.slot q = k.procs.slot q
  exit : call = some .exit → k'.procs.slot k.current = .unused

theorem Minds.answers {call : Option SystemCall} (h : Minds k k') (hne : call ≠ some .exit) :
    Answers call k k' :=
  ⟨h.toServes, fun _ => h.slot, fun heq => absurd heq hne⟩

theorem Answers.minds {call : Option SystemCall} (h : Answers call k k') (hne : call ≠ some .fork) :
    Minds k k' :=
  ⟨h.toServes, h.slot hne⟩

/-- What a handler leaves of `k`. -/
def Served (call : Option SystemCall) (k : Kernel) (turn : Turn) (k' : Kernel) : Prop :=
  Answers call k k' ∧ Ready turn k'

section
variable {call : Option SystemCall}

theorem Answers.schedule (h : Answers call k k') : Ends schedule k' (Served call k) E :=
  (schedule_ends h.sound).imp fun _ _ h' => ⟨h'.1 ▸ h, h'.2⟩

theorem Answers.resume (h : Answers call k k') : Ends resume k' (Served call k) E :=
  (resume_ends h.sound).imp fun _ _ h' => ⟨h'.1 ▸ h, h'.2⟩

theorem Minds.schedule (h : Minds k k') (hne : call ≠ some .exit) :
    Ends schedule k' (Served call k) E :=
  (h.answers hne).schedule

theorem Minds.resume (h : Minds k k') (hne : call ≠ some .exit) :
    Ends resume k' (Served call k) E :=
  (h.answers hne).resume

end

/-! ### Exceptions -/

theorem timerInterrupt_ends (h : Minds k k') (hE : 2 ^ 64 ≤ k'.ticks + 1 → E .overflow) :
    Ends timerInterrupt k' (Served none k) E := by
  refine .bind (P := fun _ k'' => Minds k k'') ?_ fun _ _ h' => h'.schedule nofun
  refine .get ?_
  refine .ite (fun _ => .update ⟨⟨⟨h.sound.userland, h.sound.current,
    Nat.le_succ_of_le h.sound.viewer⟩, h.current, h.table, h.space, h.concerns⟩, h.slot⟩)
    fun hlt => ?_
  exact .throw (hE (Nat.not_lt.mp hlt))

theorem pageFault_ends (h : Minds k k') (regs : Registers)
    (hE : regs.errorCode &&& faultUser = 0 → ∀ e, E e) :
    Ends (pageFault regs) k' (Served none k) E := by
  refine .get ?_
  refine .ite (fun hkernel => .throw_bind (hE (beq_iff_eq.mp hkernel) _)) fun _ => ?_
  refine .bind (report_ends h.sound _) fun _ k1 h1 => ?_
  refine .bind (modifyProc_ends h1.sound h1.current.symm (fun _ => rfl) fun _ => .inr rfl) ?_
  exact fun _ k2 h2 => (h.trans (h1.trans h2).toMinds).resume nofun

/-- **Handling an exception** keeps the kernel sound and concerns the current process alone. It
halts for all but two exceptions. -/
theorem exception_ends (h : Sound k) (regs : Registers)
    (hclock : regs.trap? = some .timer → 2 ^ 64 ≤ k.ticks + 1 → E .overflow)
    (hkernel : regs.trap? = some .pageFault → regs.errorCode &&& faultUser = 0 → ∀ e, E e)
    (hother : regs.trap? ≠ some .timer → regs.trap? ≠ some .pageFault →
      E (.unexpectedException regs.vector.toNat)) :
    Ends (exception regs) k (Served none k) E := by
  refine .bind (save_ends h regs) fun _ k1 h1 => ?_
  refine .bind (viewException_ends h1.sound regs) fun _ k2 h2 => ?_
  have h2 := h1.trans h2.1
  cases htrap : regs.trap? with
  | none => exact .throw (hother (by rw [htrap]; nofun) (by rw [htrap]; nofun))
  | some trap =>
    by_cases htimer : trap = .timer
    · subst htimer
      refine timerInterrupt_ends h2.toMinds fun hlt => ?_
      exact hclock htrap (h2.ticks ▸ hlt)
    · by_cases hfault : trap = .pageFault
      · subst hfault
        exact pageFault_ends h2.toMinds regs (hkernel htrap)
      · have hE := hother (by rw [htrap]; simpa using htimer) (by rw [htrap]; simpa using hfault)
        cases trap <;> first | exact .throw hE | contradiction

/-- **A timer interrupt** saves the registers of the process and moves the clock on, and the
scheduler chooses. No memory changes. -/
theorem exception_timer_ends (h : Sound k) {regs : Registers} (htrap : regs.trap? = some .timer)
    (hE : 2 ^ 64 ≤ k.ticks + 1 → E .overflow) :
    Ends (exception regs) k (fun turn k' => k'.frames = k.frames ∧
      k'.procs = k.procs.modify k.current (fun p => { p with regs }) ∧ k'.current = k.current ∧
      k'.ticks = k.ticks + 1 ∧ schedule k' = .ok turn k') E := by
  have h1 := (save_ends (E := E) h regs).eq_ok (save_ok regs)
  refine .step (save_ok regs) ?_
  refine .bind (viewException_ends h1.sound regs) ?_
  rintro _ k2 ⟨h2, hframes, hprocs⟩
  have h2 := h1.trans h2
  rw [htrap]
  refine .bind (P := fun _ k3 => Sound k3 ∧ k3.frames = k2.frames ∧ k3.procs = k2.procs ∧
    k3.current = k2.current ∧ k3.ticks = k2.ticks + 1) ?_ ?_
  · refine .get (.ite (fun _ => .update ?_) fun hlt => .throw (hE (h2.ticks ▸ Nat.not_lt.mp hlt)))
    have hviewer := h2.sound.viewer
    exact ⟨⟨h2.sound.userland, h2.sound.current, Nat.le_succ_of_le hviewer⟩, rfl, rfl, rfl, rfl⟩
  · rintro _ k3 ⟨h3, hframes3, hprocs3, hcurrent3, hticks3⟩
    refine (schedule_ends h3).and_eq.imp fun turn k4 h4 => ?_
    obtain ⟨⟨rfl, -⟩, hschedule⟩ := h4
    exact ⟨hframes3.trans hframes, hprocs3.trans hprocs, hcurrent3.trans h2.current,
      hticks3.trans (congrArg (· + 1) h2.ticks), hschedule⟩

/-! ### System calls -/

theorem callPageAlloc_ends (h : Sound k) (addr : UInt64)
    (hE : k.procs.table? k.current = none → E (.callWithoutSpace k.current)) :
    Ends (callPageAlloc k.current addr) k (fun _ k' => Minds k k') E := by
  refine .get ?_
  cases ht : k.procs.table? k.current with
  | none => exact .throw (hE ht)
  | some t =>
    obtain ⟨g, hg⟩ := h.userland
    have hr := hg.owns.isRoot ht
    refine .bind (.onUserland (.onFrames
      (pageAlloc_ends hg.accounted hg.spaces hr (hg.owns.ne ht)))) ?_
    intro _ _ hpost
    obtain ⟨_, rfl, f, rfl, -, g', hacc, hspaces, hkept, hroot⟩ := hpost
    have hfits := hg.accounted.fits
    refine .pure ⟨⟨⟨⟨g', hacc, hspaces, hg.owns.congr fun r => ?_⟩, h.current, h.viewer⟩, rfl, rfl,
      hkept.sameSpace hfits (Ne.symm (hg.owns.ne ht)) hg.spaces.kernelRoot,
      .of_kept_ne hg.owns hfits ht hkept rfl fun _ _ _ => rfl⟩, fun _ _ => rfl⟩
    by_cases hrt : r = t.root.number
    · exact hrt ▸ iff_of_true hroot hr
    · exact hkept.isRoot hrt

/-- The parent learns what became of the fork. -/
theorem callFork_ends (h : Sound k)
    (hE : k.procs.table? k.current = none → E (.forkWithoutSpace k.current)) :
    Ends (callFork k.current) k (fun v k' => Serves k k' ∧ ∃ res s,
      Userland.fork k.current k.toUserland = .ok res s ∧ v = resultWord (res.map UInt64.ofNat) ∧
      k'.frames = s.frames ∧ k'.procs = s.procs) E := by
  obtain ⟨g, hg⟩ := h.userland
  refine .bind (.onUserland (Userland.fork_ends hg h.current (by decide) hE).and_eq) ?_
  intro res _ hpost
  obtain ⟨s, rfl, ⟨hs, ⟨hconcerns, hspace, -⟩, -⟩, hok⟩ := hpost
  have h' : Serves k { k with toUserland := s } :=
    ⟨⟨hs, h.current, h.viewer⟩, rfl, rfl, hspace, hconcerns⟩
  cases res with
  | ok child => exact .pure ⟨h', _, s, hok, rfl, rfl, rfl⟩
  | error cause =>
    refine .step (report_ok _) (.pure ⟨h'.trans ?_, _, s, hok, rfl, rfl, rfl⟩)
    exact ((report_ends (E := E) h'.sound _).eq_ok (report_ok _)).toServes

/-- **Carrying out a system call** keeps the kernel sound and concerns the current process alone. A
call halts if it is unknown or asks for that, or if it is one of a process without an address space.
-/
theorem syscall_ends (h : Sound k) (regs : Registers)
    (hunknown : SystemCall.ofRegisters? regs = none → E (.unexpectedSyscall regs.rax))
    (hpanic : SystemCall.ofRegisters? regs = some .panic → E (.processPanicked k.current))
    (hspace : k.procs.table? k.current = none → ∀ e, E e) :
    Ends (syscall regs) k (Served (SystemCall.ofRegisters? regs) k) E := by
  refine .bind (save_ends h regs) fun _ k1 h1 => ?_
  refine .bind (updateViewer_ends h1.sound) fun _ k2 h2 => ?_
  have h2 := h1.trans h2.1
  refine .get ?_
  have hspace : k2.procs.table? k2.current = none → ∀ e, E e := fun hnone =>
    hspace (by rwa [← h2.current, ← h2.table?])
  cases hcall : SystemCall.ofRegisters? regs with
  | none => exact .throw (hunknown hcall)
  | some call =>
    cases call with
    | panic => exact .throw (h2.current ▸ hpanic hcall)
    | getpid =>
      refine .bind (setResult_ends h2.sound rfl _) fun _ _ h3 => ?_
      exact (h2.trans h3).toMinds.resume nofun
    | yield =>
      refine .bind (setResult_ends h2.sound rfl _) fun _ _ h3 => ?_
      exact (h2.trans h3).toMinds.schedule nofun
    | pageAlloc addr =>
      refine .bind (callPageAlloc_ends h2.sound addr fun hnone => hspace hnone _) fun _ _ h3 => ?_
      refine .bind (setResult_ends h3.sound h3.current.symm _) fun _ _ h4 => ?_
      exact (h2.toMinds.trans (h3.trans h4.toMinds)).resume nofun
    | fork =>
      refine .bind (callFork_ends h2.sound fun hnone => hspace hnone _) ?_
      rintro _ k3 ⟨h3, -⟩
      refine .bind (setResult_ends h3.sound h3.current.symm _) fun _ _ h4 => ?_
      have h5 := h2.toServes.trans (h3.trans h4.toServes)
      exact Answers.resume ⟨h5, fun hne => absurd rfl hne, nofun⟩
    | exit =>
      obtain ⟨g, hg⟩ := h2.sound.userland
      refine .bind (.onUserland (Userland.reclaim_ends hg h2.sound.current)) ?_
      intro _ _ hpost
      obtain ⟨s, rfl, hs, hprocs, -, hconcerns, hspace⟩ := hpost
      have hslot : ∀ q, s.procs.slot q =
          if q = k2.current then .unused else k2.procs.slot q := fun q => by
        rw [hprocs, ProcessTable.slot_set h2.sound.current]
      have h3 : Minds k2 { k2 with toUserland := s } :=
        ⟨⟨⟨hs, h2.sound.current, h2.sound.viewer⟩, rfl, rfl, hspace, hconcerns⟩,
          fun q hq => (hslot q).trans (if_neg hq)⟩
      refine .step (report_ok _) ?_
      have h4 := (report_ends (E := E) h3.sound (.exited k2.current)).eq_ok (report_ok _)
      have h5 := h2.toMinds.trans (h3.trans h4.toMinds)
      refine Answers.schedule ⟨h5.toServes, fun _ => h5.slot, fun _ => ?_⟩
      exact (hslot k.current).trans (if_pos h2.current.symm)

/-- **A process calls fork.** It is duplicated with the registers saved, and the result is put into
those. -/
theorem syscall_fork_ends (h : Sound k) {regs : Registers}
    (hcall : SystemCall.ofRegisters? regs = some .fork)
    (hspace : k.procs.table? k.current ≠ none) :
    Ends (syscall regs) k (fun _ k' => Serves k k' ∧ ∃ g s0 res s, s0.Sound k.table g ∧
      s0.frames = k.frames ∧ s0.procs = k.procs.modify k.current (fun p => { p with regs }) ∧
      Userland.fork k.current s0 = .ok res s ∧ k'.frames = s.frames ∧
      k'.procs = s.procs.modify k.current fun p =>
        { p with regs := { p.regs with rax := resultWord (res.map UInt64.ofNat) } }) E := by
  have h1 := (save_ends (E := E) h regs).eq_ok (save_ok regs)
  refine .step (save_ok regs) ?_
  refine .bind (updateViewer_ends h1.sound) ?_
  rintro _ k2 ⟨h2, hframes2, hprocs2⟩
  have h2 := h1.trans h2
  refine .get ?_
  rw [hcall]
  obtain ⟨g, hg⟩ := h2.sound.userland
  refine .bind (callFork_ends h2.sound fun hnone => ?_) ?_
  · rw [h2.table?, h2.current] at hnone
    exact absurd hnone hspace
  rintro _ k3 ⟨h3, res, s, hok, rfl, hframes3, hprocs3⟩
  have hset := setResult_ok (k := k3) k2.current (resultWord (res.map UInt64.ofNat))
  have h4 := (setResult_ends (E := E) h3.sound h3.current.symm _).eq_ok hset
  refine .step hset ((resume_ends h4.sound).imp fun _ k5 h5 => ?_)
  obtain ⟨rfl, -⟩ := h5
  refine ⟨h2.toServes.trans (h3.trans h4.toServes), g, k2.toUserland, res, s, h2.table ▸ hg,
    hframes2, hprocs2, h2.current ▸ hok, hframes3, ?_⟩
  dsimp only
  rw [hprocs3, h2.current]

end Kernel
end PagedKernel
