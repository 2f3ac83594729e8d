import PagedKernel.Proofs.Kernel.NullPage

/-!
# What becomes of the turn

A trap ends in one of two ways. After a timer interrupt, a page fault, a yield or an exit the
scheduler is asked (`AsksScheduler`); after any other call the process goes on, with the answer in
its registers. A call for the process identifier or for a yield changes nothing else, and a call
for a page changes the frames besides.

Key definitions: `Kernel.AsksScheduler`, `Kernel.Answered`.
Key theorems: `Kernel.syscall_pageAlloc_ends`, `Kernel.run_chooses`.
-/

namespace PagedKernel
namespace Kernel

variable {k k' : Kernel} {E : Halt → Prop} {pid : Pid} {turn : Turn} {regs : Registers}
  {call : SystemCall}

/-- The scheduler changes nothing. Whom it chooses is next in the process table. -/
theorem schedule_eq_ok (hok : schedule k = .ok turn k') : k' = k ∧
    ∀ pid, turn = .run pid → k.procs.nextRunnable k.current = .ok (some pid) := by
  obtain ⟨_, _, hget, hok⟩ := HaltM.bind_eq_ok hok
  cases hget
  obtain ⟨next, k1, hnext, hok⟩ := HaltM.bind_eq_ok hok
  cases hnow : k.procs.nextRunnable k.current with
  | error e =>
    rw [hnow] at hnext
    cases hnext
  | ok found =>
    rw [hnow] at hnext
    cases hnext
    cases next with
    | none =>
      cases hok
      exact ⟨rfl, nofun⟩
    | some pid =>
      cases hok
      exact ⟨rfl, fun q hq => by cases hq; rfl⟩

theorem schedule_same (hok : schedule k = .ok turn k') : k' = k :=
  (schedule_eq_ok hok).1

theorem resume_same (hok : resume k = .ok turn k') : k' = k := by
  by_cases hrun : k.procs.state k.current = .runnable
  · rw [resume_runnable hrun] at hok
    cases hok
    rfl
  · rw [resume_other hrun] at hok
    exact schedule_same hok

theorem exception_acks (hok : exception regs k = .ok turn k')
    (htrap : regs.trap? = some .timer) : k'.timer = k.timer.ack := by
  obtain ⟨_, k1, h1, hok⟩ := HaltM.bind_eq_ok hok
  obtain ⟨_, k2, h2, hok⟩ := HaltM.bind_eq_ok hok
  rw [htrap] at hok
  obtain ⟨_, k3, h3, hok⟩ := HaltM.bind_eq_ok hok
  obtain rfl := schedule_same hok
  have htimer : k2.timer = k.timer :=
    (viewException_keepsClock regs _ _ _ h2).2.trans (save_keepsClock regs _ _ _ h1).2
  obtain ⟨_, _, hget, h3⟩ := HaltM.bind_eq_ok h3
  cases hget
  split at h3
  · cases h3
    exact congrArg Timer.ack htimer
  · cases h3

/-! ### Who is asked -/

/-- A call that does not halt the kernel is known, and does not ask for that. After a yield or an
exit the scheduler chooses, and after any other call the process goes on if it can. -/
theorem syscall_turn (hok : syscall regs k = .ok turn k') :
    ∃ call, SystemCall.ofRegisters? regs = some call ∧ call ≠ .panic ∧
      if call = .yield ∨ call = .exit then schedule k' = .ok turn k'
      else resume k' = .ok turn k' := by
  obtain ⟨_, _, -, hok⟩ := HaltM.bind_eq_ok hok
  obtain ⟨_, _, -, hok⟩ := HaltM.bind_eq_ok hok
  obtain ⟨_, _, -, hok⟩ := HaltM.bind_eq_ok hok
  cases hcall : SystemCall.ofRegisters? regs with
  | none =>
    rw [hcall] at hok
    cases hok
  | some call =>
    rw [hcall] at hok
    refine ⟨call, rfl, ?_, ?_⟩
    · rintro rfl
      cases hok
    cases call with
    | panic => cases hok
    | yield =>
      obtain ⟨_, _, -, hok⟩ := HaltM.bind_eq_ok hok
      rw [if_pos (.inl rfl)]
      exact schedule_same hok ▸ hok
    | exit =>
      obtain ⟨_, _, -, hok⟩ := HaltM.bind_eq_ok hok
      obtain ⟨_, _, -, hok⟩ := HaltM.bind_eq_ok hok
      rw [if_pos (.inr rfl)]
      exact schedule_same hok ▸ hok
    | getpid =>
      obtain ⟨_, _, -, hok⟩ := HaltM.bind_eq_ok hok
      rw [if_neg (by decide)]
      exact resume_same hok ▸ hok
    | pageAlloc addr =>
      obtain ⟨_, _, -, hok⟩ := HaltM.bind_eq_ok hok
      obtain ⟨_, _, -, hok⟩ := HaltM.bind_eq_ok hok
      rw [if_neg (by rintro (h | h) <;> cases h)]
      exact resume_same hok ▸ hok
    | fork =>
      obtain ⟨_, _, -, hok⟩ := HaltM.bind_eq_ok hok
      obtain ⟨_, _, -, hok⟩ := HaltM.bind_eq_ok hok
      rw [if_neg (by decide)]
      exact resume_same hok ▸ hok

/-- An exception that does not halt the kernel is one of two. -/
theorem exception_handled (hok : exception regs k = .ok turn k') :
    regs.trap? = some .timer ∨ regs.trap? = some .pageFault := by
  obtain ⟨_, _, -, hok⟩ := HaltM.bind_eq_ok hok
  obtain ⟨_, _, -, hok⟩ := HaltM.bind_eq_ok hok
  cases htrap : regs.trap? with
  | none =>
    rw [htrap] at hok
    cases hok
  | some trap =>
    rw [htrap] at hok
    cases trap with
    | timer => exact .inl rfl
    | pageFault => exact .inr rfl
    | _ => cases hok

/-! ### Answers -/

/-- The current process has made a call with the registers `regs` and is answered `v`. No other slot
has changed. -/
def Answered (regs : Registers) (v : UInt64) (k k' : Kernel) : Prop :=
  k'.procs = k.procs.modify k.current fun p => { p with regs := { regs with rax := v } }

namespace Answered

variable {v : UInt64}

theorem of_modify (h : k.current < procCount)
    (hprocs : k'.procs = (k.procs.modify k.current fun p => { p with regs }).modify k.current
      fun p => { p with regs := { p.regs with rax := v } }) : Answered regs v k k' := by
  unfold Answered
  rw [hprocs, ProcessTable.modify_eq _ h, ProcessTable.modify_eq _ h, ProcessTable.modify_eq _ h,
    ProcessTable.slot_set h, if_pos rfl]
  unfold ProcessTable.set
  rw [Vector.setIfInBounds_setIfInBounds]

theorem slot_self (h : Answered regs v k k') (hlt : k.current < procCount) :
    k'.procs.slot k.current =
      { k.procs.slot k.current with regs := { regs with rax := v } } := by
  rw [h, ProcessTable.modify_eq _ hlt, ProcessTable.slot_set hlt, if_pos rfl]

theorem state_self (h : Answered regs v k k') (hlt : k.current < procCount) :
    k'.procs.state k.current = k.procs.state k.current := by
  rw [ProcessTable.state_eq, h.slot_self hlt, ProcessTable.state_eq]

end Answered

/-- A call for the identifier or for a yield changes nothing but for the answer. -/
theorem syscall_answers {v : UInt64} (h : Sound k) (hcall : SystemCall.ofRegisters? regs = some call)
    (hv : call = .getpid ∧ v = UInt64.ofNat k.current ∨ call = .yield ∧ v = 0) :
    Ends (syscall regs) k (fun _ k' => Answered regs v k k' ∧ k'.frames = k.frames) E := by
  have h1 := (save_ends (E := E) h regs).eq_ok (save_ok regs)
  refine .step (save_ok regs) (.bind (updateViewer_ends h1.sound) ?_)
  rintro _ k2 ⟨h2, hframes2, hprocs2⟩
  have hcurrent : k2.current = k.current := h2.current
  have h3 := (setResult_ends (E := E) h2.sound rfl v).eq_ok (setResult_ok k2.current v)
  have hanswered : Answered regs v k
      { k2 with procs := k2.procs.modify k2.current fun p =>
        { p with regs := { p.regs with rax := v } } } :=
    .of_modify h.current (by rw [hprocs2, hcurrent])
  refine .get ?_
  rw [hcall]
  obtain ⟨rfl, rfl⟩ | ⟨rfl, rfl⟩ := hv
  · rw [← hcurrent] at h3 hanswered ⊢
    refine .step (setResult_ok ..) ((resume_ends h3.sound).imp fun _ _ h4 => ?_)
    obtain ⟨rfl, -⟩ := h4
    exact ⟨hanswered, hframes2⟩
  · refine .step (setResult_ok ..) ((schedule_ends h3.sound).imp fun _ _ h4 => ?_)
    obtain ⟨rfl, -⟩ := h4
    exact ⟨hanswered, hframes2⟩

/-- **A process asks for a page.** What becomes of the frames is what the allocation does. -/
theorem syscall_pageAlloc_ends {t : PageTable} {addr : UInt64}
    {Q : Except PageAllocError Unit → Frames physicalPages → Prop} (h : Sound k)
    (ht : k.procs.table? k.current = some t)
    (hcall : SystemCall.ofRegisters? regs = some (.pageAlloc addr))
    (hpage : Ends (pageAlloc t addr) k.frames Q E) :
    Ends (syscall regs) k (fun _ k' => ∃ res, Q res k'.frames ∧
      Answered regs (resultWord (res.map fun _ => 0)) k k') E := by
  have h1 := (save_ends (E := E) h regs).eq_ok (save_ok regs)
  refine .step (save_ok regs) (.bind (updateViewer_ends h1.sound) ?_)
  rintro _ k2 ⟨h2, hframes2, hprocs2⟩
  have hcurrent : k2.current = k.current := h2.current
  have ht2 : k2.procs.table? k2.current = some t := by
    rw [h2.table?, h1.table?, hcurrent]
    exact ht
  refine .get ?_
  rw [hcall]
  have hanswer : Ends (callPageAlloc k2.current addr) k2 (fun v k3 => ∃ res, Q res k3.frames ∧
      v = resultWord (res.map fun _ => 0) ∧ k3.procs = k2.procs) E := by
    refine .get ?_
    rw [ht2]
    refine .bind (.onUserland (.onFrames (hframes2.symm ▸ hpage))) ?_
    rintro res _ ⟨_, rfl, f, rfl, hf⟩
    exact .pure ⟨res, hf, rfl, rfl⟩
  refine .bind hanswer.and_eq ?_
  rintro v k3 ⟨⟨res, hres, rfl, hprocs3⟩, hok⟩
  have h3 := (callPageAlloc_ends (E := fun _ => True) h2.sound addr fun _ => trivial).eq_ok hok
  have hset := setResult_ok (k := k3) k2.current (resultWord (res.map fun _ => 0))
  have h4 := (setResult_ends (E := E) h3.sound h3.current.symm _).eq_ok hset
  refine .step hset ((resume_ends h4.sound).imp fun _ _ h5 => ?_)
  obtain ⟨rfl, -⟩ := h5
  refine ⟨res, hres, .of_modify h.current ?_⟩
  dsimp only
  rw [hprocs3, hprocs2, hcurrent]

/-! ### A run -/

/-- After these traps the kernel asks the scheduler: a timer interrupt, a page fault, which breaks
the process, a yield and an exit. -/
def AsksScheduler (trap : Trap) (regs : Registers) : Prop :=
  trap = .timer ∨ trap = .pageFault ∨ callOf trap regs = some .yield ∨
    callOf trap regs = some .exit

instance (trap : Trap) (regs : Registers) : Decidable (AsksScheduler trap regs) :=
  inferInstanceAs (Decidable (_ ∨ _ ∨ _ ∨ _))

theorem fork_slot_parent {kernel : PageTable} {g : Shape} {s s' : Userland physicalPages}
    {res : Except ForkError Pid} (h : s.Sound kernel g) (hlt : pid < procCount)
    (hlive : s.procs.state pid ≠ .free) (hok : Userland.fork pid s = .ok res s') :
    s'.procs.slot pid = s.procs.slot pid := by
  have hends := (Userland.fork_ends (E := fun _ => True) h hlt (by decide) fun _ =>
    trivial).eq_ok hok
  cases res with
  | error cause => rw [hends.2.2.1]
  | ok child =>
    have hforked : Userland.Forked pid child s s' := hends.2.2
    refine hforked.other pid fun heq => hlive ?_
    rw [heq]
    exact (ProcessTable.firstFree_spec hforked.first).2.2

/-- A call that goes back to the process leaves it able to run. -/
theorem syscall_keepsState (h : Sound k) (hcall : SystemCall.ofRegisters? regs = some call)
    (hpanic : call ≠ .panic) (hother : ¬ (call = .yield ∨ call = .exit))
    (hrun : k.procs.state k.current = .runnable) (hok : syscall regs k = .ok turn k') :
    k'.procs.state k.current = .runnable := by
  obtain ⟨g, hg⟩ := h.userland
  obtain ⟨t, ht⟩ := Option.ne_none_iff_exists'.mp (hg.owns.runnable hrun)
  have hlt := h.current
  cases call with
  | panic => exact absurd rfl hpanic
  | yield => exact absurd (.inl rfl) hother
  | exit => exact absurd (.inr rfl) hother
  | getpid =>
    obtain ⟨hanswered, -⟩ :=
      (syscall_answers (E := fun _ => True) h hcall (.inl ⟨rfl, rfl⟩)).eq_ok hok
    exact (hanswered.state_self hlt).trans hrun
  | pageAlloc addr =>
    obtain ⟨res, -, hanswered⟩ :=
      (syscall_pageAlloc_ends (E := fun _ => True) h ht hcall .of_any).eq_ok hok
    exact (hanswered.state_self hlt).trans hrun
  | fork =>
    obtain ⟨-, g, s0, res, s, hs0, -, hprocs0, hfork, -, hprocs⟩ :=
      (syscall_fork_ends (E := fun _ => True) h hcall (hg.owns.runnable hrun)).eq_ok hok
    have hstate0 : s0.procs.state k.current = .runnable := by
      rw [hprocs0, ProcessTable.modify_eq _ hlt, ProcessTable.state_set hlt, if_pos rfl,
        ← ProcessTable.state_eq, hrun]
    have hslot := fork_slot_parent hs0 hlt (by rw [hstate0]; nofun) hfork
    rw [hprocs, ProcessTable.modify_eq _ hlt, ProcessTable.state_set hlt, if_pos rfl, hslot,
      ← ProcessTable.state_eq, hstate0]

/-- **After a run** the scheduler chooses, or the process goes on. -/
theorem run_chooses (h : Sound k) (hok : run pid k = .ok turn k') :
    ∃ trap regs kt, runToTrap pid k = .ok (trap, regs) kt ∧ k'.current = pid ∧
      if AsksScheduler trap regs then schedule k' = .ok turn k'
      else k'.procs.state pid = .runnable ∧ turn = .run pid := by
  obtain ⟨t, trap, regs, kt, htrap, htraps, hhandle, hanswers⟩ := run_answers h hok
  have hkt := htraps.follows.sound
  have hcurrent : kt.current = pid := htraps.follows.current
  have hcurrent' : k'.current = pid := hanswers.current.trans hcurrent
  refine ⟨trap, regs, kt, htrap, hcurrent', ?_⟩
  unfold handle at hhandle
  by_cases hsys : trap = .syscall
  · subst hsys
    rw [if_pos rfl] at hhandle
    obtain ⟨call, hcall, hpanic, hturn⟩ := syscall_turn hhandle
    have hasks : AsksScheduler .syscall regs ↔ call = .yield ∨ call = .exit := by
      simp only [AsksScheduler, callOf, if_pos, hcall, reduceCtorEq, false_or, Option.some.injEq]
    simp only [hasks]
    split
    · next h' => rwa [if_pos h'] at hturn
    · next hother =>
      rw [if_neg hother] at hturn
      have hrun : kt.procs.state kt.current = .runnable := by
        rw [hcurrent, htraps.procs]
        exact htraps.state
      have hrun' := syscall_keepsState hkt hcall hpanic hother hrun hhandle
      rw [hcurrent] at hrun'
      rw [resume_runnable (by rwa [hcurrent']), hcurrent'] at hturn
      cases hturn
      exact ⟨hrun', rfl⟩
  · rw [if_neg hsys] at hhandle
    have htrap? : regs.trap? = some trap := htraps.trap?
    rcases exception_handled hhandle with htimer | hfault
    · obtain rfl : trap = .timer := Option.some.inj (htrap?.symm.trans htimer)
      rw [if_pos (.inl rfl)]
      exact ((exception_timer_ends (E := fun _ => True) hkt htimer fun _ =>
        trivial).eq_ok hhandle).2.2.2.2
    · obtain rfl : trap = .pageFault := Option.some.inj (htrap?.symm.trans hfault)
      rw [if_pos (.inr (.inl rfl))]
      exact ((exception_pageFault hkt hfault (htraps.byUser rfl)).eq_ok hhandle).2.2

/-- If a process can run, the scheduler chooses one. -/
theorem schedule_run (hlt : k.current < procCount) (hok : schedule k = .ok turn k') {p : Pid}
    (hrun : k.procs.state p = .runnable) : ∃ q, turn = .run q := by
  cases turn with
  | run q => exact ⟨q, rfl⟩
  | idle => exact absurd hrun (schedule_idle hlt hok p)

theorem run_next (h : Sound k) (hok : run pid k = .ok turn k') {p : Pid}
    (hrun : k'.procs.state p = .runnable) : ∃ q, turn = .run q := by
  obtain ⟨trap, regs, kt, -, -, hturn⟩ := run_chooses h hok
  split at hturn
  · exact schedule_run (run_sound h hok).1.current hturn hrun
  · exact ⟨pid, hturn.2⟩

end Kernel
end PagedKernel
