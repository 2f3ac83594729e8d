import PagedKernel.Proofs.Kernel.Boot
import PagedKernel.Proofs.Kernel.Run
import PagedKernel.Proofs.Process.UserlandTwins
import PagedKernel.Proofs.Spaces.Lockstep

/-!
# Kernels that differ in free pages

Twin kernels differ in nothing but what free pages hold. Every trap is handled alike on them, since
the handlers read the slots of processes, and change page tables. A program runs alike, since it
accesses pages that its space maps, and these are in use. So the main loop makes the same turns on
twins, as long as the condition it stops at does not look into free pages itself.

Key definitions: `Kernel.Twin`, `Kernel.Blind`.
Key theorems: `Core.run_alike`, `Kernel.exception_coincide`, `Kernel.syscall_coincide`,
`Kernel.run_coincide`, `Kernel.runUntil_coincide`.
-/

namespace PagedKernel

/-! ### Programs -/

namespace Core

variable {n : Nat} [Addressable n] {g g' : Shape} {f f' : Frames n} {r : Nat} {S : Nat → Prop}

theorem runFor_alike (hm : f'.memory.mapped r = f.memory.mapped r)
    (hS : ∀ q, f.memory.MapsPage r q → S q) {quantum left : Nat} :
    ∀ {count : Nat} {c c' d : Core n} {trap : Trap}, RunsIn g f r c → RunsIn g' f' r c' →
    Alike S c c' → c'.cr2 = c.cr2 → runFor quantum count c = .ok (trap, left, d) →
    ∃ d', runFor quantum count c' = .ok (trap, left, d') ∧ Alike S d d' ∧ d'.cr2 = d.cr2
  | 0, c, c', _, _, _, _, ha, hcr2, hok => by
    cases hok
    exact ⟨c', rfl, ha, hcr2⟩
  | count + 1, c, c', d, trap, h, h', ha, hcr2, hok => by
    obtain ⟨res, c1, c1', hstep, hstep', h1, h1', ha1, hcr2'⟩ :=
      h.step_alike h' hm ha fun pa hpa => hS _ (h.accesses_mapped pa hpa)
    have hcr2 : c1'.cr2 = c1.cr2 := hcr2' (.inl hcr2)
    rw [runFor, hstep] at hok
    rw [runFor, hstep']
    cases res with
    | none => exact runFor_alike hm hS h1 h1' ha1 hcr2 hok
    | some trap' =>
      cases hok
      exact ⟨c1', rfl, ha1, hcr2⟩

/-- Cores that are alike in the pages that their spaces map run up to the same trap, with the same
registers. -/
theorem run_alike (hm : f'.memory.mapped r = f.memory.mapped r)
    (hS : ∀ q, f.memory.MapsPage r q → S q) {c c' d : Core n} {timer timer' : Timer} {trap : Trap}
    (h : RunsIn g f r c) (h' : RunsIn g' f' r c') (ha : Alike S c c') (hcr2 : c'.cr2 = c.cr2)
    (hok : c.run timer = .ok (trap, d, timer')) :
    ∃ d', c'.run timer = .ok (trap, d', timer') ∧ d'.regs = d.regs ∧ d'.cr2 = d.cr2 ∧
      ∀ a, S (a / pageSize) → d'.memory.byte a = d.memory.byte a := by
  unfold run at hok ⊢
  obtain ⟨trap1, left, c1, hrun, -⟩ := h.runFor timer.quantum timer.count
  obtain ⟨c1', hrun', ha1, hcr2⟩ := runFor_alike hm hS h h' ha hcr2 hrun
  obtain ⟨v, hregs⟩ := ha1.regs
  rw [hrun] at hok
  rw [hrun']
  cases hok
  exact ⟨_, rfl, by rw [hregs]; rfl, hcr2, ha1.byte⟩

end Core

namespace Kernel

variable {k k' : Kernel} {pid : Pid}

/-- `k'` differs from `k` in nothing but what free pages hold. -/
def Twin (k k' : Kernel) : Prop :=
  ∃ s, k.toUserland.Twin s ∧ k' = { k with toUserland := s }

theorem Twin.of_frames {f : Frames physicalPages} (h : k.frames.Twin f) :
    k.Twin { k with frames := f } :=
  ⟨_, ⟨f, h, rfl⟩, rfl⟩

theorem Twin.current (h : k.Twin k') : k'.current = k.current := by
  obtain ⟨s, -, rfl⟩ := h
  rfl

theorem Twin.procs (h : k.Twin k') : k'.procs = k.procs := by
  obtain ⟨_, ⟨f, -, rfl⟩, rfl⟩ := h
  rfl

end Kernel

theorem Coincide.onUserland {α : Type} {k : Kernel} {s : Userland physicalPages}
    {x : UserlandM physicalPages α} (h : Coincide Userland.Twin x k.toUserland s) :
    Coincide Kernel.Twin (Kernel.onUserland x) k { k with toUserland := s } := by
  cases h with
  | ok hs ht hR => exact .ok (Kernel.onUserland_ok hs) (Kernel.onUserland_ok ht) ⟨_, hR, rfl⟩
  | halt hs ht hR =>
    exact .halt (Kernel.onUserland_error hs) (Kernel.onUserland_error ht) ⟨_, hR, rfl⟩

namespace Kernel

variable {k k' : Kernel} {pid : Pid}

/-! ### Parts of the handlers -/

theorem report_coincide (ht : k.Twin k') (notice : Notice) :
    Coincide Twin (report notice) k k' := by
  obtain ⟨s, ht, rfl⟩ := ht
  exact .onUserland (Userland.report_coincide ht notice)

theorem modifyProc_coincide (ht : k.Twin k') (pid : Pid) (f : ProcessSlot → ProcessSlot) :
    Coincide Twin (modifyProc pid f) k k' := by
  obtain ⟨_, ⟨f, ht, rfl⟩, rfl⟩ := ht
  exact .onUserland (.update ⟨f, ht, rfl⟩)

theorem save_coincide (ht : k.Twin k') (regs : Registers) : Coincide Twin (save regs) k k' :=
  .get (by rw [ht.current]) (modifyProc_coincide ht _ _)

theorem setResult_coincide (ht : k.Twin k') (pid : Pid) (v : UInt64) :
    Coincide Twin (setResult pid v) k k' :=
  modifyProc_coincide ht pid _

theorem schedule_coincide (ht : k.Twin k') : Coincide Twin schedule k k' := by
  unfold schedule
  refine .get (by rw [ht.procs, ht.current]) (.lift_bind ht fun next _ => ?_)
  cases next with
  | none => exact .pure ht
  | some pid => exact .pure ht

theorem resume_coincide (ht : k.Twin k') : Coincide Twin resume k k' := by
  unfold resume
  refine .get (by rw [ht.procs, ht.current]) ?_
  exact .ite (fun _ => .pure ht) fun _ => schedule_coincide ht

theorem updateViewer_coincide (h : Sound k) (ht : k.Twin k') :
    Coincide Twin updateViewer k k' := by
  obtain ⟨g, hg⟩ := h.userland
  obtain ⟨s, ht, rfl⟩ := ht
  refine .get rfl ?_
  refine .bind (.onUserland (Viewer.update_coincide k.viewer k.ticks hg ht)) ?_
  rintro v k1 _ ⟨s1, ht1, rfl⟩
  exact .update ⟨s1, ht1, rfl⟩

theorem viewException_coincide (h : Sound k) (ht : k.Twin k') (regs : Registers) :
    Coincide Twin (viewException regs) k k' :=
  .ite (fun _ => .pure ht) fun _ => updateViewer_coincide h ht

/-! ### Exceptions -/

theorem timerInterrupt_coincide (ht : k.Twin k') : Coincide Twin timerInterrupt k k' := by
  refine .bind ?_ fun _ _ _ ht1 => schedule_coincide ht1
  obtain ⟨s, ht, rfl⟩ := ht
  unfold tick
  refine .get rfl ?_
  exact .ite (fun _ => .update ⟨s, ht, rfl⟩) fun _ => .throw ⟨s, ht, rfl⟩

theorem pageFault_coincide (ht : k.Twin k') (regs : Registers) :
    Coincide Twin (pageFault regs) k k' := by
  obtain ⟨s, hs, rfl⟩ := ht
  unfold pageFault
  refine .get rfl ?_
  refine .ite (fun _ => .throw_bind ⟨s, hs, rfl⟩) fun _ => ?_
  refine .bind (report_coincide ⟨s, hs, rfl⟩ _) fun _ k1 k1' ht1 => ?_
  exact .bind (modifyProc_coincide ht1 _ _) fun _ _ _ ht2 => resume_coincide ht2

/-- **An exception is handled alike.** -/
theorem exception_coincide (h : Sound k) (ht : k.Twin k') (regs : Registers) :
    Coincide Twin (exception regs) k k' := by
  unfold exception
  refine .bind_ends (save_coincide ht regs) (save_ends h regs) fun _ k1 k1' h1 ht1 => ?_
  refine .bind (viewException_coincide h1.sound ht1 regs) fun _ k2 k2' ht2 => ?_
  cases regs.trap? with
  | none => exact .throw ht2
  | some trap =>
    cases trap with
    | timer => exact timerInterrupt_coincide ht2
    | pageFault => exact pageFault_coincide ht2 regs
    | _ => exact .throw ht2

/-! ### System calls -/

theorem callPageAlloc_coincide (h : Sound k) (ht : k.Twin k') (pid : Pid) (addr : UInt64) :
    Coincide Twin (callPageAlloc pid addr) k k' := by
  unfold callPageAlloc
  refine .get (by rw [ht.procs]) ?_
  cases htable : k.procs.table? pid with
  | none => exact .throw ht
  | some t =>
    obtain ⟨g, hg⟩ := h.userland
    obtain ⟨_, ⟨f, hf, rfl⟩, rfl⟩ := ht
    have halloc := pageAlloc_coincide addr hg.accounted (hg.owns.isRoot htable) hf
    exact .bind (.onUserland (.onFrames halloc)) fun _ _ _ ht1 => .pure ht1

theorem callFork_coincide (h : Sound k) (ht : k.Twin k') (pid : Pid) :
    Coincide Twin (callFork pid) k k' := by
  obtain ⟨g, hg⟩ := h.userland
  obtain ⟨s, hs, rfl⟩ := ht
  unfold callFork
  refine .bind (.onUserland (Userland.fork_coincide hg pid (by decide) hs)) ?_
  intro res k1 k1' ht1
  cases res with
  | ok child => exact .pure ht1
  | error cause => exact .bind (report_coincide ht1 _) fun _ _ _ ht2 => .pure ht2

/-- **A system call is carried out alike.** -/
theorem syscall_coincide (h : Sound k) (ht : k.Twin k') (regs : Registers) :
    Coincide Twin (syscall regs) k k' := by
  unfold syscall
  refine .bind_ends (save_coincide ht regs) (save_ends h regs) fun _ k1 k1' h1 ht1 => ?_
  refine .bind_ends (updateViewer_coincide h1.sound ht1) (updateViewer_ends h1.sound) ?_
  rintro _ k2 k2' ⟨h2, -⟩ ht2
  refine .get (by rw [ht2.current]) ?_
  have resumed : ∀ {k3 k3' : Kernel} (v : UInt64), k3.Twin k3' →
      Coincide Twin (do setResult k2.current v; resume) k3 k3' := fun v ht3 =>
    .bind (setResult_coincide ht3 _ v) fun _ _ _ ht4 => resume_coincide ht4
  cases SystemCall.ofRegisters? regs with
  | none => exact .throw ht2
  | some call =>
    cases call with
    | panic => exact .throw ht2
    | getpid => exact resumed _ ht2
    | yield => exact .bind (setResult_coincide ht2 _ _) fun _ _ _ ht3 => schedule_coincide ht3
    | pageAlloc addr =>
      exact .bind (callPageAlloc_coincide h2.sound ht2 _ addr) fun v _ _ ht3 => resumed v ht3
    | fork => exact .bind (callFork_coincide h2.sound ht2 _) fun v _ _ ht3 => resumed v ht3
    | exit =>
      obtain ⟨g, hg⟩ := h2.sound.userland
      obtain ⟨s, hs, rfl⟩ := ht2
      refine .bind (.onUserland (Userland.reclaim_coincide hg k2.current hs)) fun _ _ _ ht3 => ?_
      exact .bind (report_coincide ht3 _) fun _ _ _ ht4 => schedule_coincide ht4

/-! ### A run -/

theorem load_coincide (loader : Loader) (h : Sound k) (ht : k.Twin k') (pid : Pid) (name : String) :
    Coincide Twin (load loader pid name) k k' := by
  unfold load
  cases loader name with
  | none => exact .throw ht
  | some program =>
    obtain ⟨g, hg⟩ := h.userland
    obtain ⟨s, hs, rfl⟩ := ht
    exact .get rfl (.onUserland (Userland.load_coincide hg pid program (by decide) hs))

theorem dispatch_coincide (ht : k.Twin k') (pid : Pid) : Coincide Twin (dispatch pid) k k' := by
  unfold dispatch
  refine .get (by rw [ht.procs]) (.lift_bind ht fun p _ => ?_)
  refine .ite (fun _ => .throw_bind ht) fun _ => ?_
  obtain ⟨s, hs, rfl⟩ := ht
  refine .update_bind ?_
  cases p.table with
  | none => exact .throw ⟨s, hs, rfl⟩
  | some t => exact .pure ⟨s, hs, rfl⟩

/-- **A program runs alike**: the pages that it accesses are in use. -/
theorem enter_coincide (h : Sound k) (ht : k.Twin k') {t : PageTable}
    (htable : k.procs.table? k.current = some t) (regs : Registers) :
    Coincide Twin (enter t.pa regs) k k' := by
  obtain ⟨g, hg⟩ := h.userland
  obtain ⟨s, hs, rfl⟩ := ht
  have hg' := hg.twin hs
  obtain ⟨f, hf, rfl⟩ := hs
  have hr := hg.owns.isRoot htable
  have hin := hg.runsIn htable regs k.cr2
  have hin' := hg'.runsIn htable regs k.cr2
  obtain ⟨trap, c, timer, hrun, ⟨⟨hend, -⟩, -⟩⟩ := hin.run k.timer
  have hmapped : ∀ q, k.frames.memory.MapsPage t.root.number q → k.frames.count q ≠ 0 := by
    rintro q ⟨v, e, hm, rfl⟩
    exact hg.accounted.count_mapped hr hm
  obtain ⟨c', hrun', hregs, hcr2, hbyte⟩ := Core.run_alike (hg.accounted.mapped_twin hf hr) hmapped
    hin hin' ⟨⟨_, rfl⟩, hf.byte⟩ rfl hrun
  refine .ok (enter_ok hrun) (hregs ▸ enter_ok hrun') ⟨_, ⟨_, hf.setMemory hbyte, rfl⟩, ?_⟩
  · dsimp only
    rw [hcr2]

theorem handle_coincide (h : Sound k) (ht : k.Twin k') (trap : Trap) (regs : Registers) :
    Coincide Twin (handle trap regs) k k' :=
  .ite (fun _ => syscall_coincide h ht regs) fun _ => exception_coincide h ht regs

/-- **A run of a process** ends alike on twins. -/
theorem run_coincide (h : Sound k) (ht : k.Twin k') (pid : Pid) :
    Coincide Twin (run pid) k k' := by
  unfold run
  refine .bind_ends (dispatch_coincide ht pid) (dispatch_ends h fun _ _ => trivial) ?_
  rintro ⟨regs, t⟩ k1 k1' ⟨h1, rfl, hslot⟩ ht1
  have htable : k.procs.table? pid = some t := by rw [ProcessTable.table?_eq, hslot]
  obtain ⟨g, hg⟩ := h1.userland
  have hcheck := hg.checkTable_ok (hg.owns.isRoot htable) (hg.owns.ne htable)
  refine .get ?_ (.lift_bind ht1 fun _ _ => ?_)
  · obtain ⟨s, hs, rfl⟩ := ht1
    have hg' := hg.twin hs
    have hcheck' := hg'.checkTable_ok (hg.owns.isRoot htable) (hg.owns.ne htable)
    dsimp only at hcheck hcheck' ⊢
    rw [hcheck, hcheck']
  refine .bind_ends (enter_coincide h1 ht1 htable regs) (enter_ends h1 htable regs) ?_
  rintro ⟨trap, regs'⟩ k2 k2' ⟨h2, -⟩ ht2
  exact handle_coincide h2.sound ht2 trap regs'

/-! ### The main loop -/

theorem idleFrom_coincide : ∀ (spins spin : Nat) {k k' : Kernel}, Sound k → k.Twin k' →
    Coincide Twin (idleFrom spin spins) k k'
  | 0, _, _, _, _, ht => .pure ht
  | spins + 1, spin, k, k', h, ht => by
    refine .bind_ends (schedule_coincide ht) (schedule_ends h) fun turn k1 k1' h1 ht1 => ?_
    obtain ⟨rfl, -⟩ := h1
    cases turn with
    | run pid => exact .pure ht1
    | idle =>
      refine .ite (fun _ => ?_) fun _ => idleFrom_coincide spins (spin + 1) h ht1
      obtain ⟨g, hg⟩ := h.userland
      obtain ⟨s, hs, rfl⟩ := ht1
      refine .get rfl ?_
      refine .bind_ends (.onUserland (Viewer.draw_coincide k1.viewer hg hs))
        (.onUserland (Viewer.draw_ends k1.viewer hg)) ?_
      rintro v k2 _ ⟨s2, rfl, hv, hframes, hprocs⟩ ⟨s2', hs2, rfl⟩
      refine .update_bind ?_
      have h2 := h.viewed hframes hprocs (hv.trans_le h.viewer)
      have ht2 : Twin { k1 with toUserland := s2, viewer := v }
          { k1 with toUserland := s2', viewer := v } := ⟨s2', hs2, rfl⟩
      refine .bind_ends (report_coincide ht2 _) (report_ends h2 _) fun _ k3 k3' h3 ht3 => ?_
      exact idleFrom_coincide spins (spin + 1) h3.sound ht3

/-- **Spinning** ends alike on twins. -/
theorem idle_coincide (h : Sound k) (ht : k.Twin k') (spins : Nat) :
    Coincide Twin (idle spins) k k' :=
  idleFrom_coincide spins 1 h ht

/-- A condition for the main loop to stop at that does not look into free pages. -/
def Blind {σ : Type} (stop : σ → Kernel → Bool × σ) : Prop :=
  ∀ s k k', k.Twin k' → stop s k' = stop s k

/-- A condition that looks at the clock, for example. -/
theorem Blind.of_ticks {σ : Type} (test : σ → Nat → Bool × σ) :
    Blind fun s k => test s k.ticks := by
  rintro s k _ ⟨s1, -, rfl⟩
  rfl

/-- **The main loop** makes the same turns on twins. -/
theorem runFrom_coincide {σ : Type} {stop : σ → Kernel → Bool × σ} (hstop : Blind stop) (s : σ)
    (next : Turn) (k : Kernel) (h : Sound k) {k' : Kernel} (ht : k.Twin k') :
    Coincide Twin (runFrom stop s next) k k' := by
  induction s, next, k using runFrom.induct stop generalizing k' with
  | case1 s next k s1 hs =>
    have hs' := (hstop s k k' ht).trans hs
    refine .ok (a := (.condition, s1)) ?_ ?_ ht
    · simp only [runFrom_eq stop s, hs]
    · simp only [runFrom_eq stop s, hs']
  | case2 s k s1 hs pid e k1 hrun =>
    have hs' := (hstop s k k' ht).trans hs
    obtain ⟨k1', hrun', ht1⟩ := (run_coincide h ht pid).eq_error hrun
    refine .halt (e := e) ?_ ?_ ht1
    · simp only [runFrom_eq stop s, hs, hrun]
    · simp only [runFrom_eq stop s, hs', hrun']
  | case3 s k s1 hs pid turn k1 hrun ih =>
    have hs' := (hstop s k k' ht).trans hs
    obtain ⟨k1', hrun', ht1⟩ := (run_coincide h ht pid).eq_ok hrun
    refine .of_eq ?_ ?_ (ih (run_sound h hrun).1 ht1)
    · simp only [runFrom_eq stop s, hs, hrun]
    · simp only [runFrom_eq stop s, hs', hrun']
  | case4 s k s1 hs e k1 hidle =>
    have hs' := (hstop s k k' ht).trans hs
    obtain ⟨k1', hidle', ht1⟩ := (idle_coincide h ht redrawSpins).eq_error hidle
    refine .halt (e := e) ?_ ?_ ht1
    · simp only [runFrom_eq stop s, hs, hidle]
    · simp only [runFrom_eq stop s, hs', hidle']
  | case5 s k s1 hs k1 hidle =>
    have hs' := (hstop s k k' ht).trans hs
    obtain ⟨k1', hidle', ht1⟩ := (idle_coincide h ht redrawSpins).eq_ok hidle
    refine .ok (a := (.idle, s1)) ?_ ?_ ht1
    · simp only [runFrom_eq stop s, hs, hidle]
    · simp only [runFrom_eq stop s, hs', hidle']
  | case6 s k s1 hs pid k1 hidle ih =>
    have hs' := (hstop s k k' ht).trans hs
    obtain ⟨k1', hidle', ht1⟩ := (idle_coincide h ht redrawSpins).eq_ok hidle
    have hspun : Spun k (some pid) k1 := (idle_ends (E := fun _ => True) h _).eq_ok hidle
    refine .of_eq ?_ ?_ (ih hspun.sound ht1)
    · simp only [runFrom_eq stop s, hs, hidle]
    · simp only [runFrom_eq stop s, hs', hidle']

theorem runUntil_coincide {σ : Type} {stop : σ → Kernel → Bool × σ} (hstop : Blind stop) (s : σ)
    (h : Sound k) (ht : k.Twin k') : Coincide Twin (runUntil stop s) k k' := by
  refine .bind_ends (resume_coincide ht) (resume_ends h) fun next k1 k1' h1 ht1 => ?_
  obtain ⟨rfl, -⟩ := h1
  exact runFrom_coincide hstop s next k1 h ht1

end Kernel
end PagedKernel
