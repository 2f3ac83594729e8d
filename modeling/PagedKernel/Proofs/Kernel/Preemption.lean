import Mathlib.Logic.Relation
import PagedKernel.Proofs.Kernel.Countdown
import PagedKernel.Proofs.Spaces.Lockstep

/-!
# Preemption

A process does not notice that the timer takes the turn from it and that others run meanwhile. Take
a stretch of the main loop in which its own turns end in timer interrupts, and the trap that ends
the next one. Without a timer and without any other process, attempting one instruction after the
other on the core that it had at the beginning of the stretch (`Core.RunsTo`) ends in the same trap,
with the same registers and the same memory. The page of the console is left out, since the others
may write it.

Key definitions: `Core.RunsTo`, `Core.Avoids`, `Kernel.Loop.Step`, `Kernel.Loop.Stretch`.
Key theorem: `Kernel.Reachable.preemption_transparent`.
-/

namespace PagedKernel

/-! ### Programs without a timer -/

namespace Core

variable {n : Nat}

/-- Attempting one instruction after the other from `c` on ends in the trap `trap` on the core `d`.
-/
inductive RunsTo : Core n → Trap → Core n → Prop
  | trap {c d : Core n} {trap : Trap} : c.step = .ok (some trap, d) → RunsTo c trap d
  | next {c c1 d : Core n} {trap : Trap} : c.step = .ok (none, c1) → RunsTo c1 trap d →
    RunsTo c trap d

theorem RunsTo.unique {c d d' : Core n} {trap trap' : Trap} (h : RunsTo c trap d)
    (h' : RunsTo c trap' d') : trap' = trap ∧ d' = d := by
  induction h with
  | trap hstep =>
    cases h' with
    | trap hstep' =>
      rw [hstep] at hstep'
      cases hstep'
      exact ⟨rfl, rfl⟩
    | next hstep' _ =>
      rw [hstep] at hstep'
      cases hstep'
  | next hstep _ ih =>
    cases h' with
    | trap hstep' =>
      rw [hstep] at hstep'
      cases hstep'
    | next hstep' hrest =>
      rw [hstep] at hstep'
      cases hstep'
      exact ih hrest

/-- None of the first `count` instructions that are attempted from `c` on accesses page number `q`.
-/
def Avoids (q : Nat) : Nat → Core n → Prop
  | 0, _ => True
  | count + 1, c =>
    (∀ pa ∈ c.accesses, pa.pageNumber ≠ q) ∧ ∀ c1, c.step = .ok (none, c1) → Avoids q count c1

theorem Avoids.of_invariant {q : Nat} {I : Core n → Prop} (hI : ∀ c, I c →
      (∀ pa ∈ c.accesses, pa.pageNumber ≠ q) ∧ ∀ c1, c.step = .ok (none, c1) → I c1) :
    ∀ (count : Nat) {c : Core n}, I c → Avoids q count c
  | 0, _, _ => trivial
  | count + 1, c, h => by
    obtain ⟨hoff, hnext⟩ := hI c h
    exact ⟨hoff, fun c1 hstep => of_invariant hI count (hnext c1 hstep)⟩

theorem RunsIn.run_ok [Addressable n] {g : Shape} {f : Frames n} {r : Nat} {c c' : Core n}
    {timer timer' : Timer} {trap : Trap} (h : RunsIn g f r c)
    (hok : c.run timer = .ok (trap, c', timer')) : RunsIn g f r c' := by
  obtain ⟨_, _, _, hrun, ⟨hend, -⟩, -⟩ := h.run timer
  rw [hok] at hrun
  cases hrun
  exact hend

/-- The pages that a space maps by `F`, but for page number `q`. -/
def Apart (F : Nat → Option Entry) (q : Nat) : Nat → Prop :=
  fun p => p ≠ q ∧ ∃ v e, F v = some e ∧ e.addr.pageNumber = p

section
variable [Addressable n] {g g' : Shape} {f f' : Frames n} {r q : Nat}

/-- **Alike cores run alike**, one with a timer and the other without. Where the timer fires, the
second core has still to run to whatever it does. -/
theorem runFor_together {quantum left : Nat} (hm : f'.memory.mapped r = f.memory.mapped r) :
    ∀ {count : Nat} {c c' d : Core n} {trap : Trap}, RunsIn g f r c → RunsIn g' f' r c' →
    Alike (Apart (f.memory.mapped r) q) c c' → Avoids q count c →
    runFor quantum count c = .ok (trap, left, d) →
    ∃ d', Alike (Apart (f.memory.mapped r) q) d d' ∧ RunsIn g' f' r d' ∧
      ((trap = .timer ∧ ∀ t e, RunsTo d' t e → RunsTo c' t e) ∨
        trap ≠ .timer ∧ RunsTo c' trap d' ∧ (trap = .pageFault → d'.cr2 = d.cr2))
  | 0, c, c', _, _, _, h', ha, _, hok => by
    cases hok
    exact ⟨c', ha, h', .inl ⟨rfl, fun _ _ => id⟩⟩
  | count + 1, c, c', d, trap, h, h', ha, havoids, hok => by
    obtain ⟨hoff, hnext⟩ := havoids
    have hS : ∀ pa ∈ c.accesses, Apart (f.memory.mapped r) q pa.pageNumber := fun pa hpa =>
      ⟨hoff pa hpa, h.accesses_mapped pa hpa⟩
    obtain ⟨res, c1, c1', hstep, hstep', h1, h1', ha1, hcr2⟩ := h.step_alike h' hm ha hS
    rw [runFor, hstep] at hok
    cases res with
    | none =>
      obtain ⟨d', hd, hend, hor⟩ := runFor_together hm h1 h1' ha1 (hnext c1 hstep) hok
      refine ⟨d', hd, hend, hor.imp ?_ ?_⟩
      · rintro ⟨rfl, hrest⟩
        exact ⟨rfl, fun t e he => .next hstep' (hrest t e he)⟩
      · rintro ⟨hne, hto, hcr2⟩
        exact ⟨hne, .next hstep' hto, hcr2⟩
    | some trap' =>
      cases hok
      refine ⟨c1', ha1, h1', .inr ⟨step_ne_timer hstep, .trap hstep', fun hpf => ?_⟩⟩
      exact hcr2 (.inr (hpf ▸ rfl))

end

end Core

namespace Kernel

variable {k k' k1 : Kernel} {loader : Loader} {p q : Pid} {t : PageTable} {regs : Registers}
  {σ : Type}

/-! ### The main loop, turn by turn -/

/-- Where the main loop stands: what its condition remembers, whose turn it is, and the kernel. -/
structure Loop (σ : Type) where
  memo : σ
  next : Turn
  kernel : Kernel

namespace Loop

/-- One turn of the main loop, which the condition lets go on. -/
inductive Step (stop : σ → Kernel → Bool × σ) : Loop σ → Loop σ → Prop
  | run {s s1 : σ} {pid : Pid} {next : Turn} {k k' : Kernel} : stop s k = (false, s1) →
    run pid k = .ok next k' → Step stop ⟨s, .run pid, k⟩ ⟨s1, next, k'⟩
  | idle {s s1 : σ} {pid : Pid} {k k' : Kernel} : stop s k = (false, s1) →
    idle redrawSpins k = .ok (some pid) k' → Step stop ⟨s, .idle, k⟩ ⟨s1, .run pid, k'⟩

/-- The loop goes on from where the turn leads. -/
theorem Step.runFrom_eq {stop : σ → Kernel → Bool × σ} {l l' : Loop σ} (h : Step stop l l') :
    runFrom stop l.memo l.next l.kernel = runFrom stop l'.memo l'.next l'.kernel := by
  cases h with
  | run hstop hrun => simp only [Kernel.runFrom_eq stop _ (.run _), hstop, hrun]
  | idle hstop hidle => simp only [Kernel.runFrom_eq stop _ .idle, hstop, hidle]

/-- Running until the condition holds comes by `l`. -/
def Execution (stop : σ → Kernel → Bool × σ) (s : σ) (k : Kernel) (l : Loop σ) : Prop :=
  ∃ next k0, resume k = .ok next k0 ∧ Relation.ReflTransGen (Step stop) ⟨s, next, k0⟩ l

theorem Execution.runUntil_eq {stop : σ → Kernel → Bool × σ} {s : σ} {l : Loop σ}
    (h : Execution stop s k l) : runUntil stop s k = runFrom stop l.memo l.next l.kernel := by
  obtain ⟨next, k0, hresume, hsteps⟩ := h
  have hloop : runFrom stop s next k0 = runFrom stop l.memo l.next l.kernel := by
    induction hsteps with
    | refl => rfl
    | tail _ hstep ih => exact ih.trans hstep.runFrom_eq
  rw [← hloop]
  show EStateM.bind resume _ k = _
  unfold EStateM.bind
  rw [hresume]

theorem Step.sound {stop : σ → Kernel → Bool × σ} {l l' : Loop σ} (h : Step stop l l')
    (hl : Sound l.kernel) : Sound l'.kernel := by
  cases h with
  | run _ hrun => exact (run_sound hl hrun).1
  | idle _ hidle => exact ((idle_ends (E := fun _ => True) hl _).eq_ok hidle).sound

theorem Execution.sound {stop : σ → Kernel → Bool × σ} {s : σ} {l : Loop σ}
    (h : Execution stop s k l) (hk : Sound k) : Sound l.kernel := by
  obtain ⟨next, k0, hresume, hsteps⟩ := h
  obtain ⟨rfl, -⟩ := (resume_ends (E := fun _ => True) hk).eq_ok hresume
  induction hsteps with
  | refl => exact hk
  | tail _ hstep ih => exact hstep.sound ih

end Loop

/-! ### A stretch of a process -/

/-- The next turn of process `p` has no access to the page of the console. -/
def OffConsole (k : Kernel) (p : Pid) : Prop :=
  ∀ t, k.procs.table? p = some t → (k.core p t).Avoids consolePage k.timer.count

/-- If it is the turn of process `p`, the turn ends in a timer interrupt and has no access to the
console. -/
def Loop.Preempted (p : Pid) (l : Loop σ) : Prop :=
  l.next = .run p →
    (∃ regs k1, runToTrap p l.kernel = .ok (.timer, regs) k1) ∧ l.kernel.OffConsole p

/-- The main loop gets from one place to another, and if process `p` has the turn meanwhile, it is
preempted. -/
def Loop.Stretch (stop : σ → Kernel → Bool × σ) (p : Pid) : Loop σ → Loop σ → Prop :=
  Relation.ReflTransGen fun l l' => Step stop l l' ∧ l.Preempted p

/-- Process `p` of the kernel stands where the core `c` does, which runs by itself in a space that
maps by `F`. -/
structure InStep (F : Nat → Option Entry) (p : Pid) (t : PageTable) (k : Kernel)
    (c : Core physicalPages) : Prop where
  live : k.procs.state p ≠ .free
  table? : k.procs.table? p = some t
  mapped : k.frames.memory.mapped t.root.number = F
  alike : Core.Alike (Core.Apart F consolePage) (k.core p t) c
  runsIn : ∃ g f, Core.RunsIn g f t.root.number c ∧ f.memory.mapped t.root.number = F

namespace InStep

variable {F : Nat → Option Entry} {c : Core physicalPages}

theorem spared (h : InStep F p t k c) (hs : Userland.Spares p k.toUserland k'.toUserland) :
    InStep F p t k' c where
  live := by rw [hs.state]; exact h.live
  table? := hs.table?.trans h.table?
  mapped := (hs.mapped h.table?).trans h.mapped
  alike := by
    obtain ⟨v, hv⟩ := h.alike.regs
    refine ⟨⟨v, ?_⟩, ?_⟩
    · have hslot : (k'.core p t).regs = (k.core p t).regs := congrArg ProcessSlot.regs hs.slot
      rw [hslot, hv]
    · rintro a ⟨hne, v, e, hm, hpage⟩
      rw [h.alike.byte a ⟨hne, v, e, hm, hpage⟩]
      exact (hs.byte h.table? (h.mapped ▸ hm) (hpage ▸ hne) a hpage.symm).symm
  runsIn := h.runsIn

theorem toTrap (h : InStep F p t k c) (hk : Sound k) (hoff : k.OffConsole p) {trap : Trap}
    (hok : runToTrap p k = .ok (trap, regs) k1) : ∃ c', Traps k p t trap regs k1 ∧
      k1.frames.memory.mapped t.root.number = F ∧ (∃ v, c'.regs = regs.withVector v) ∧
      (∀ a, Core.Apart F consolePage (a / pageSize) →
        c'.memory.byte a = k1.frames.memory.byte a) ∧
      (∃ g f, Core.RunsIn g f t.root.number c' ∧ f.memory.mapped t.root.number = F) ∧
      ((trap = .timer ∧ ∀ trap e, Core.RunsTo c' trap e → Core.RunsTo c trap e) ∨
        trap ≠ .timer ∧ Core.RunsTo c trap c' ∧ (trap = .pageFault → c'.cr2 = k1.cr2)) := by
  obtain ⟨t', htraps⟩ := (runToTrap_ends (E := fun _ => True) hk fun _ _ => trivial).eq_ok hok
  obtain rfl : t' = t := Option.some.inj (htraps.table?.symm.trans h.table?)
  obtain ⟨c0, timer, hrun, hregs, rfl⟩ := htraps.core
  obtain ⟨left, d, hrunFor, rfl, -⟩ := Core.run_eq_ok hrun
  obtain rfl : regs = d.regs.withVector trap.code := hregs
  obtain ⟨gs, hg⟩ := hk.userland
  obtain ⟨g', f', hc, hF⟩ := h.runsIn
  have hmapped := h.mapped
  obtain ⟨d', ha, hd, hor⟩ := Core.runFor_together (hF.trans hmapped.symm)
    (hg.runsIn h.table? (k.procs.slot p).regs k.cr2) hc (hmapped ▸ h.alike) (hoff _ h.table?)
    hrunFor
  obtain ⟨v, hv⟩ := ha.regs
  have hend := (hg.runsIn h.table? (k.procs.slot p).regs k.cr2).run_ok hrun
  refine ⟨d', htraps, ?_, ⟨v, hv⟩, hmapped ▸ ha.byte, ⟨g', f', hd, hF⟩, hor⟩
  exact (hend.wrote.mapped hend.no_table hend.fits hend.isRoot).trans hmapped

end InStep

/-- A turn of the process that the timer ends takes the core along. -/
theorem InStep.preempted {F : Nat → Option Entry} {c : Core physicalPages} (h : InStep F p t k c)
    (hk : Sound k) (hoff : k.OffConsole p) (htimer : runToTrap p k = .ok (.timer, regs) k1)
    {turn : Turn} (hok : run p k = .ok turn k') : ∃ c', InStep F p t k' c' ∧
      ∀ trap e, Core.RunsTo c' trap e → Core.RunsTo c trap e := by
  obtain ⟨c', htraps, hmapped, ⟨v, hv⟩, hbyte, hrunsIn, hor⟩ := h.toTrap hk hoff htimer
  obtain ⟨-, hrest⟩ := hor.resolve_right fun hne => hne.1 rfl
  rw [run_eq] at hok
  obtain ⟨_, _, hfirst, hhandle⟩ := HaltM.bind_eq_ok hok
  rw [htimer] at hfirst
  cases hfirst
  obtain ⟨hframes, hprocs, -⟩ := (exception_timer_ends (E := fun _ => True) htraps.follows.sound
    htraps.trap? fun _ => trivial).eq_ok hhandle
  have hslot : k'.procs.slot p = { k.procs.slot p with regs } := by
    have hcurrent : k1.current = p := htraps.follows.current
    have hprocs1 : k1.procs = k.procs := by
      obtain ⟨_, _, _, _, rfl⟩ := htraps.core
      rfl
    have hp : p < procCount := ProcessTable.lt_of_table? h.table?
    rw [hprocs, hcurrent, hprocs1, ProcessTable.modify_eq _ hp, ProcessTable.slot_set hp,
      if_pos rfl]
  refine ⟨c', ⟨?_, ?_, ?_, ⟨⟨v, ?_⟩, ?_⟩, hrunsIn⟩, hrest⟩
  · rw [ProcessTable.state_eq, hslot, ← ProcessTable.state_eq]
    exact h.live
  · rw [ProcessTable.table?_eq, hslot, ← ProcessTable.table?_eq]
    exact h.table?
  · rw [hframes, hmapped]
  · have hregs : (k'.core p t).regs = regs := congrArg ProcessSlot.regs hslot
    rw [hregs, hv]
  · intro a ha
    have hmem : (k'.core p t).memory = k1.frames.memory := congrArg Frames.memory hframes
    rw [hmem, hbyte a ha]

/-- A stretch of the process takes the core along. -/
theorem InStep.stretch {F : Nat → Option Entry} {stop : σ → Kernel → Bool × σ} {l l' : Loop σ}
    (hstretch : l.Stretch stop p l') {c : Core physicalPages} (h : InStep F p t l.kernel c)
    (hk : Sound l.kernel) : Sound l'.kernel ∧ ∃ c', InStep F p t l'.kernel c' ∧
      ∀ trap e, Core.RunsTo c' trap e → Core.RunsTo c trap e := by
  induction hstretch with
  | refl => exact ⟨hk, c, h, fun _ _ => id⟩
  | @tail l1 l2 _ hstep ih =>
    obtain ⟨hk1, c1, h1, hrest1⟩ := ih
    obtain ⟨hstep, hpreempted⟩ := hstep
    refine ⟨hstep.sound hk1, ?_⟩
    cases hstep with
    | @run _ _ pid _ _ _ _ hrun =>
      by_cases hpid : pid = p
      · subst hpid
        obtain ⟨⟨regs, k1, htimer⟩, hoff⟩ := hpreempted rfl
        obtain ⟨c2, h2, hrest2⟩ := h1.preempted hk1 hoff htimer hrun
        exact ⟨c2, h2, fun trap e he => hrest1 trap e (hrest2 trap e he)⟩
      · exact ⟨c1, h1.spared ((run_ok hk1 hrun).2 p (Ne.symm hpid) h1.live), hrest1⟩
    | idle _ hidle =>
      have hspun := (idle_ends (E := fun _ => True) hk1 _).eq_ok hidle
      refine ⟨c1, h1.spared (.of_frames_eq hspun.frames ?_), hrest1⟩
      exact congrArg (ProcessTable.slot · p) hspun.procs

/-- A process that counts down has no access to the console. -/
theorem At.offConsole {j : Nat} (h : At k p countdown j) (hk : Sound k)
    (hj : j < countdown.length) : k.OffConsole p := by
  intro t ht
  obtain ⟨t', g, ht', hplaced⟩ := h.placed hk
  obtain rfl : t' = t := Option.some.inj (ht'.symm.trans ht)
  refine .of_invariant (I := fun c => ∃ j < countdown.length,
    Core.Placed g k.frames t'.root.number userFirst countdown j c) ?_ _ ⟨j, hj, hplaced⟩
  rintro c ⟨j, hj, hplaced⟩
  exact hplaced.step_countdown hj

/-! ### Transparency -/

/-- **Preemption is transparent.** Take any place `l` that a run of the main loop comes by, a process
`p` that is there, and the next of its traps that is no timer interrupt, from `k'` to `k1`.
Attempting one instruction after the other on the core that `p` has at `l` ends in the same trap.
The registers are the same, with the trap recorded in them; so is the address of a page fault, and
so are the pages that `p` maps. -/
theorem Reachable.preemption_transparent (h : Reachable loader k) {stop : σ → Kernel → Bool × σ}
    {s s' : σ} {l : Loop σ} (hexec : l.Execution stop s k)
    (hlive : l.kernel.procs.state p ≠ .free) (ht : l.kernel.procs.table? p = some t)
    (hstretch : l.Stretch stop p ⟨s', .run p, k'⟩) {trap : Trap}
    (htrap : runToTrap p k' = .ok (trap, regs) k1) (hne : trap ≠ .timer) (hoff : k'.OffConsole p) :
    ∃ c, Core.RunsTo (l.kernel.core p t) trap c ∧
      (∀ trap' c', Core.RunsTo (l.kernel.core p t) trap' c' → trap' = trap ∧ c' = c) ∧
      regs = { c.regs with vector := trap.code } ∧ (trap = .pageFault → k1.cr2 = c.cr2) ∧
      (∀ va, t.walk c.memory va = t.walk k1.frames.memory va) ∧
      ∀ va e, t.walk k1.frames.memory va = .ok (some e) → e.addr.pageNumber ≠ consolePage →
        ∀ a, a / pageSize = e.addr.pageNumber →
          k1.frames.memory.byte a = c.memory.byte a := by
  have hk : Sound l.kernel := hexec.sound h.sound
  obtain ⟨g, hg⟩ := hk.userland
  have hstart : InStep (l.kernel.frames.memory.mapped t.root.number) p t l.kernel
      (l.kernel.core p t) :=
    ⟨hlive, ht, rfl, ⟨⟨_, rfl⟩, fun _ _ => rfl⟩, g, l.kernel.frames, hg.runsIn ht _ _, rfl⟩
  obtain ⟨hk', c', hend, hrest⟩ := InStep.stretch hstretch hstart hk
  obtain ⟨c, htraps, hmapped, ⟨v, hv⟩, hbyte, ⟨g', f', hc, hF⟩, hor⟩ := hend.toTrap hk' hoff htrap
  obtain ⟨-, hto, hcr2⟩ := hor.resolve_left fun htimer => hne htimer.1
  have hto : Core.RunsTo (l.kernel.core p t) trap c := hrest trap c hto
  obtain ⟨g1, hg1⟩ := htraps.follows.sound.userland
  have ht1 : k1.procs.table? p = some t := (htraps.follows.table? p).trans htraps.table?
  have hwalk : ∀ va, t.walk k1.frames.memory va = .ok _ := fun va =>
    hg1.accounted.fits.walk_eq t va (hg1.owns.isRoot ht1)
  refine ⟨c, hto, fun _ _ => hto.unique, ?_, fun hpf => (hcr2 hpf).symm, fun va => ?_,
    fun va e hm hpage a ha => ?_⟩
  · rw [hv, ← htraps.vector]
    rfl
  · rw [hwalk, (hc.wrote.fits hc.no_table hc.fits).walk_eq t va hc.isRoot,
      hc.wrote.mapped hc.no_table hc.fits hc.isRoot, hF, hmapped]
  · rw [hwalk, hmapped, Except.ok.injEq] at hm
    exact (hbyte a (ha ▸ ⟨hpage, va.page, e, hm, rfl⟩)).symm

/-- Four such processes have their turns one after the other. -/
theorem Counted.stretch (h : Counted k 0) : ∀ i ≤ 4, ∃ k', Counted k' i ∧
    Loop.Stretch (fun s _ => (false, s)) 1 ⟨(), .run 1, k⟩ ⟨(), .run (i % 4 + 1), k'⟩
  | 0, _ => ⟨k, h, .refl⟩
  | i + 1, hi => by
    obtain ⟨k1, h1, hstretch⟩ := h.stretch i (Nat.le_of_succ_le hi)
    obtain ⟨regs, kt, turn, k2, htrap, hok, h2, hschedule⟩ := h1.succ hi
    obtain rfl := h2.schedule_eq (Nat.succ_pos i) hi hschedule
    rw [Nat.mod_eq_of_lt hi] at hstretch
    refine ⟨k2, h2, hstretch.tail ⟨.run rfl hok, fun hnext => ?_⟩⟩
    have hfirst : i + 1 = 1 := Turn.run.inj hnext
    rw [hfirst] at htrap
    exact ⟨⟨regs, kt, htrap⟩,
      (h1.next 1 (by omega) (by decide)).offConsole h1.sound (by decide)⟩

/-- The first of four processes that count down has a turn in which it executes instructions until
the timer preempts it. So have the others, and then the first comes to its system call. -/
theorem preemption_transparent_countdown : ∃ k k' k1 t regs c,
    boot (textLoader countdown) none = .ok k ∧
    Loop.Execution (fun s _ => (false, s)) () k ⟨(), .run 1, k⟩ ∧
    Loop.Stretch (fun s _ => (false, s)) 1 ⟨(), .run 1, k⟩ ⟨(), .run 1, k'⟩ ∧
    k'.ticks = k.ticks + 4 ∧ runToTrap 1 k' = .ok (.syscall, regs) k1 ∧
    Core.RunsTo (k.core 1 t) .syscall c ∧ regs = { c.regs with vector := Trap.syscall.code } := by
  obtain ⟨k, hboot, h⟩ := boot_countdown
  have hreach : Reachable (textLoader countdown) k := .boot hboot
  have hat : At k 1 countdown 0 := h.next 1 one_pos (by decide)
  have hlive : k.procs.state 1 ≠ .free := by
    rw [hat.state]
    nofun
  obtain ⟨t, _, ht, -⟩ := hat.placed h.sound
  have hresume : resume k = .ok (.run 1) k := by
    rw [resume_other (by rw [h.current, h.free 0 (.inl one_pos)]; nofun)]
    exact schedule_succ h.current (by decide) hat.state
  have hexec : Loop.Execution (fun s _ => (false, s)) () k ⟨(), .run 1, k⟩ :=
    ⟨.run 1, k, hresume, .refl⟩
  obtain ⟨k', h', hstretch⟩ := h.stretch 4 le_rfl
  have hlast := h'.had 1 le_rfl (by decide)
  obtain ⟨regs, k1, htrap⟩ := hlast.calls h'.sound (by rw [h'.count]; decide)
  obtain ⟨c, hto, -, hregs, -⟩ := hreach.preemption_transparent hexec hlive ht hstretch htrap nofun
    (hlast.offConsole h'.sound (by decide))
  exact ⟨k, k', k1, t, regs, c, hboot, hexec, hstretch, by rw [h'.ticks, h.ticks], htrap, hto,
    hregs⟩

end Kernel

end PagedKernel
