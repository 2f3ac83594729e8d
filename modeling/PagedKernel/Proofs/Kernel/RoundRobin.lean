import PagedKernel.Proofs.Kernel.Calls
import PagedKernel.Proofs.Kernel.Pausing

/-!
# Nobody is passed over twice

The scheduler goes around the slots. Each process that it chooses is nearer to a process that can
run and waits (`turnsTo`), whatever has happened to the other slots meanwhile. So it chooses nobody
twice before that one, and there are fewer timer interrupts than slots until then. In the main loop
the same holds of all that goes on while a process waits: other processes run on, yield, exit, break
and are duplicated, but the scheduler is asked at the end of a turn or not at all.

Key definitions: `turnsTo`, `Kernel.Loop.Waits`.
Key theorems: `ProcessTable.nextRunnable_nearer`, `Kernel.Loop.Waits.waiting`,
`Kernel.round_robin`.
-/

namespace PagedKernel

/-! ### Around the slots -/

/-- How many slots after slot `c` slot `p` comes, going around. -/
def turnsTo (c p : Pid) : Nat :=
  (p + (procCount - c)) % procCount

theorem turnsTo_lt (c p : Nat) : turnsTo c p < procCount :=
  Nat.mod_lt _ (by decide)

theorem turnsTo_pos {c p : Nat} (hc : c < procCount) (hp : p < procCount) (hne : c ≠ p) :
    0 < turnsTo c p := by
  unfold turnsTo procCount at *
  omega

namespace ProcessTable

variable {procs : ProcessTable} {c c' p : Nat}

/-- **The scheduler comes nearer** to a process that can run and is passed over. -/
theorem nextRunnable_nearer (hc : c < procCount) (hrun : procs.state p = .runnable) (hne : c ≠ p)
    (h : procs.nextRunnable c = .ok (some c')) : turnsTo c' p < turnsTo c p := by
  obtain ⟨i, hi, -, rfl, -, hbefore⟩ := nextRunnable_some h
  have hp : p < procCount := lt_of_state (by rw [hrun]; nofun)
  have hpos := turnsTo_pos hc hp hne
  have hturn : (c + turnsTo c p) % procCount = p := by
    unfold turnsTo procCount at *
    omega
  have hle : i ≤ turnsTo c p := by
    by_contra hlt
    exact hbefore _ hpos (Nat.not_le.mp hlt) (by rw [hturn, hrun])
  unfold turnsTo procCount at *
  omega

theorem nextRunnable_lt (h : procs.nextRunnable c = .ok (some c')) : c' < procCount := by
  obtain ⟨-, -, -, -, hrun, -⟩ := nextRunnable_some h
  exact lt_of_state (by rw [hrun]; nofun)

/-- As long as process `p` can run and is not chosen, every choice is nearer to it than the one
before. -/
theorem turnsTo_add_le {choice : Nat → Pid} {tables : Nat → ProcessTable} {k : Nat}
    (h0 : choice 0 < procCount) (hrun : ∀ i < k, (tables i).state p = .runnable)
    (hnext : ∀ i < k, (tables i).nextRunnable (choice i) = .ok (some (choice (i + 1))))
    (hne : ∀ i < k, choice (i + 1) ≠ p) {i : Nat} (hi : 1 ≤ i) :
    ∀ d, i + d ≤ k → turnsTo (choice (i + d)) p + d ≤ turnsTo (choice i) p
  | 0, _ => le_rfl
  | d + 1, hle => by
    have hlt : i + d < k := hle
    have ih := turnsTo_add_le h0 hrun hnext hne hi d hlt.le
    obtain ⟨j, hj⟩ := Nat.exists_eq_add_of_le' (Nat.le_add_right_of_le (k := d) hi)
    have hne' : choice (i + d) ≠ p := hj ▸ hne j (by omega)
    have hc : choice (i + d) < procCount := hj ▸ nextRunnable_lt (hnext j (by omega))
    have hnearer := nextRunnable_nearer hc (hrun _ hlt) hne' (hnext _ hlt)
    show turnsTo (choice (i + d + 1)) p + (d + 1) ≤ turnsTo (choice i) p
    omega

end ProcessTable

namespace Kernel

variable {k k' : Kernel} {loader : Loader} {pid p : Pid} {turn : Turn} {σ : Type}

/-! ### The slot of no process -/

/-- A run of another process leaves slot 0 alone. A child is never there. -/
theorem run_slot_zero (h : Sound k) (hpid : pid ≠ 0) (hok : run pid k = .ok turn k') :
    k'.procs.slot 0 = k.procs.slot 0 := by
  obtain ⟨t, trap, regs, kt, -, htraps, hhandle, hanswers⟩ := run_answers h hok
  have hcurrent : kt.current = pid := htraps.follows.current
  have hzero : (0 : Pid) ≠ kt.current := fun heq => hpid (hcurrent.symm.trans heq.symm)
  by_cases hfork : callOf trap regs = some .fork
  · have hsys : trap = .syscall := by
      by_contra hne
      rw [callOf, if_neg hne] at hfork
      cases hfork
    subst hsys
    rw [callOf, if_pos rfl] at hfork
    rw [handle, if_pos rfl] at hhandle
    have hspace : kt.procs.table? kt.current ≠ none := by
      rw [htraps.follows.table?, hcurrent, htraps.table?]
      exact Option.some_ne_none t
    obtain ⟨-, g, s0, res, s, hs0, -, hprocs0, hforked, -, hprocs⟩ :=
      (syscall_fork_ends (E := fun _ => True) htraps.follows.sound hfork hspace).eq_ok hhandle
    have hlt : kt.current < procCount := htraps.follows.sound.current
    have hslot : s.procs.slot 0 = s0.procs.slot 0 := by
      have hends := (Userland.fork_ends (E := fun _ => True) hs0 hlt (by decide) fun _ =>
        trivial).eq_ok hforked
      cases res with
      | error cause => rw [hends.2.2.1]
      | ok child =>
        have hchild : Userland.Forked kt.current child s0 s := hends.2.2
        exact hchild.other 0 (Nat.ne_of_lt (ProcessTable.firstFree_spec hchild.first).1)
    rw [hprocs, ProcessTable.modify_eq _ hlt, ProcessTable.slot_set hlt, if_neg hzero, hslot,
      hprocs0, ProcessTable.modify_eq _ hlt, ProcessTable.slot_set hlt, if_neg hzero, htraps.procs]
  · rw [hanswers.slot hfork 0 hzero, htraps.procs]

theorem loadAll_slot_zero : ∀ {names : List String} {pid : Nat} {k k' : Kernel}, Sound k →
    1 ≤ pid → pid + names.length ≤ procCount → loadAll loader pid names k = .ok () k' →
    k'.procs.slot 0 = k.procs.slot 0
  | [], _, _, _, _, _, _, hok => by
    cases hok
    rfl
  | name :: rest, pid, k, k', h, hpid, hlen, hok => by
    rw [List.length_cons] at hlen
    have hlt : pid < procCount := by omega
    obtain ⟨_, k1, hload, hrest⟩ := HaltM.bind_eq_ok hok
    obtain ⟨h1, program, s, rfl, -, -, -, -, hslot⟩ :=
      (load_ends (E := fun _ => True) h hlt fun _ _ => trivial).eq_ok hload
    rw [loadAll_slot_zero h1 (Nat.le_add_left 1 pid) (by omega) hrest]
    exact hslot 0 (Nat.ne_of_lt hpid)

theorem boot_slot_zero {command : Option String} (hok : boot loader command = .ok k) :
    k.procs.slot 0 = .unused := by
  obtain ⟨k1, s, hstart, h1, hprocs, -⟩ := startUserland_ends.ok
  rw [boot_eq hstart] at hok
  split at hok
  · cases hok
  · next k2 hall =>
    cases hok
    obtain ⟨names, k3, hnames, hload⟩ := HaltM.bind_eq_ok hall
    obtain ⟨h3, hlen⟩ := (bootPrograms_ends (E := fun _ => True) h1 command).eq_ok hnames
    have hlen' : 1 + names.length ≤ procCount := (Nat.add_le_add_left hlen 1).trans (by decide)
    obtain ⟨log, hsame⟩ := bootPrograms_ok loader command k1
    rw [hsame] at hnames
    cases hnames
    rw [loadAll_slot_zero h3 le_rfl hlen' hload]
    dsimp only
    rw [hprocs, ProcessTable.slot_empty]

theorem Loop.Step.free_zero {stop : σ → Kernel → Bool × σ} {l l' : Loop σ} (h : Step stop l l')
    (hl : Sound l.kernel) (hfree : l.kernel.procs.state 0 = .free) :
    l'.kernel.procs.state 0 = .free := by
  cases h with
  | @run _ _ pid _ _ _ _ hrun =>
    obtain ⟨_, _, _, _, -, htraps, -⟩ := run_answers hl hrun
    have hpid : pid ≠ 0 := by
      rintro rfl
      exact nomatch hfree.symm.trans htraps.state
    rw [ProcessTable.state_eq, run_slot_zero hl hpid hrun, ← ProcessTable.state_eq]
    exact hfree
  | idle _ hidle =>
    rw [((idle_ends (E := fun _ => True) hl _).eq_ok hidle).procs]
    exact hfree

theorem Loop.steps_free_zero {stop : σ → Kernel → Bool × σ} {l l' : Loop σ}
    (hsteps : Relation.ReflTransGen (Loop.Step stop) l l') (hl : Sound l.kernel)
    (hfree : l.kernel.procs.state 0 = .free) :
    Sound l'.kernel ∧ l'.kernel.procs.state 0 = .free := by
  induction hsteps with
  | refl => exact ⟨hl, hfree⟩
  | tail _ hstep ih => exact ⟨hstep.sound ih.1, hstep.free_zero ih.1 ih.2⟩

/-- Slot 0 is free, whatever has become of the kernel since it booted. -/
theorem Reachable.free_zero (h : Reachable loader k) : k.procs.state 0 = .free := by
  induction h with
  | boot hok =>
    rw [ProcessTable.state_eq, boot_slot_zero hok]
    rfl
  | @call k k' hk hcall ih =>
    have hsound := hk.sound
    cases hcall with
    | @load pid name hpid hlt hok =>
      obtain ⟨-, program, s, rfl, -, -, -, -, hslot⟩ :=
        (load_ends (E := fun _ => True) hsound hlt fun _ _ => trivial).eq_ok hok
      rw [ProcessTable.state_eq, hslot 0 (Nat.ne_of_lt hpid), ← ProcessTable.state_eq]
      exact ih
    | @run pid turn hok =>
      have hstep : Loop.Step (fun s _ => (false, s)) ⟨(), .run pid, k⟩ ⟨(), turn, k'⟩ :=
        .run rfl hok
      exact hstep.free_zero hsound ih
    | @runUntil _ stop s res hok =>
      obtain ⟨ending, s'⟩ := res
      obtain ⟨l, ⟨next, k0, hresume, hsteps⟩, hend⟩ := Loop.of_runUntil hok
      obtain rfl := resume_same hresume
      obtain ⟨hl, hfree⟩ := Loop.steps_free_zero hsteps hsound ih
      cases ending with
      | condition => exact hend.2 ▸ hfree
      | idle =>
        rw [((idle_ends (E := fun _ => True) hl _).eq_ok hend.2.2).procs]
        exact hfree
    | idle hok =>
      rw [((idle_ends (E := fun _ => True) hsound _).eq_ok hok).procs]
      exact ih

/-! ### Waiting -/

namespace Loop

/-- Whom the scheduler chooses at the end of a turn, if it is asked. -/
def choice (trap : Trap) (regs : Registers) : Turn → List Pid
  | .run pid => if AsksScheduler trap regs then [pid] else []
  | .idle => []

/-- Running until the condition holds has come to `l`, and process `p` can run all the while but has
not been given the turn by the scheduler. The traps since then are `traps` and the choices of the
scheduler `chosen`, the last ones first. It may begin anywhere, also with the turn of the process
itself or with the choice that the main loop begins with. -/
inductive Waits (stop : σ → Kernel → Bool × σ) (s : σ) (k : Kernel) (p : Pid) :
    List Trap → List Pid → Loop σ → Prop
  | here {l : Loop σ} : l.Execution stop s k → l.kernel.procs.state p = .runnable →
    Waits stop s k p [] [] l
  | first {c : Pid} : k.procs.state k.current ≠ .runnable → resume k = .ok (.run c) k →
    k.procs.state p = .runnable → Waits stop s k p [] [c] ⟨s, .run c, k⟩
  | turn {traps : List Trap} {chosen : List Pid} {s1 : σ} {q : Pid} {k1 kt : Kernel} {trap : Trap}
    {regs : Registers} {l' : Loop σ} : Waits stop s k p traps chosen ⟨s1, .run q, k1⟩ →
    (q = p → chosen = []) → runToTrap q k1 = .ok (trap, regs) kt →
    Step stop ⟨s1, .run q, k1⟩ l' → l'.kernel.procs.state p = .runnable →
    Waits stop s k p (trap :: traps) (choice trap regs l'.next ++ chosen) l'

/-- What holds while process `p` waits. Every choice is nearer to it than the one before. -/
structure Waiting (p : Pid) (traps : List Trap) (chosen : List Pid) (l : Loop σ) : Prop where
  sound : Sound l.kernel
  free_zero : l.kernel.procs.state 0 = .free
  runnable : l.kernel.procs.state p = .runnable
  next : ∃ q, l.next = .run q ∧ ∀ c ∈ chosen, turnsTo q p ≤ turnsTo c p
  nearer : chosen.Pairwise fun c c' => turnsTo c p < turnsTo c' p
  slot : ∀ c ∈ chosen, 1 ≤ c ∧ c < procCount
  timers : traps.count .timer ≤ chosen.length

variable {stop : σ → Kernel → Bool × σ} {s : σ} {l l' : Loop σ} {traps : List Trap}
  {chosen : List Pid}

/-- Where a process can run, some process has the turn. -/
theorem Execution.next_run (h : l.Execution stop s k) (hk : Sound k)
    (hrun : l.kernel.procs.state p = .runnable) : ∃ q, l.next = .run q := by
  obtain ⟨next, k0, hresume, hsteps⟩ := h
  obtain rfl := resume_same hresume
  cases hsteps with
  | refl =>
    by_cases hcurrent : k0.procs.state k0.current = .runnable
    · rw [resume_runnable hcurrent] at hresume
      cases hresume
      exact ⟨_, rfl⟩
    · rw [resume_other hcurrent] at hresume
      exact schedule_run hk.current hresume hrun
  | tail hsteps hstep =>
    have hl := Execution.sound ⟨next, k0, hresume, hsteps⟩ hk
    cases hstep with
    | run _ hok => exact run_next hl hok hrun
    | idle => exact ⟨_, rfl⟩

theorem Waiting.here (hl : Sound l.kernel) (hfree : l.kernel.procs.state 0 = .free)
    (hrun : l.kernel.procs.state p = .runnable) (hnext : ∃ q, l.next = .run q) :
    l.Waiting p [] [] where
  sound := hl
  free_zero := hfree
  runnable := hrun
  next := by
    obtain ⟨q, hq⟩ := hnext
    exact ⟨q, hq, nofun⟩
  nearer := .nil
  slot := nofun
  timers := le_rfl

/-- The scheduler chooses once more. Process `p` was not current, unless this is the first choice. -/
theorem Waiting.choose {c : Pid} (hk : Sound k) (hfree : k.procs.state 0 = .free)
    (hrun : k.procs.state p = .runnable) (hschedule : schedule k = .ok (.run c) k')
    (hbefore : ∀ c' ∈ chosen, k.current ≠ p ∧ turnsTo k.current p ≤ turnsTo c' p)
    (hnearer : chosen.Pairwise fun c c' => turnsTo c p < turnsTo c' p)
    (hslot : ∀ c ∈ chosen, 1 ≤ c ∧ c < procCount)
    (htimers : traps.count .timer ≤ chosen.length + 1) :
    Waiting p traps (c :: chosen) ⟨s, .run c, k⟩ := by
  have hnext := (schedule_eq_ok hschedule).2 c rfl
  obtain ⟨-, -, -, -, hc, -⟩ := ProcessTable.nextRunnable_some hnext
  have hless : ∀ c' ∈ chosen, turnsTo c p < turnsTo c' p := fun c' hc' => by
    obtain ⟨hne, hle⟩ := hbefore c' hc'
    exact lt_of_lt_of_le (ProcessTable.nextRunnable_nearer hk.current hrun hne hnext) hle
  have hzero : c ≠ 0 := by
    rintro rfl
    exact nomatch hfree.symm.trans hc
  refine ⟨hk, hfree, hrun, ⟨c, rfl, fun c' hc' => ?_⟩, .cons hless hnearer, fun c' hc' => ?_, htimers⟩
  · rcases List.mem_cons.mp hc' with rfl | hc'
    · exact le_rfl
    · exact (hless c' hc').le
  · rcases List.mem_cons.mp hc' with rfl | hc'
    · exact ⟨Nat.one_le_iff_ne_zero.mpr hzero, ProcessTable.nextRunnable_lt hnext⟩
    · exact hslot c' hc'

/-- **While a process waits**, the scheduler comes nearer to it with every choice. -/
theorem Waits.waiting (h : Waits stop s k p traps chosen l) (hk : Sound k)
    (hfree : k.procs.state 0 = .free) : l.Waiting p traps chosen := by
  induction h with
  | here hexec hrun =>
    have hnext := hexec.next_run hk hrun
    obtain ⟨next, k0, hresume, hsteps⟩ := hexec
    obtain rfl := resume_same hresume
    obtain ⟨hl, hfree'⟩ := steps_free_zero hsteps hk hfree
    exact .here hl hfree' hrun hnext
  | first hcurrent hresume hrun =>
    rw [resume_other hcurrent] at hresume
    exact .choose hk hfree hrun hresume nofun .nil nofun (Nat.zero_le _)
  | @turn traps chosen s1 q k1 kt trap regs l' _ hq htrap hstep hrun ih =>
    obtain ⟨hl, hfree1, -, ⟨q', hq', hle⟩, hnearer, hslot, htimers⟩ := ih
    have hl' := hstep.sound hl
    have hfree' := hstep.free_zero hl hfree1
    cases hq'
    cases hstep with
    | run _ hok =>
      obtain ⟨c, rfl⟩ := run_next hl hok hrun
      obtain ⟨trap', regs', _, htrap', hcurrent, hturn⟩ := run_chooses hl hok
      rw [htrap] at htrap'
      cases htrap'
      unfold choice
      dsimp only
      split
      · next hasks =>
        rw [if_pos hasks] at hturn
        show Waiting p (trap :: traps) (c :: chosen) _
        refine .choose hl' hfree' hrun hturn (fun c' hc' => ?_) hnearer hslot ?_
        · rw [hcurrent]
          exact ⟨fun heq => List.ne_nil_of_mem hc' (hq heq), hle c' hc'⟩
        · rw [List.count_cons]
          split <;> omega
      · next hasks =>
        rw [if_neg hasks] at hturn
        obtain ⟨-, hsame⟩ := hturn
        cases hsame
        refine ⟨hl', hfree', hrun, ⟨q, rfl, hle⟩, hnearer, hslot, ?_⟩
        rwa [List.count_cons_of_ne fun heq => hasks (.inl heq)]

theorem Waits.step (h : Waits stop s k p traps chosen l) (hk : Sound k)
    (hfree : k.procs.state 0 = .free) (hstep : Step stop l l') (hp : l.next = .run p → chosen = [])
    (hrun : l'.kernel.procs.state p = .runnable) : ∃ q trap regs kt, l.next = .run q ∧
      runToTrap q l.kernel = .ok (trap, regs) kt ∧
      Waits stop s k p (trap :: traps) (choice trap regs l'.next ++ chosen) l' := by
  have hwaiting := h.waiting hk hfree
  obtain ⟨q, hq, -⟩ := hwaiting.next
  obtain ⟨s1, next, k1⟩ := l
  obtain rfl : next = .run q := hq
  cases hstep with
  | @run _ _ _ _ _ _ hstop hok =>
    obtain ⟨trap, regs, kt, htrap, -⟩ := run_chooses hwaiting.sound hok
    exact ⟨q, trap, regs, kt, rfl, htrap,
      h.turn (fun heq => hp (heq ▸ rfl)) htrap (.run hstop hok) hrun⟩

end Loop

/-! ### Round robin -/

/-- **The scheduler goes around.** As long as process `p` can run, it chooses nobody twice before
it, and that is over before it has chosen as often as there are slots. So it is in the main loop of
every kernel that comes from a boot, where there are also fewer timer interrupts until then. -/
theorem round_robin (p : Pid) :
    (∀ (choice : Nat → Pid) (tables : Nat → ProcessTable) (k : Nat), choice 0 < procCount →
      (∀ i < k, (tables (i + 1)).nextRunnable (choice i) = .ok (some (choice (i + 1)))) →
      (∀ i < k, (tables (i + 1)).state p = .runnable) → (∀ i < k, choice (i + 1) ≠ p) →
      (∀ i j, 1 ≤ i → i < j → j ≤ k → choice i ≠ choice j) ∧ k < procCount) ∧
    ∀ (loader : Loader) (k : Kernel), Reachable loader k →
      ∀ (σ : Type) (stop : σ → Kernel → Bool × σ) (s : σ) (traps : List Trap) (chosen : List Pid)
        (l : Loop σ), Loop.Waits stop s k p traps chosen l →
      chosen.Nodup ∧ traps.count .timer < procCount := by
  constructor
  · intro choice tables k h0 hnext hrun hne
    have hadd : ∀ i, 1 ≤ i → ∀ d, i + d ≤ k →
        turnsTo (choice (i + d)) p + d ≤ turnsTo (choice i) p :=
      fun i hi => ProcessTable.turnsTo_add_le h0 hrun hnext hne hi
    refine ⟨fun i j hi hij hj heq => ?_, ?_⟩
    · have hle := hadd i hi (j - i) (by omega)
      rw [Nat.add_sub_cancel' hij.le, heq] at hle
      omega
    · rcases Nat.eq_zero_or_pos k with rfl | hpos
      · decide
      obtain ⟨j, rfl⟩ := Nat.exists_eq_succ_of_ne_zero (Nat.ne_of_gt hpos)
      have hlast := ProcessTable.nextRunnable_lt (hnext j (Nat.lt_succ_self j))
      have hp : p < procCount := ProcessTable.lt_of_state (by
        rw [hrun j (Nat.lt_succ_self j)]
        nofun)
      have hfar := turnsTo_pos hlast hp (hne j (Nat.lt_succ_self j))
      have hle := hadd 1 le_rfl j (by omega)
      have hlt := turnsTo_lt (choice 1) p
      rw [Nat.add_comm 1 j] at hle
      omega
  · intro loader k hk σ stop s traps chosen l hwaits
    have hwaiting := hwaits.waiting hk.sound hk.free_zero
    have hnodup : chosen.Nodup := hwaiting.nearer.imp fun hlt heq => by
      rw [heq] at hlt
      exact Nat.lt_irrefl _ hlt
    have hsub : chosen ⊆ ProcessTable.pids.drop 1 := fun c hc =>
      ProcessTable.mem_pids_drop.mpr (hwaiting.slot c hc)
    have hlen : chosen.length ≤ (ProcessTable.pids.drop 1).length :=
      (hnodup.subperm hsub).length_le
    exact ⟨hnodup, lt_of_le_of_lt (hwaiting.timers.trans hlen) (by decide)⟩

/-- Of four programs that run into the null page the third waits, while the scheduler chooses the
first and whoever comes after the fault of that. -/
theorem round_robin_null : ∃ k trap chosen l, boot nullLoader none = .ok k ∧
    (∀ i < 2, k.procs.nextRunnable i = .ok (some (i + 1))) ∧
    Loop.Waits (fun s _ => (false, s)) () k 3 [trap] (chosen ++ [1]) l ∧ 1 ≠ 2 ∧
    (chosen ++ [1]).Nodup := by
  obtain ⟨k, hboot, hcount, hcurrent, hfree, -, hall⟩ := boot_null
  have hreach : Reachable nullLoader k := .boot hboot
  obtain ⟨hrun1, hrip1⟩ := hall 1 le_rfl (by decide)
  obtain ⟨hrun2, -⟩ := hall 2 (by decide) (by decide)
  obtain ⟨hrun3, -⟩ := hall 3 (by decide) (by decide)
  have hnext : ∀ i < 2, k.procs.nextRunnable i = .ok (some (i + 1)) := fun i hi => by
    have hlt : i + 1 < procCount := lt_of_le_of_lt hi (by decide)
    have hle : i + 1 ≤ 4 := le_trans hi (by decide)
    exact ProcessTable.nextRunnable_succ hlt (hall (i + 1) (Nat.le_add_left 1 i) hle).1
  have hidle : k.procs.state k.current ≠ .runnable := by
    rw [hcurrent, hfree]
    nofun
  have hresume : resume k = .ok (.run 1) k := by
    rw [resume_other hidle]
    exact schedule_succ hcurrent (by decide) hrun1
  have hfirst : Loop.Waits (fun s _ => (false, s)) () k 3 [] [1] ⟨(), .run 1, k⟩ :=
    .first hidle hresume hrun3
  obtain ⟨turn, k', hok, -⟩ := run_null hreach.sound hrun1 hrip1 (by rw [hcount]; decide)
  have hspares : Userland.Spares 3 k.toUserland k'.toUserland :=
    (run_ok hreach.sound hok).2 3 (by decide) (by rw [hrun3]; nofun)
  have hrun3' : k'.procs.state 3 = .runnable := hspares.state.trans hrun3
  obtain ⟨q, trap, regs, kt, -, -, hwaits⟩ :=
    hfirst.step hreach.sound hfree (.run rfl hok) nofun hrun3'
  have htwice := (round_robin 3).1 id (fun _ => k.procs) 2 (by decide) hnext (fun _ _ => hrun3)
    (by decide)
  exact ⟨k, trap, _, _, hboot, hnext, hwaits, htwice.1 1 2 le_rfl one_lt_two le_rfl,
    ((round_robin 3).2 _ k hreach _ _ _ _ _ _ hwaits).1⟩

end Kernel
end PagedKernel
