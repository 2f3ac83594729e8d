import Mathlib.Logic.Relation
import PagedKernel.Proofs.Spaces.Confinement
import PagedKernel.Proofs.Spaces.Execution

/-!
# The timer counts every attempt

A run ticks the timer before each instruction that it attempts (`Core.Ticked`), so it ends after as
many ticks as the timer has left to count, and one more. One timer serves any number of runs, of any
programs in any memory (`Timer.Serves`). Whatever the traps that end them, what has been attempted
and what is left to count make up one quantum more than the timer interrupts do. So the programs
attempt just a quantum of instructions between two timer interrupts.

Key definitions: `Core.WalksInside`, `Core.Ticked`, `Timer.Serves`.
Key theorems: `Core.run_of_walksInside`, `Core.Ticked.conserves`, `Timer.Serves.balanced`,
`Timer.Serves.between`.
-/

namespace PagedKernel

namespace Core

variable {n : Nat} {c c' d : Core n} {timer timer' : Timer} {trap : Trap} {ticks attempts : Nat}

/-! ### Walks that stay inside -/

/-- No walk of the program leaves the memory. -/
def WalksInside (c : Core n) : Prop :=
  ∀ va, va.Canonical → ∀ access, ∃ res, c.seen va access = .ok res

/-- The program comes from `c` to `d` by completing instructions. -/
def Reaches : Core n → Core n → Prop :=
  Relation.ReflTransGen fun c d => c.step = .ok (none, d)

/-- The code of a fault that a program meets says so. -/
theorem byUser_of_locate {m : Memory n} {cr3 : PhysAddr} {va : VirtAddr} {access : Access}
    {code : UInt64} (h : m.locate cr3 va access true = .ok (.error code)) :
    code &&& faultUser ≠ 0 := by
  unfold Memory.locate at h
  cases hres : m.resolve va levels ⟨cr3, true, true⟩ with
  | error e =>
    rw [hres] at h
    cases h
  | ok found =>
    rw [hres] at h
    cases found with
    | none =>
      cases h
      exact (missingPageCode_user access).1
    | some r =>
      dsimp only [bind, Except.bind] at h
      split at h
      · cases h
        exact (missingPageCode_user access).2
      · cases h

theorem WalksInside.locates (h : c.WalksInside) : c.Locates := by
  intro addr access
  unfold Core.locate
  cases hva : VirtAddr.ofWord? addr with
  | none => exact .throw trivial
  | some va =>
    obtain ⟨res, hseen⟩ := h va (VirtAddr.canonical_of_ofWord? hva) access
    cases res with
    | error code =>
      have hlocate := seen_eq_error.mp hseen
      refine .bind (.lift (Q := fun res => res = .error code) hlocate rfl) ?_
      rintro _ rfl
      exact .throw (byUser_of_locate hlocate)
    | ok b =>
      obtain ⟨pa, hlocate, hread⟩ := seen_eq_ok.mp hseen
      refine .bind (.lift (Q := fun res => res = .ok pa) hlocate rfl) ?_
      rintro _ rfl
      exact .pure (Memory.lt_of_readByte hread)

/-- A program that locates whatever it accesses has no walk that leaves the memory. -/
theorem Locates.walksInside (h : c.Locates) : c.WalksInside := by
  intro va hva access
  obtain ⟨res, hres, hq⟩ := h va.val access
  have hword : VirtAddr.ofWord? va.val = some va := hva
  unfold Core.locate at hres
  rw [hword] at hres
  dsimp only at hres
  cases hlocate : c.memory.locate c.cr3 va access true with
  | error e =>
    rw [hlocate] at hres
    cases hres
  | ok found =>
    rw [hlocate] at hres
    cases found with
    | error code => exact ⟨_, seen_eq_error.mpr hlocate⟩
    | ok pa =>
      cases hres
      exact ⟨_, seen_eq_ok.mpr ⟨pa, hlocate, c.memory.readByte_of_lt hq⟩⟩

theorem RunsIn.walksInside [Addressable n] {g : Shape} {f : Frames n} {r : Nat}
    (h : RunsIn g f r c) {d : Core n} (hd : c.Reaches d) : d.WalksInside := by
  have hend : RunsIn g f r d := by
    induction hd with
    | refl => exact h
    | tail _ hstep ih =>
      obtain ⟨_, _, hstep', hruns, -⟩ := ih.step
      rw [hstep] at hstep'
      cases hstep'
      exact hruns
  exact hend.locates.walksInside

theorem writeAll_ok : ∀ (l : List (PhysAddr × UInt8)) (m : Memory n),
    (∀ p ∈ l, p.1.pageNumber < n) → ∃ m', writeAll m l = .ok m'
  | [], m, _ => ⟨m, rfl⟩
  | (pa, v) :: rest, m, h => by
    obtain ⟨m', hm'⟩ := writeAll_ok rest (m.putByte pa.toNat v) fun p hp =>
      h p (List.mem_cons_of_mem _ hp)
    refine ⟨m', ?_⟩
    rw [Core.writeAll, m.writeByte_of_lt v (h _ List.mem_cons_self)]
    exact hm'

theorem Locates.store (h : c.Locates) (addr : UInt64) (data : List UInt8) :
    Completes (c.store addr data) fun _ => True := by
  refine .bind (writeTargets_completes (fun addr => h addr .write) addr data.length) ?_
  intro targets htargets
  obtain ⟨m, hm⟩ := writeAll_ok (targets.zip data) c.memory fun p hp =>
    htargets p.1 (List.of_mem_zip hp).1
  exact .bind (.lift (Q := fun _ => True) hm trivial) fun _ _ => .pure trivial

/-- If no walk leaves the memory, an instruction does not halt the machine. -/
theorem WalksInside.step (h : c.WalksInside) : ∃ trap d, c.step = .ok (trap, d) := by
  obtain ⟨res, hres, -⟩ := h.locates.execute (Q := fun _ => True) trivial (fun _ _ _ => trivial)
    h.locates.store
  unfold Core.step
  rw [hres]
  rcases res with fault | ⟨_ | _, d⟩
  · exact ⟨_, _, rfl⟩
  · exact ⟨_, _, rfl⟩
  · exact ⟨_, _, rfl⟩

/-! ### Ticks -/

/-- A run from `c` with the timer `timer`, as the processor does it: the timer ticks before each
instruction. It ends in the trap `trap` on the core `d`, after so many ticks and attempts. -/
inductive Ticked : Core n → Timer → Trap → Core n → Timer → Nat → Nat → Prop
  | fires {c : Core n} {timer timer' : Timer} : timer.tick = (true, timer') →
    Ticked c timer .timer c timer' 1 0
  | traps {c d : Core n} {timer timer' : Timer} {trap : Trap} : timer.tick = (false, timer') →
    c.step = .ok (some trap, d) → Ticked c timer trap d timer' 1 1
  | next {c c1 d : Core n} {timer timer1 timer' : Timer} {trap : Trap} {ticks attempts : Nat} :
    timer.tick = (false, timer1) → c.step = .ok (none, c1) →
    Ticked c1 timer1 trap d timer' ticks attempts →
    Ticked c timer trap d timer' (ticks + 1) (attempts + 1)

/-- What a run attempts is taken from the count, until that starts over. -/
structure Conserves (timer : Timer) (trap : Trap) (timer' : Timer) (ticks attempts : Nat) :
    Prop where
  quantum : timer'.quantum = timer.quantum
  acked : timer'.acked = timer.acked
  ticks : ticks ≤ timer.count + 1
  fired : trap = .timer → attempts = timer.count ∧ timer'.count = timer.quantum
  other : trap ≠ .timer → attempts + timer'.count = timer.count

/-- **A run keeps the books of the timer.** -/
theorem Ticked.conserves (h : Ticked c timer trap d timer' ticks attempts) :
    Conserves timer trap timer' ticks attempts := by
  induction h with
  | @fires _ timer _ htick =>
    by_cases hzero : timer.count = 0
    · rw [Timer.tick, if_pos hzero] at htick
      cases htick
      exact ⟨rfl, rfl, by omega, fun _ => ⟨hzero.symm, rfl⟩, fun hne => absurd rfl hne⟩
    · rw [Timer.tick, if_neg hzero] at htick
      cases htick
  | @traps _ _ timer _ trap htick hstep =>
    have hne := step_ne_timer hstep
    by_cases hzero : timer.count = 0
    · rw [Timer.tick, if_pos hzero] at htick
      cases htick
    · rw [Timer.tick, if_neg hzero] at htick
      cases htick
      exact ⟨rfl, rfl, by omega, fun heq => absurd heq hne, fun _ => by dsimp only; omega⟩
  | @next _ _ _ timer _ _ trap _ _ htick _ _ ih =>
    obtain ⟨hquantum, hacked, hticks, htimer, hother⟩ := ih
    by_cases hzero : timer.count = 0
    · rw [Timer.tick, if_pos hzero] at htick
      cases htick
    · rw [Timer.tick, if_neg hzero] at htick
      cases htick
      dsimp only at hticks htimer hother
      refine ⟨hquantum, hacked, by omega, fun heq => ?_, fun hne => ?_⟩
      · obtain ⟨hattempts, hcount⟩ := htimer heq
        exact ⟨by omega, hcount⟩
      · have hsum := hother hne
        omega

theorem ticked_of_runFor {left : Nat} : ∀ {count : Nat} {c : Core n} {timer : Timer},
    timer.count = count → runFor timer.quantum count c = .ok (trap, left, d) →
    ∃ ticks attempts, Ticked c timer trap d { timer with count := left } ticks attempts
  | 0, c, timer, hcount, h => by
    cases h
    refine ⟨1, 0, .fires ?_⟩
    rw [Timer.tick, if_pos hcount]
  | count + 1, c, timer, hcount, h => by
    have htick : timer.tick = (false, { timer with count := count }) := by
      rw [Timer.tick, if_neg (by omega), hcount, Nat.add_sub_cancel]
    rw [runFor] at h
    cases hstep : c.step with
    | error e =>
      rw [hstep] at h
      cases h
    | ok res =>
      obtain ⟨_ | trap', c1⟩ := res
      · rw [hstep] at h
        have hcount' : { timer with count := count }.count = count := rfl
        obtain ⟨ticks, attempts, hrest⟩ := ticked_of_runFor hcount' h
        exact ⟨ticks + 1, attempts + 1, .next htick hstep hrest⟩
      · rw [hstep] at h
        cases h
        exact ⟨1, 1, .traps htick hstep⟩

/-- **A run is ticking**, and then recording the trap. -/
theorem ticked_of_run (h : c.run timer = .ok (trap, c', timer')) : ∃ d ticks attempts,
    Ticked c timer trap d timer' ticks attempts ∧
      c' = { d with regs := { d.regs with vector := trap.code } } := by
  obtain ⟨left, d, hrun, hc', rfl⟩ := run_eq_ok h
  obtain ⟨ticks, attempts, hticked⟩ := ticked_of_runFor rfl hrun
  exact ⟨d, ticks, attempts, hticked, hc'⟩

theorem runFor_ok (quantum : Nat) : ∀ (count : Nat) {c : Core n},
    (∀ d, c.Reaches d → d.WalksInside) →
    ∃ trap left d, runFor quantum count c = .ok (trap, left, d)
  | 0, c, _ => ⟨_, _, _, rfl⟩
  | count + 1, c, h => by
    obtain ⟨trap, c1, hstep⟩ := (h c .refl).step
    cases trap with
    | none =>
      obtain ⟨trap, left, d, hrun⟩ := runFor_ok quantum count
        fun d hd => h d (.head hstep hd)
      refine ⟨trap, left, d, ?_⟩
      rw [runFor, hstep]
      exact hrun
    | some trap =>
      refine ⟨trap, count, c1, ?_⟩
      rw [runFor, hstep]
      rfl

/-- **A run ends** if no walk of the program leaves the memory as long as it goes on. -/
theorem run_of_walksInside (h : ∀ d, c.Reaches d → d.WalksInside) (timer : Timer) :
    ∃ trap c' timer', c.run timer = .ok (trap, c', timer') := by
  obtain ⟨trap, left, d, hrun⟩ := runFor_ok timer.quantum timer.count h
  refine ⟨trap, { d with regs := { d.regs with vector := trap.code } },
    { timer with count := left }, ?_⟩
  unfold run
  rw [hrun]
  rfl

end Core

/-! ### Many runs -/

namespace Timer

variable {rate : Nat} {timer : Timer} {calls : List (Trap × Nat)}

/-- A timer of rate `rate` has come to be `timer`. The runs that it has served so far, the last one
first, have ended in these traps, after so many attempts each. Between them anything may have become
of the memory and the registers; an interrupt may have been acknowledged at any time. -/
inductive Serves (rate : Nat) : Timer → List (Trap × Nat) → Prop
  | start {timer : Timer} : ofRate rate = .ok timer → Serves rate timer []
  | run {timer timer' : Timer} {calls : List (Trap × Nat)} {n : Nat} {c c' d : Core n} {trap : Trap}
    {ticks attempts : Nat} : Serves rate timer calls → c.run timer = .ok (trap, c', timer') →
    Core.Ticked c timer trap d timer' ticks attempts →
    Serves rate timer' ((trap, attempts) :: calls)
  | ack {timer : Timer} {calls : List (Trap × Nat)} : Serves rate timer calls →
    Serves rate timer.ack calls

/-- The instructions that the runs have attempted. -/
def attempted (calls : List (Trap × Nat)) : Nat :=
  (calls.map (·.2)).sum

/-- The timer interrupts that they have ended in. -/
def interrupts (calls : List (Trap × Nat)) : Nat :=
  (calls.map (·.1)).count .timer

theorem attempted_cons (call : Trap × Nat) (calls : List (Trap × Nat)) :
    attempted (call :: calls) = call.2 + attempted calls := by
  simp [attempted]

theorem interrupts_cons (call : Trap × Nat) (calls : List (Trap × Nat)) :
    interrupts (call :: calls) = interrupts calls + if call.1 = .timer then 1 else 0 := by
  simp [interrupts, List.count_cons]

/-- A timer can have any rate that the machine allows for, and has something to count then. -/
theorem ofRate_ok {rate : Nat} (hpos : 0 < rate) (hle : rate ≤ instructionsPerSecond) :
    ∃ quantum, 0 < quantum ∧ ofRate rate = .ok ⟨quantum, quantum, 0⟩ :=
  ⟨instructionsPerSecond / rate, Nat.div_pos hle hpos, if_pos ⟨hpos, hle⟩⟩

/-- The timer has served the runs `calls` since it started with the quantum that it has. -/
structure Balanced (rate : Nat) (timer : Timer) (calls : List (Trap × Nat)) : Prop where
  started : ofRate rate = .ok ⟨timer.quantum, timer.quantum, 0⟩
  count_le : timer.count ≤ timer.quantum
  balance : attempted calls + timer.count = (interrupts calls + 1) * timer.quantum

namespace Serves

/-- **Attempts are conserved.** -/
theorem balanced (h : Serves rate timer calls) : Balanced rate timer calls := by
  induction h with
  | @start timer hstart =>
    unfold ofRate at hstart
    split at hstart
    · next hrate =>
      cases hstart
      exact ⟨if_pos hrate, le_rfl, by simp [attempted, interrupts]⟩
    · cases hstart
  | @run timer timer' calls n c c' d trap ticks attempts _ _ hticked ih =>
    obtain ⟨hstarted, hle, hbalance⟩ := ih
    obtain ⟨hquantum, -, -, hfired, hother⟩ := hticked.conserves
    rw [← hquantum] at hstarted hle hbalance hfired
    by_cases htrap : trap = .timer
    · obtain ⟨rfl, hcount⟩ := hfired htrap
      refine ⟨hstarted, hcount.le, ?_⟩
      rw [attempted_cons, interrupts_cons, if_pos htrap, hcount, Nat.succ_mul, ← hbalance]
      dsimp only
      omega
    · have hsum := hother htrap
      refine ⟨hstarted, by omega, ?_⟩
      rw [attempted_cons, interrupts_cons, if_neg htrap, Nat.add_zero, ← hbalance]
      dsimp only
      omega
  | ack _ ih => exact ⟨ih.started, ih.count_le, ih.balance⟩

theorem count_of_fired {attempts : Nat} {later : List (Trap × Nat)} (h : Serves rate timer later)
    (heq : later = (.timer, attempts) :: calls) : timer.count = timer.quantum := by
  induction h with
  | start _ => cases heq
  | run _ _ hticked _ =>
    cases heq
    have hconserves := hticked.conserves
    rw [hconserves.quantum]
    exact (hconserves.fired rfl).2
  | ack _ ih => exact ih heq

theorem earlier {all : List (Trap × Nat)} (h : Serves rate timer all) :
    ∀ {later : List (Trap × Nat)}, all = later ++ calls →
      ∃ timer1, Serves rate timer1 calls ∧ timer1.quantum = timer.quantum := by
  induction h with
  | @start timer hstart =>
    intro later heq
    obtain ⟨-, rfl⟩ := List.append_eq_nil_iff.mp heq.symm
    exact ⟨timer, .start hstart, rfl⟩
  | @run timer timer' calls n c c' d trap ticks attempts hserves hrun hticked ih =>
    intro later heq
    cases later with
    | nil =>
      obtain rfl := heq.symm
      exact ⟨timer', .run hserves hrun hticked, rfl⟩
    | cons call later =>
      obtain ⟨-, hrest⟩ := List.cons.inj heq
      obtain ⟨timer1, h1, hquantum⟩ := ih hrest
      exact ⟨timer1, h1, hquantum.trans hticked.conserves.quantum.symm⟩
  | ack hserves ih =>
    intro later heq
    exact ih heq

/-- **Between two timer interrupts** a quantum of instructions is attempted, whatever other traps
there are. -/
theorem between {later mid before : List (Trap × Nat)} {a b : Nat}
    (h : Serves rate timer (later ++ (.timer, a) :: (mid ++ (.timer, b) :: before)))
    (hmid : ∀ call ∈ mid, call.1 ≠ .timer) : a + attempted mid = timer.quantum := by
  obtain ⟨timer2, h2, hquantum2⟩ := h.earlier rfl
  have hsplit : (Trap.timer, a) :: (mid ++ (Trap.timer, b) :: before) =
      ((Trap.timer, a) :: mid) ++ (Trap.timer, b) :: before := rfl
  obtain ⟨timer1, h1, hquantum1⟩ := h2.earlier hsplit
  have hbalance2 := h2.balanced.balance
  have hbalance1 := h1.balanced.balance
  rw [h2.count_of_fired rfl, hquantum2] at hbalance2
  rw [h1.count_of_fired rfl, hquantum1, hquantum2] at hbalance1
  have hnone : interrupts mid = 0 := by
    refine List.count_eq_zero.mpr fun hmem => ?_
    obtain ⟨call, hcall, heq⟩ := List.mem_map.mp hmem
    exact hmid call hcall heq
  have hattempted : attempted (mid ++ (.timer, b) :: before) =
      attempted mid + attempted ((.timer, b) :: before) := by
    simp [attempted]
  have hinterrupts : interrupts (mid ++ (.timer, b) :: before) =
      interrupts mid + interrupts ((.timer, b) :: before) := by
    simp [interrupts]
  rw [attempted_cons, interrupts_cons, if_pos rfl, hattempted, hinterrupts, hnone, Nat.zero_add,
    Nat.succ_mul] at hbalance2
  dsimp only at hbalance2
  omega

end Serves

end Timer

end PagedKernel
