import Mathlib.Algebra.BigOperators.Group.List.Basic
import Mathlib.Algebra.Order.BigOperators.Group.List
import Mathlib.Algebra.Order.Group.Nat
import Mathlib.Data.Nat.Cast.Basic
import PagedKernel.SpinLock

/-!
# The spin lock excludes, and loses nothing

Any number of contexts share a lock, and take their steps in any order. One equation carries the
safety of the lock through every step: one guard exists if the flag is set, and none if it is not
(`Contest.Guarded`). Both ways to ask for the lock are `SpinLock.tryLock`, so whoever is given it
finds that there was no guard, and whoever is refused it finds that there was one.

For the value, let every context add an amount of its own. Only the context with the guard is
between its reading and its writing, so what it has read is still the value when it writes, and the
value together with the amounts that are not yet written stays what it was (`Contest.Adding`).

Key definitions: `Contest.guards`, `Contest.Guarded`, `Contest.Exclusive`, `Contest.Stage`,
`Contest.Adding`.
Key theorems: `Context.step_lock`, `Context.step_tryLock`, `Contest.guarded_run`,
`Contest.Guarded.exclusive`, `Contest.Adding.step`, `Contest.Adding.value_eq`,
`Contest.Adding.exists_finished`, `Contest.lock_excludes`.
-/

namespace PagedKernel

variable {α : Type}

/-- The sum over a list, as one part and the rest, with that part exchanged. -/
theorem exists_sum_map_set [AddCommMonoid α] {β : Type} (f : β → α) {l : List β} {i : ℕ} {x : β}
    (h : l[i]? = some x) :
    ∃ rest, (l.map f).sum = rest + f x ∧ ∀ y, ((l.set i y).map f).sum = rest + f y := by
  obtain ⟨hi, rfl⟩ := List.getElem?_eq_some_iff.mp h
  have hset : ∀ y, ((l.set i y).map f).sum =
      ((l.map f).take i).sum + ((l.map f).drop (i + 1)).sum + f y := by
    intro y
    rw [List.map_set, List.sum_set, if_pos (by simpa using hi), add_right_comm]
  refine ⟨_, ?_, hset⟩
  rw [← hset, List.set_getElem_self]

/-! ### Guards -/

theorem SpinLock.tryLock_eq (l : SpinLock α) :
    l.tryLock = if l.locked then none else some { l with locked := true } := by
  unfold tryLock swap
  cases l.locked <;> rfl

namespace Context

/-- A context that waits for the lock tries to take it. If it is refused, it leaves the lock as it
is: the flag was set already. -/
theorem step_lock (l : SpinLock α) {held : ℕ} (next : Task α (held + 1)) :
    step l ⟨held, .lock next⟩ = match l.tryLock with
      | none => (⟨held, .watch next⟩, l)
      | some l => (⟨held + 1, next⟩, l) := by
  obtain ⟨locked, value⟩ := l
  cases locked <;> rfl

theorem step_tryLock (l : SpinLock α) {held : ℕ} (taken : Task α (held + 1))
    (refused : Task α held) :
    step l ⟨held, .tryLock taken refused⟩ = match l.tryLock with
      | none => (⟨held, refused⟩, l)
      | some l => (⟨held + 1, taken⟩, l) := by
  obtain ⟨locked, value⟩ := l
  cases locked <;> rfl

/-- The guards that a context takes or gives back in a step are what becomes of the flag, if the
flag is set for the guards that it has. -/
theorem step_balance (l : SpinLock α) (x : Context α) (h : x.held ≤ l.locked.toNat) :
    (x.step l).1.held + l.locked.toNat = x.held + (x.step l).2.locked.toNat := by
  obtain ⟨held, task⟩ := x
  obtain ⟨locked, value⟩ := l
  cases task with
  | fail => cases held <;> cases locked <;> simp_all [step, SpinLock.unlock]
  | _ => cases locked <;> simp_all [step, SpinLock.swap, SpinLock.set, SpinLock.unlock]

end Context

namespace Contest

/-- What a step of context `i` makes of a contest. -/
theorem step_of_getElem? {c : Contest α} {i : ℕ} {x : Context α} (h : c.contexts[i]? = some x) :
    c.step i = ⟨(x.step c.lock).2, c.contexts.set i (x.step c.lock).1⟩ := by
  simp [step, h]

theorem step_of_none {c : Contest α} {i : ℕ} (h : c.contexts[i]? = none) : c.step i = c := by
  simp [step, h]

theorem getElem?_step {c : Contest α} {i : ℕ} {x : Context α} (h : c.contexts[i]? = some x) :
    (c.step i).contexts[i]? = some (x.step c.lock).1 := by
  obtain ⟨hi, -⟩ := List.getElem?_eq_some_iff.mp h
  rw [step_of_getElem? h, List.getElem?_set_self hi]

/-- What every step keeps, a run keeps. -/
theorem run_induction {P : Contest α → Prop} (hstep : ∀ c i, P c → P (c.step i)) (schedule : List ℕ)
    {c : Contest α} (h : P c) : P (c.run schedule) := by
  induction schedule generalizing c with
  | nil => exact h
  | cons i schedule ih => exact ih (hstep c i h)

/-- The guards that exist. -/
def guards (c : Contest α) : ℕ :=
  (c.contexts.map Context.held).sum

/-- One guard exists if the flag is set, and none if it is not. -/
def Guarded (c : Contest α) : Prop :=
  c.guards = c.lock.locked.toNat

theorem guarded_start (value : α) (tasks : List (Task α 0)) : (start value tasks).Guarded := by
  simp [Guarded, guards, start, SpinLock.new, Function.comp_def]

theorem Guarded.step {c : Contest α} (h : c.Guarded) (i : ℕ) : (c.step i).Guarded := by
  cases hx : c.contexts[i]? with
  | none => rwa [step_of_none hx]
  | some x =>
    obtain ⟨rest, hbefore, hafter⟩ := exists_sum_map_set Context.held hx
    have hguards : rest + x.held = c.lock.locked.toNat := hbefore.symm.trans h
    have hbalance := x.step_balance c.lock (by omega)
    rw [step_of_getElem? hx]
    show ((c.contexts.set i (x.step c.lock).1).map Context.held).sum =
      (x.step c.lock).2.locked.toNat
    rw [hafter]
    omega

/-- However the contexts take their steps, the flag tells whether there is a guard. -/
theorem guarded_run (value : α) (tasks : List (Task α 0)) (schedule : List ℕ) :
    ((start value tasks).run schedule).Guarded :=
  run_induction (fun _ i h => h.step i) schedule (guarded_start value tasks)

theorem Guarded.guards_eq_zero_iff {c : Contest α} (h : c.Guarded) :
    c.guards = 0 ↔ c.lock.locked = false := by
  rw [h]
  cases c.lock.locked <;> decide

/-- Beside a context with a guard, no context has one. -/
theorem Guarded.held_eq_zero {c : Contest α} (h : c.Guarded) {i j : ℕ} {x y : Context α}
    (hx : c.contexts[i]? = some x) (hheld : x.held ≠ 0) (hij : i ≠ j)
    (hy : c.contexts[j]? = some y) : y.held = 0 := by
  obtain ⟨rest, hbefore, hafter⟩ := exists_sum_map_set Context.held hx
  have hguards : rest + x.held = c.lock.locked.toNat := hbefore.symm.trans h
  have hflag := c.lock.locked.toNat_le
  -- The guards of the others, with context `i` set to one that has none.
  have hmem : y ∈ c.contexts.set i ⟨0, .done⟩ :=
    List.mem_of_getElem? (by rw [List.getElem?_set_ne hij, hy])
  have hle : y.held ≤ rest + 0 := by
    rw [← hafter ⟨0, .done⟩]
    exact List.single_le_sum (fun _ _ => Nat.zero_le _) y.held (List.mem_map_of_mem hmem)
  omega

/-- What holds at every moment: there is one guard at most, the flag tells whether there is one, and
who asks for the lock is given a guard just if there is none. -/
structure Exclusive (c : Contest α) : Prop where
  guards_le_one : c.guards ≤ 1
  locked_iff : c.lock.locked = true ↔ c.guards ≠ 0
  /-- The exchange with which a context wants to take the lock. -/
  lock : ∀ i held next, c.contexts[i]? = some ⟨held, .lock next⟩ →
    (c.step i).contexts[i]? = some
      (if c.guards = 0 then ⟨held + 1, next⟩ else ⟨held, .watch next⟩)
  /-- The look at the flag of a context that was refused: it never takes the lock. -/
  watch : ∀ i held next, c.contexts[i]? = some ⟨held, .watch next⟩ →
    (c.step i).contexts[i]? = some
      ⟨held, if c.guards = 0 then .lock next else .watch next⟩
  /-- The exchange of a context that does not wait. -/
  tryLock : ∀ i held taken refused, c.contexts[i]? = some ⟨held, .tryLock taken refused⟩ →
    (c.step i).contexts[i]? = some
      (if c.guards = 0 then ⟨held + 1, taken⟩ else ⟨held, refused⟩)

theorem Guarded.exclusive {c : Contest α} (h : c.Guarded) : c.Exclusive where
  guards_le_one := by
    rw [h]
    exact Bool.toNat_le _
  locked_iff := by rw [ne_eq, h.guards_eq_zero_iff, Bool.not_eq_false]
  lock i held next hx := by
    rw [getElem?_step hx, Context.step_lock, SpinLock.tryLock_eq]
    cases hl : c.lock.locked <;> simp [h.guards_eq_zero_iff, hl]
  watch i held next hx := by
    rw [getElem?_step hx]
    cases hl : c.lock.locked <;> simp [Context.step, h.guards_eq_zero_iff, hl]
  tryLock i held taken refused hx := by
    rw [getElem?_step hx, Context.step_tryLock, SpinLock.tryLock_eq]
    cases hl : c.lock.locked <;> simp [h.guards_eq_zero_iff, hl]

end Contest

/-! ### Adding -/

/-- How far a context has come that adds an amount to the value. -/
inductive Contest.Stage
  | taking
  | watching
  | reading
  | writing
  | dropping
  | done
deriving DecidableEq

namespace Contest.Stage

/-- The context at a stage, with what is still to do. A context that is about to write has read the
value `value`. -/
def context [Add α] (value amount : α) : Stage → Context α
  | taking => ⟨0, .add amount⟩
  | watching => ⟨0, .watch (.read fun value => .write (value + amount) (.drop .done))⟩
  | reading => ⟨1, .read fun value => .write (value + amount) (.drop .done)⟩
  | writing => ⟨1, .write (value + amount) (.drop .done)⟩
  | dropping => ⟨1, .drop .done⟩
  | done => ⟨0, .done⟩

def next (locked : Bool) : Stage → Stage
  | taking => if locked then watching else reading
  | watching => if locked then watching else taking
  | reading => writing
  | writing => dropping
  | dropping => done
  | done => done

/-- What is not yet written of an amount. -/
def pending [Zero α] (amount : α) : Stage → α
  | dropping | done => 0
  | _ => amount

/-- The steps that are left if the lock is free. -/
def toGo : Stage → ℕ
  | done => 0
  | dropping => 1
  | writing => 2
  | reading => 3
  | taking => 4
  | watching => 5

/-- A step leads to the next stage, with what the value is then. -/
theorem context_step [Add α] (s : Stage) (l : SpinLock α) (amount : α) :
    ((s.context l.value amount).step l).1 =
      (s.next l.locked).context ((s.context l.value amount).step l).2.value amount := by
  obtain ⟨locked, value⟩ := l
  cases s <;> cases locked <;> rfl

/-- What a step adds to the value it takes from what is pending. -/
theorem value_step [AddCommMonoid α] (s : Stage) (l : SpinLock α) (amount : α) :
    ((s.context l.value amount).step l).2.value + (s.next l.locked).pending amount =
      l.value + s.pending amount := by
  obtain ⟨locked, value⟩ := l
  cases s <;> cases locked <;>
    simp [context, Task.add, Context.step, SpinLock.swap, SpinLock.set, SpinLock.unlock, next,
      pending]

/-- Without a guard, the value stays. -/
theorem value_step_of_held_eq_zero [Add α] {s : Stage} {l : SpinLock α} {amount : α}
    (h : (s.context l.value amount).held = 0) :
    ((s.context l.value amount).step l).2.value = l.value := by
  obtain ⟨locked, value⟩ := l
  cases s <;> cases locked <;> first | rfl | cases h

/-- Without a guard, a context knows nothing of the value. -/
theorem context_eq_of_held_eq_zero [Add α] {s : Stage} {value amount : α}
    (h : (s.context value amount).held = 0) (value' : α) :
    s.context value' amount = s.context value amount := by
  cases s <;> first | rfl | cases h

/-- A context with the guard comes closer to its end in each step, and so does every context that
has not ended if the lock is free. -/
theorem toGo_next_lt [Add α] {s : Stage} {value amount : α} {locked : Bool}
    (hheld : locked = true → (s.context value amount).held ≠ 0)
    (hdone : (s.context value amount).finished = false) : (s.next locked).toGo < s.toGo := by
  cases s <;> cases locked <;> first | decide | simp_all [context, Task.add, Context.finished]

end Contest.Stage

namespace Contest

section Amounts

variable [AddCommMonoid α]

/-- Every context adds its amount: `jobs` are the amounts and how far each context has come, and the
value makes `total` with what is not yet written. -/
structure Adding (total : α) (jobs : List (α × Stage)) (c : Contest α) : Prop where
  guarded : c.Guarded
  contexts_eq : c.contexts = jobs.map fun job => job.2.context c.lock.value job.1
  total_eq : c.lock.value + (jobs.map fun job => job.2.pending job.1).sum = total

theorem adding_start (value : α) (amounts : List α) :
    (start value (amounts.map .add)).Adding (value + amounts.sum)
      (amounts.map fun amount => (amount, .taking)) where
  guarded := guarded_start _ _
  contexts_eq := by simp [start, Stage.context]
  total_eq := by simp [start, SpinLock.new, Stage.pending, Function.comp_def]

namespace Adding

variable {total : α} {jobs : List (α × Stage)} {c : Contest α}

theorem getElem?_contexts (h : c.Adding total jobs) (i : ℕ) :
    c.contexts[i]? = jobs[i]?.map fun job => job.2.context c.lock.value job.1 := by
  rw [h.contexts_eq, List.getElem?_map]

theorem getElem?_of_job (h : c.Adding total jobs) {i : ℕ} {job : α × Stage}
    (hjob : jobs[i]? = some job) :
    c.contexts[i]? = some (job.2.context c.lock.value job.1) := by
  rw [h.getElem?_contexts, hjob, Option.map_some]

/-- A step brings its context to the next stage, and the others stay where they are: only a holder
changes the value, and then nobody else has read it. -/
theorem contexts_step (h : c.Adding total jobs) {i : ℕ} {amount : α} {stage : Stage}
    (hjob : jobs[i]? = some (amount, stage)) :
    (c.step i).contexts = (jobs.set i (amount, stage.next c.lock.locked)).map
      fun job => job.2.context (c.step i).lock.value job.1 := by
  have hx : c.contexts[i]? = some (stage.context c.lock.value amount) := h.getElem?_of_job hjob
  apply List.ext_getElem?
  intro j
  rw [step_of_getElem? hx, List.getElem?_map]
  by_cases hij : i = j
  · subst hij
    obtain ⟨hi, -⟩ := List.getElem?_eq_some_iff.mp hx
    obtain ⟨hi', -⟩ := List.getElem?_eq_some_iff.mp hjob
    rw [List.getElem?_set_self hi, List.getElem?_set_self hi', Option.map_some,
      Stage.context_step]
  · rw [List.getElem?_set_ne hij, List.getElem?_set_ne hij, h.getElem?_contexts]
    cases hother : jobs[j]? with
    | none => rfl
    | some other =>
      have hy : c.contexts[j]? = some (other.2.context c.lock.value other.1) :=
        h.getElem?_of_job hother
      simp only [Option.map_some, Option.some.injEq]
      by_cases hheld : (stage.context c.lock.value amount).held = 0
      · rw [Stage.value_step_of_held_eq_zero hheld]
      · exact (Stage.context_eq_of_held_eq_zero (h.guarded.held_eq_zero hx hheld hij hy) _).symm

/-- What a step adds to the value is no longer pending. -/
theorem total_step (h : c.Adding total jobs) {i : ℕ} {amount : α} {stage : Stage}
    (hjob : jobs[i]? = some (amount, stage)) :
    (c.step i).lock.value + ((jobs.set i (amount, stage.next c.lock.locked)).map
      fun job => job.2.pending job.1).sum = total := by
  have hx : c.contexts[i]? = some (stage.context c.lock.value amount) := h.getElem?_of_job hjob
  obtain ⟨rest, hbefore, hafter⟩ :=
    exists_sum_map_set (fun job : α × Stage => job.2.pending job.1) hjob
  calc (c.step i).lock.value + ((jobs.set i (amount, stage.next c.lock.locked)).map
          fun job => job.2.pending job.1).sum
      = rest + (((stage.context c.lock.value amount).step c.lock).2.value +
          (stage.next c.lock.locked).pending amount) := by
        rw [hafter, step_of_getElem? hx, add_left_comm]
    _ = c.lock.value + (rest + stage.pending amount) := by
        rw [Stage.value_step, add_left_comm]
    _ = total := by rw [← hbefore, h.total_eq]

theorem step (h : c.Adding total jobs) {i : ℕ} {job : α × Stage} (hjob : jobs[i]? = some job) :
    (c.step i).Adding total (jobs.set i (job.1, job.2.next c.lock.locked)) where
  guarded := h.guarded.step i
  contexts_eq := h.contexts_step hjob
  total_eq := h.total_step hjob

/-- However the contexts take their steps, every one of them is at some stage. -/
theorem run (h : c.Adding total jobs) (schedule : List ℕ) :
    ∃ jobs', (c.run schedule).Adding total jobs' := by
  refine run_induction (P := fun c => ∃ jobs, c.Adding total jobs) ?_ schedule ⟨jobs, h⟩
  rintro c i ⟨jobs, h⟩
  cases hjob : jobs[i]? with
  | none =>
    have hx : c.contexts[i]? = none := by rw [h.getElem?_contexts, hjob, Option.map_none]
    exact ⟨jobs, by rwa [step_of_none hx]⟩
  | some job => exact ⟨_, h.step hjob⟩

/-- **No amount is lost.** Once everyone is done, the value is the total. -/
theorem value_eq (h : c.Adding total jobs) (hfin : c.finished = true) : c.lock.value = total := by
  have hpending : ∀ amount ∈ jobs.map fun job => job.2.pending job.1, amount = 0 := by
    intro amount hmem
    obtain ⟨job, hjob, rfl⟩ := List.mem_map.mp hmem
    rw [finished, h.contexts_eq, List.all_eq_true] at hfin
    have hdone := hfin _ (List.mem_map_of_mem hjob)
    obtain ⟨amount, stage⟩ := job
    cases stage <;> simp_all [Stage.context, Stage.pending, Task.add, Context.finished]
  rw [← h.total_eq, List.sum_eq_zero hpending, add_zero]

/-- While somebody is not done, somebody can come closer to the end. -/
theorem exists_closer (h : c.Adding total jobs) (hfin : c.finished = false) :
    ∃ (i : ℕ) (job : α × Stage), jobs[i]? = some job ∧
      (job.2.next c.lock.locked).toGo < job.2.toGo := by
  cases hl : c.lock.locked with
  | false =>
    obtain ⟨x, hx, hdone⟩ := List.all_eq_false.mp hfin
    obtain ⟨job, hjob, rfl⟩ := List.mem_map.mp (h.contexts_eq ▸ hx)
    obtain ⟨i, hi⟩ := List.getElem?_of_mem hjob
    exact ⟨i, job, hi, Stage.toGo_next_lt (fun hfree => nomatch hfree)
      (Bool.eq_false_iff.mpr hdone)⟩
  | true =>
    have hguards : c.guards ≠ 0 := h.guarded.exclusive.locked_iff.mp hl
    obtain ⟨held, hmem, hheld⟩ : ∃ held ∈ c.contexts.map Context.held, held ≠ 0 := by
      by_contra hall
      push Not at hall
      exact hguards (List.sum_eq_zero hall)
    obtain ⟨x, hx, rfl⟩ := List.mem_map.mp hmem
    obtain ⟨job, hjob, rfl⟩ := List.mem_map.mp (h.contexts_eq ▸ hx)
    obtain ⟨i, hi⟩ := List.getElem?_of_mem hjob
    refine ⟨i, job, hi, Stage.toGo_next_lt (fun _ => hheld) ?_⟩
    obtain ⟨amount, stage⟩ := job
    cases stage <;> first | rfl | simp [Stage.context] at hheld

/-- Whatever has happened, everyone can still get done. -/
theorem exists_finished (h : c.Adding total jobs) : ∃ rest, (c.run rest).finished = true := by
  induction hn : (jobs.map fun job => job.2.toGo).sum using Nat.strong_induction_on
    generalizing c jobs with
  | _ n ih =>
    cases hfin : c.finished with
    | true => exact ⟨[], hfin⟩
    | false =>
      obtain ⟨i, job, hjob, hlt⟩ := h.exists_closer hfin
      obtain ⟨rest, hbefore, hafter⟩ :=
        exists_sum_map_set (fun job : α × Stage => job.2.toGo) hjob
      obtain ⟨schedule, hschedule⟩ := ih _ (by
        rw [← hn, hbefore, hafter]
        exact Nat.add_lt_add_left hlt rest) (h.step hjob) rfl
      exact ⟨i :: schedule, hschedule⟩

end Adding

end Amounts

/-- **The lock excludes, and loses no update.** Whatever the contexts have to do and in whatever
order they take their steps, there is one guard at most at every moment, the flag is set just while
there is one, and who asks for the lock is given it just if there is none. If each of `n` contexts
adds one, in separate steps for taking the lock, reading, writing and giving the lock back, then the
value is `n` more once they are done, and they can always get done. -/
theorem lock_excludes :
    (∀ (value : α) (tasks : List (Task α 0)) (schedule : List ℕ),
      ((start value tasks).run schedule).Exclusive) ∧
    ∀ {β : Type} [AddCommMonoidWithOne β] (value : β) (n : ℕ) (schedule : List ℕ),
      let c := (start value (List.replicate n (.add 1))).run schedule
      (c.finished = true → c.lock.value = value + n) ∧ ∃ rest, (c.run rest).finished = true := by
  refine ⟨fun value tasks schedule => (guarded_run value tasks schedule).exclusive, ?_⟩
  intro β _ value n schedule
  have hstart := adding_start value (List.replicate n (1 : β))
  rw [List.map_replicate, List.map_replicate, List.sum_replicate, nsmul_one] at hstart
  obtain ⟨jobs, hadding⟩ := hstart.run schedule
  exact ⟨hadding.value_eq, hadding.exists_finished⟩

/-- Two contexts that add one to seven. The second one asks while the first one has the guard, is
refused and watches the flag until the guard is given back. -/
theorem lock_excludes_two :
    ∃ c, c = (start 7 (List.replicate 2 (.add 1))).run [0, 0, 1, 1, 0, 0, 1, 1, 1, 1, 1] ∧
      c.finished = true ∧ c.lock.value = 7 + 2 :=
  have hfin : ((start 7 (List.replicate 2 (.add 1))).run [0, 0, 1, 1, 0, 0, 1, 1, 1, 1, 1]).finished
      = true := by decide
  ⟨_, rfl, hfin, ((lock_excludes (α := ℕ)).2 7 2 _).1 hfin⟩

example : ((SpinLock.new 42).contend 8) = ⟨false, 50⟩ := by decide

end Contest

end PagedKernel
