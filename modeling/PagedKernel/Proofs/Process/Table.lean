import PagedKernel.Process.Schedule
import PagedKernel.Proofs.Spaces.References

/-!
# The process table

Each slot is what was last put into it. The slots with an address space share out the roots of a
shape (`ProcessTable.Owns`): every root but the kernel's is that of just one slot. A free slot has
no address space, and a process that can run has one.

Key definitions: `ProcessTable.slot`, `ProcessTable.Owns`.
Key theorems: `ProcessTable.Owns.vacate`, `ProcessTable.Owns.settle`, `ProcessTable.Owns.allOf`,
`ProcessTable.nextRunnable_spec`, `ProcessTable.nextRunnable_some`.
-/

namespace PagedKernel

namespace ProcessTable

variable {procs : ProcessTable} {pid q : Pid} {p : ProcessSlot} {t : PageTable}

/-- The slot `pid`; an unused one if there is no such slot. -/
def slot (procs : ProcessTable) (pid : Pid) : ProcessSlot :=
  if h : pid < procCount then procs.slots[pid] else .unused

theorem state_eq (procs : ProcessTable) (pid : Pid) :
    procs.state pid = (procs.slot pid).state := by
  unfold state slot
  split <;> rfl

theorem table?_eq (procs : ProcessTable) (pid : Pid) :
    procs.table? pid = (procs.slot pid).table := by
  unfold table? slot
  split <;> rfl

theorem slot_empty (pid : Pid) : ProcessTable.empty.slot pid = .unused := by
  unfold slot empty
  split
  · exact Vector.getElem_replicate _
  · rfl

theorem get_eq (h : pid < procCount) : procs.get pid = .ok (procs.slot pid) := by
  unfold get slot
  rw [dif_pos h, dif_pos h]

theorem lt_of_table? (h : procs.table? pid = some t) : pid < procCount := by
  unfold table? at h
  split at h
  · assumption
  · cases h

theorem lt_of_state (h : procs.state pid ≠ .free) : pid < procCount := by
  unfold state at h
  split at h
  · assumption
  · exact absurd rfl h

theorem slot_set (h : pid < procCount) :
    (procs.set pid p).slot q = if q = pid then p else procs.slot q := by
  unfold slot set
  by_cases hq : q = pid
  · subst hq
    rw [dif_pos h, if_pos rfl]
    exact Vector.getElem_setIfInBounds_self h
  · rw [if_neg hq]
    split
    · next hlt => exact Vector.getElem_setIfInBounds_ne hlt (Ne.symm hq)
    · rfl

theorem modify_eq (f : ProcessSlot → ProcessSlot) (h : pid < procCount) :
    procs.modify pid f = procs.set pid (f (procs.slot pid)) := by
  unfold modify slot
  rw [dif_pos h, dif_pos h]

theorem table?_set (h : pid < procCount) :
    (procs.set pid p).table? q = if q = pid then p.table else procs.table? q := by
  rw [table?_eq, slot_set h, table?_eq]
  split <;> rfl

theorem state_set (h : pid < procCount) :
    (procs.set pid p).state q = if q = pid then p.state else procs.state q := by
  rw [state_eq, slot_set h, state_eq]
  split <;> rfl

theorem mem_pids_drop {pid : Nat} : pid ∈ pids.drop 1 ↔ 1 ≤ pid ∧ pid < procCount := by
  unfold pids
  rw [List.range_eq_range', List.drop_range', List.mem_range'_1]
  unfold procCount
  omega

theorem firstFree_spec (h : procs.firstFree = some pid) :
    1 ≤ pid ∧ pid < procCount ∧ procs.state pid = .free := by
  have hfree := List.find?_some h
  have hmem := mem_pids_drop.mp (List.mem_of_find?_eq_some h)
  exact ⟨hmem.1, hmem.2, of_decide_eq_true hfree⟩

theorem firstFree_min (h : procs.firstFree = some pid) {q : Nat} (hq : 1 ≤ q) (hlt : q < pid) :
    procs.state q ≠ .free := by
  obtain ⟨-, as, bs, heq, hbefore⟩ := List.find?_eq_some_iff_append.mp h
  have hsorted : (as ++ pid :: bs).Pairwise (· < ·) := heq ▸ List.pairwise_lt_range.drop
  have hmem : q ∈ as ++ pid :: bs :=
    heq ▸ mem_pids_drop.mpr ⟨hq, lt_trans hlt (firstFree_spec h).2.1⟩
  rcases List.mem_append.mp hmem with hmem | hmem
  · simpa using hbefore q hmem
  · rcases List.mem_cons.mp hmem with rfl | hmem
    · exact absurd hlt (Nat.lt_irrefl _)
    · have hafter := (List.pairwise_cons.mp (List.pairwise_append.mp hsorted).2.1).1 q hmem
      exact absurd hlt (Nat.lt_asymm hafter)

theorem firstFree_eq_none : procs.firstFree = none ↔
    ∀ pid : Pid, 1 ≤ pid → pid < procCount → procs.state pid ≠ .free := by
  unfold firstFree
  rw [List.find?_eq_none]
  simp only [mem_pids_drop, decide_eq_true_eq, and_imp]

theorem firstFree_ne_none (hpid : 1 ≤ pid) (hlt : pid < procCount)
    (hfree : procs.state pid = .free) : procs.firstFree ≠ none :=
  fun hnone => firstFree_eq_none.mp hnone pid hpid hlt hfree

/-! ### Whose turn it is -/

theorem nextAmong_spec {current : Nat} (h : current < procCount) : ∀ k : Nat,
    ∃ next, procs.nextAmong current k = .ok next ∧ ∀ pid, next = some pid →
      procs.state pid = .runnable
  | 0 => ⟨none, rfl, nofun⟩
  | k + 1 => by
    have hlt : ¬ UInt64.size ≤ current + (procCount - k) := by
      unfold procCount UInt64.size at *
      omega
    unfold nextAmong
    rw [if_neg hlt]
    split
    · next hrun => exact ⟨_, rfl, fun pid hpid => Option.some.inj hpid ▸ hrun⟩
    · exact nextAmong_spec h k

/-- The scheduler does not halt, and chooses a process that can run. -/
theorem nextRunnable_spec (procs : ProcessTable) {current : Nat} (h : current < procCount) :
    ∃ next, procs.nextRunnable current = .ok next ∧ ∀ pid, next = some pid →
      procs.state pid = .runnable :=
  nextAmong_spec h procCount

theorem nextAmong_none {current : Nat} : ∀ {k : Nat}, procs.nextAmong current k = .ok none →
    ∀ j < k, procs.state ((current + (procCount - j)) % procCount) ≠ .runnable
  | k + 1, h, j, hj => by
    unfold nextAmong at h
    dsimp only at h
    split at h
    · cases h
    split at h
    · cases h
    · next hne =>
      rcases Nat.lt_succ_iff_lt_or_eq.mp hj with hlt | rfl
      · exact nextAmong_none h j hlt
      · exact hne

/-- The scheduler chooses no process only if none can run. -/
theorem nextRunnable_none {current : Nat} (hnone : procs.nextRunnable current = .ok none)
    (pid : Pid) : procs.state pid ≠ .runnable := by
  intro hrun
  have hpid : pid < procCount := lt_of_state (by rw [hrun]; nofun)
  -- the turn of the process
  have hturn : ∀ pid : Nat, pid < procCount →
      (current + (procCount - (current + (procCount - pid)) % procCount)) % procCount = pid := by
    unfold procCount at *
    omega
  refine nextAmong_none hnone ((current + (procCount - pid)) % procCount)
    (Nat.mod_lt _ (by decide)) ?_
  rw [hturn pid hpid, hrun]

theorem nextAmong_some {current : Nat} : ∀ {k : Nat}, k ≤ procCount →
    procs.nextAmong current k = .ok (some pid) →
    ∃ i, procCount - k < i ∧ i ≤ procCount ∧ pid = (current + i) % procCount ∧
      procs.state pid = .runnable ∧
      ∀ j, procCount - k < j → j < i → procs.state ((current + j) % procCount) ≠ .runnable
  | k + 1, hk, h => by
    unfold nextAmong at h
    dsimp only at h
    split at h
    · cases h
    split at h
    · next hrun =>
      cases h
      exact ⟨procCount - k, by omega, Nat.sub_le _ _, rfl, hrun, fun j hj hlt => by omega⟩
    · next hne =>
      obtain ⟨i, hi, hle, heq, hrun, hbefore⟩ := nextAmong_some (Nat.le_of_succ_le hk) h
      refine ⟨i, by omega, hle, heq, hrun, fun j hj hlt => ?_⟩
      rcases Nat.lt_or_eq_of_le (show procCount - k ≤ j by omega) with hlt' | rfl
      · exact hbefore j hlt' hlt
      · exact hne

/-- The scheduler chooses the first process after the current one that can run. -/
theorem nextRunnable_some {current : Nat} (h : procs.nextRunnable current = .ok (some pid)) :
    ∃ i, 1 ≤ i ∧ i ≤ procCount ∧ pid = (current + i) % procCount ∧
      procs.state pid = .runnable ∧
      ∀ j, 1 ≤ j → j < i → procs.state ((current + j) % procCount) ≠ .runnable := by
  obtain ⟨i, hi, hle, heq, hrun, hbefore⟩ := nextAmong_some le_rfl h
  rw [Nat.sub_self] at hi hbefore
  exact ⟨i, hi, hle, heq, hrun, hbefore⟩

theorem nextRunnable_succ {current : Nat} (h : current + 1 < procCount)
    (hrun : procs.state (current + 1) = .runnable) :
    procs.nextRunnable current = .ok (some (current + 1)) := by
  have hlt : ¬ UInt64.size ≤ current + 1 := by
    unfold procCount at h
    unfold UInt64.size
    omega
  show procs.nextAmong current (procCount - 1 + 1) = _
  unfold nextAmong
  rw [show procCount - (procCount - 1) = 1 from rfl, if_neg hlt, Nat.mod_eq_of_lt h, if_pos hrun]

/-! ### The live processes -/

theorem mem_liveTables : (pid, t) ∈ procs.liveTables ↔
    procs.state pid ≠ .free ∧ procs.table? pid = some t := by
  unfold liveTables live
  rw [List.mem_filterMap]
  constructor
  · intro h
    obtain ⟨q, hq, hmap⟩ := h
    obtain ⟨t', ht, heq⟩ := Option.map_eq_some_iff.mp hmap
    cases heq
    exact ⟨of_decide_eq_true (List.mem_filter.mp hq).2, ht⟩
  · intro h
    obtain ⟨hstate, ht⟩ := h
    refine ⟨pid, List.mem_filter.mpr ⟨?_, decide_eq_true hstate⟩, by rw [ht]; rfl⟩
    exact List.mem_range.mpr (lt_of_table? ht)

/-- Only the states and the address spaces of the slots count. -/
theorem liveTables_congr {procs' : ProcessTable} (hstate : ∀ q, procs'.state q = procs.state q)
    (htable : ∀ q, procs'.table? q = procs.table? q) : procs'.liveTables = procs.liveTables := by
  unfold liveTables live
  have hlive : (fun q => decide (procs'.state q ≠ .free)) =
      fun q => decide (procs.state q ≠ .free) := funext fun q => by rw [hstate]
  rw [hlive]
  exact List.filterMap_congr fun q _ => by rw [htable]

theorem pairwise_liveTables (procs : ProcessTable) :
    procs.liveTables.Pairwise fun a b => a.1 ≠ b.1 := by
  unfold liveTables live
  refine List.Pairwise.filterMap _ ?_ (List.Pairwise.filter _ List.nodup_range)
  intro q q' hne b hb b' hb' heq
  obtain ⟨_, -, rfl⟩ := Option.map_eq_some_iff.mp hb
  obtain ⟨_, -, rfl⟩ := Option.map_eq_some_iff.mp hb'
  exact hne heq

/-! ### Roots -/

/-- The address spaces of the slots are those of the shape but for the kernel's, which has root
`kr`; no two slots share one. -/
structure Owns (procs : ProcessTable) (kr : Nat) (g : Shape) : Prop where
  isRoot : ∀ {pid t}, procs.table? pid = some t → g.IsRoot t.root.number
  ne : ∀ {pid t}, procs.table? pid = some t → t.root.number ≠ kr
  injective : ∀ {pid t pid' t'}, procs.table? pid = some t → procs.table? pid' = some t' →
    t.root.number = t'.root.number → pid = pid'
  complete : ∀ {r}, g.IsRoot r → r ≠ kr → ∃ pid t, procs.table? pid = some t ∧ t.root.number = r
  free : ∀ {pid}, procs.state pid = .free → procs.table? pid = none
  runnable : ∀ {pid}, procs.state pid = .runnable → procs.table? pid ≠ none

namespace Owns

variable {kr : Nat} {g g' : Shape}

theorem live (h : procs.Owns kr g) (ht : procs.table? pid = some t) : procs.state pid ≠ .free := by
  intro hfree
  rw [h.free hfree] at ht
  cases ht

theorem empty (h : ∀ {r}, g.IsRoot r → r = kr) : ProcessTable.empty.Owns kr g := by
  have htable : ∀ pid, ProcessTable.empty.table? pid = none := fun pid => by
    rw [table?_eq, slot_empty]
    rfl
  constructor
  case isRoot => exact fun {pid t} ht => nomatch (htable pid).symm.trans ht
  case ne => exact fun {pid t} ht => nomatch (htable pid).symm.trans ht
  case injective => exact fun {pid t pid' t'} ht => nomatch (htable pid).symm.trans ht
  case complete => exact fun hr hne => absurd (h hr) hne
  case free => exact fun {pid} _ => htable pid
  case runnable =>
    intro pid hrun
    rw [state_eq, slot_empty] at hrun
    cases hrun

theorem congr (h : procs.Owns kr g) (hg : ∀ r, g'.IsRoot r ↔ g.IsRoot r) : procs.Owns kr g' :=
  { h with
    isRoot := fun ht => (hg _).mpr (h.isRoot ht)
    complete := fun hr => h.complete ((hg _).mp hr) }

theorem reslot (h : procs.Owns kr g) (hpid : pid < procCount) (ht : p.table = procs.table? pid)
    (hfree : p.state = .free → p.table = none) (hrun : p.state = .runnable → p.table ≠ none) :
    (procs.set pid p).Owns kr g := by
  have htable : ∀ q, (procs.set pid p).table? q = procs.table? q := fun q => by
    rw [table?_set hpid]
    split
    · next hq => rw [hq, ht]
    · rfl
  refine ⟨fun {q t'} hq => ?_, fun {q t'} hq => ?_, fun {q t1 q' t2} hq hq' hr => ?_,
    fun {r} hr hrk => ?_, fun {q} hq => ?_, fun {q} hq => ?_⟩
  · exact h.isRoot ((htable q).symm.trans hq)
  · exact h.ne ((htable q).symm.trans hq)
  · exact h.injective ((htable q).symm.trans hq) ((htable q').symm.trans hq') hr
  · obtain ⟨q, t', hq, rfl⟩ := h.complete hr hrk
    exact ⟨q, t', (htable q).trans hq, rfl⟩
  · rw [state_set hpid] at hq
    rw [table?_set hpid]
    split
    · next heq => exact hfree (by rwa [if_pos heq] at hq)
    · next hne => exact h.free (by rwa [if_neg hne] at hq)
  · rw [state_set hpid] at hq
    rw [table?_set hpid]
    split
    · next heq => exact hrun (by rwa [if_pos heq] at hq)
    · next hne => exact h.runnable (by rwa [if_neg hne] at hq)

/-- A slot is emptied once its address space is gone. -/
theorem vacate (h : procs.Owns kr g) (ht : procs.table? pid = some t)
    (hg : ∀ {r}, r ≠ t.root.number → (g'.IsRoot r ↔ g.IsRoot r))
    (hgone : ¬ g'.IsRoot t.root.number) :
    (procs.set pid .unused).Owns kr g' := by
  have hpid := lt_of_table? ht
  have htable : ∀ {q t'}, (procs.set pid .unused).table? q = some t' ↔
      q ≠ pid ∧ procs.table? q = some t' := fun {q t'} => by
    rw [table?_set hpid]
    split
    · next hq => exact iff_of_false nofun fun h' => h'.1 hq
    · next hq => exact (and_iff_right hq).symm
  refine ⟨fun {q t'} hq => ?_, fun {q t'} hq => ?_, fun {q t1 q' t2} hq hq' hr => ?_,
    fun {r} hr hrk => ?_, fun {q} hq => ?_, fun {q} hq => ?_⟩
  · obtain ⟨hne, hq⟩ := htable.mp hq
    exact (hg fun heq => hne (h.injective hq ht heq)).mpr (h.isRoot hq)
  · exact h.ne (htable.mp hq).2
  · exact h.injective (htable.mp hq).2 (htable.mp hq').2 hr
  · have hrt : r ≠ t.root.number := fun heq => hgone (heq ▸ hr)
    obtain ⟨q, t', hq, rfl⟩ := h.complete ((hg hrt).mp hr) hrk
    refine ⟨q, t', htable.mpr ⟨?_, hq⟩, rfl⟩
    rintro rfl
    exact hrt (by rw [ht] at hq; cases hq; rfl)
  · rw [state_set hpid] at hq
    rw [table?_set hpid]
    split
    · rfl
    · next hne => exact h.free (by rwa [if_neg hne] at hq)
  · rw [state_set hpid] at hq
    rw [table?_set hpid]
    split
    · next heq => rw [if_pos heq] at hq; cases hq
    · next hne => exact h.runnable (by rwa [if_neg hne] at hq)

/-- A slot without an address space gets a new one. -/
theorem settle (h : procs.Owns kr g) (hpid : pid < procCount) (hnone : procs.table? pid = none)
    (hp : p.table = some t) (hstate : p.state ≠ .free) (hfresh : ¬ g.IsRoot t.root.number)
    (hroot : g'.IsRoot t.root.number) (ht : t.root.number ≠ kr)
    (hg : ∀ {r}, r ≠ t.root.number → (g'.IsRoot r ↔ g.IsRoot r)) :
    (procs.set pid p).Owns kr g' := by
  have htable : ∀ {q t'}, (procs.set pid p).table? q = some t' →
      q = pid ∧ t' = t ∨ procs.table? q = some t' ∧ t'.root.number ≠ t.root.number := by
    intro q t' hq
    rw [table?_set hpid] at hq
    split at hq
    · next heq =>
      rw [hp] at hq
      exact .inl ⟨heq, (Option.some.inj hq).symm⟩
    · exact .inr ⟨hq, fun heq => hfresh (heq ▸ h.isRoot hq)⟩
  refine ⟨fun {q t'} hq => ?_, fun {q t'} hq => ?_, fun {q t1 q' t2} hq hq' hr => ?_,
    fun {r} hr hrk => ?_, fun {q} hq => ?_, fun {q} hq => ?_⟩
  · rcases htable hq with ⟨rfl, rfl⟩ | ⟨hq, hne⟩
    · exact hroot
    · exact (hg hne).mpr (h.isRoot hq)
  · rcases htable hq with ⟨rfl, rfl⟩ | ⟨hq, -⟩
    · exact ht
    · exact h.ne hq
  · rcases htable hq with ⟨rfl, rfl⟩ | ⟨hq, hne⟩
    · rcases htable hq' with ⟨rfl, -⟩ | ⟨-, hne'⟩
      · rfl
      · exact absurd hr.symm hne'
    · rcases htable hq' with ⟨-, rfl⟩ | ⟨hq', -⟩
      · exact absurd hr hne
      · exact h.injective hq hq' hr
  · by_cases hrt : r = t.root.number
    · exact ⟨pid, t, by rw [table?_set hpid, if_pos rfl, hp], hrt.symm⟩
    · obtain ⟨q, t', hq, rfl⟩ := h.complete ((hg hrt).mp hr) hrk
      refine ⟨q, t', ?_, rfl⟩
      rw [table?_set hpid, if_neg, hq]
      rintro rfl
      rw [hnone] at hq
      cases hq
  · rw [state_set hpid] at hq
    rw [table?_set hpid]
    split
    · next heq => exact absurd (by rwa [if_pos heq] at hq) hstate
    · next hne => exact h.free (by rwa [if_neg hne] at hq)
  · rw [state_set hpid] at hq
    rw [table?_set hpid]
    split
    · rw [hp]
      exact Option.some_ne_none _
    · next hne => exact h.runnable (by rwa [if_neg hne] at hq)

/-- The page tables of the kernel and of the live processes are all there are. -/
theorem allOf (h : procs.Owns kr g) {kernel : PageTable} (hkr : kernel.root.number = kr)
    (hk : g.IsRoot kr) : PageTable.AllOf g (kernel :: procs.liveTables.map (·.2)) where
  isRoot := by
    intro t ht
    rcases List.mem_cons.mp ht with rfl | ht
    · exact hkr ▸ hk
    · obtain ⟨⟨pid, t⟩, hmem, rfl⟩ := List.mem_map.mp ht
      exact h.isRoot (mem_liveTables.mp hmem).2
  nodup := by
    rw [List.map_cons, List.nodup_cons, List.map_map]
    refine ⟨fun hmem => ?_, List.pairwise_map.mpr ?_⟩
    · obtain ⟨⟨pid, t⟩, hmem, heq⟩ := List.mem_map.mp hmem
      exact h.ne (mem_liveTables.mp hmem).2 (heq.trans hkr)
    · refine procs.pairwise_liveTables.imp_of_mem fun {a b} ha hb hne heq => hne ?_
      exact h.injective (mem_liveTables.mp ha).2 (mem_liveTables.mp hb).2 heq
  complete := by
    intro r hr
    by_cases hrk : r = kr
    · exact ⟨kernel, List.mem_cons_self, hkr.trans hrk.symm⟩
    · obtain ⟨pid, t, ht, rfl⟩ := h.complete hr hrk
      exact ⟨t, List.mem_cons_of_mem _ (List.mem_map.mpr ⟨(pid, t),
        mem_liveTables.mpr ⟨h.live ht, ht⟩, rfl⟩), rfl⟩

end Owns

end ProcessTable

end PagedKernel
