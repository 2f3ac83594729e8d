import PagedKernel.MemoryMap
import PagedKernel.Proofs.Process.Audit

/-!
# The viewer draws

In a sound userland the maps of the memory can be drawn: every page that they mark is installed, and
every walk ends. So the viewer does not halt as long as the clock does not run backwards, and it
changes nothing but the log. The owner that is on record for a page is the owners of the page tables
that mark it, joined in their order.

Key definitions: `PageTable.marked`, `markers`.
Key theorems: `markTables_ok`, `Userland.Sound.owners_ok`, `Userland.Sound.physicalMap_ok`,
`Userland.Sound.virtualMap_ok`, `Viewer.update_ends`.
-/

namespace PagedKernel

variable {n : Nat}

/-- To refer to a page twice is to refer to it. -/
theorem Owner.join_join (a b : Owner) : (a.join b).join b = a.join b := by
  by_cases h : a = b <;> cases a <;> cases b <;> simp_all [join]

theorem markPages_ok (owner : Owner) : ∀ (l : List Nat) (owners : Vector Owner n),
    (∀ pn ∈ l, pn < n) → ∃ owners', markPages owner l owners = .ok owners' ∧
      ∀ q (h : q < n), owners'[q] = if q ∈ l then owners[q].join owner else owners[q]
  | [], owners, _ => ⟨owners, rfl, fun _ _ => rfl⟩
  | pn :: rest, owners, h => by
    have hpn := h pn List.mem_cons_self
    obtain ⟨owners', hok, howners⟩ := markPages_ok owner rest
      (owners.set pn (owners[pn].join owner) hpn) fun q hq => h q (List.mem_cons_of_mem _ hq)
    refine ⟨owners', ?_, fun q hq => ?_⟩
    · rw [markPages, dif_pos hpn]
      exact hok
    · rw [howners q hq, Vector.getElem_set]
      by_cases hqp : pn = q
      · subst hqp
        simp [Owner.join_join]
      · simp [hqp, Ne.symm hqp]

theorem List.mapM_ok {α β : Type} {f : α → Except Halt β} : ∀ {l : List α},
    (∀ a ∈ l, ∃ b, f a = .ok b) → ∃ bs, l.mapM f = .ok bs
  | [], _ => ⟨[], rfl⟩
  | a :: l, h => by
    obtain ⟨b, hb⟩ := h a List.mem_cons_self
    obtain ⟨bs, hbs⟩ := List.mapM_ok fun a ha => h a (List.mem_cons_of_mem _ ha)
    refine ⟨b :: bs, ?_⟩
    rw [List.mapM_cons, hb, hbs]
    rfl

/-- The pages that a page table marks as its owner's: its tables, and the pages that count. -/
def PageTable.marked (t : PageTable) (m : Memory n) (owner : Owner) : List Nat :=
  m.tablesBelow 3 t.root.number ++
    ((t.leaves m).filter fun leaf => owner.counts leaf.2).map (·.2.addr.pageNumber)

/-- The owners of the page tables that mark page number `q`, in the order of the page tables. -/
def markers (m : Memory n) (l : List (Owner × PageTable)) (q : Nat) : List Owner :=
  (l.filter fun p => q ∈ p.2.marked m p.1).map (·.1)

section
variable [Addressable n] {g : Shape} {m : Memory n}

theorem markTable_ok (h : g.Fits m) {t : PageTable} (hr : g.IsRoot t.root.number)
    (hall : ∀ v e, m.mapped t.root.number v = some e → v < userPast) (owner : Owner)
    (owners : Vector Owner n) : ∃ owners', markTable m owner t owners = .ok owners' ∧
      ∀ q (hq : q < n),
        owners'[q] = if q ∈ t.marked m owner then owners[q].join owner else owners[q] := by
  obtain ⟨owners1, h1, ho1⟩ := markPages_ok owner (m.tablesBelow 3 t.root.number) owners
    fun q hq => h.table_lt hr hq
  obtain ⟨owners2, h2, ho2⟩ := markPages_ok owner
    (((t.leaves m).filter fun q => owner.counts q.2).map (·.2.addr.pageNumber)) owners1
    fun q hq => by
      obtain ⟨p, hp, rfl⟩ := List.mem_map.mp hq
      exact h.leaf_lt hr (List.mem_filter.mp hp).1
  refine ⟨owners2, ?_, fun q hq => ?_⟩
  · unfold markTable
    rw [h.tableNumbers_eq hr, h.mappedNumbers_eq hr hall]
    simp only [bind, Except.bind, h1, h2]
  · rw [ho2 q hq, ho1 q hq]
    by_cases htable : q ∈ m.tablesBelow 3 t.root.number
    · simp only [PageTable.marked, List.mem_append, htable, if_true, true_or, Owner.join_join,
        ite_self]
    · simp only [PageTable.marked, List.mem_append, htable, if_false, false_or]

theorem markTables_ok (h : g.Fits m) : ∀ (l : List (Owner × PageTable)) (owners : Vector Owner n),
    (∀ p ∈ l, g.IsRoot p.2.root.number ∧
      ∀ v e, m.mapped p.2.root.number v = some e → v < userPast) →
    ∃ owners', markTables m l owners = .ok owners' ∧
      ∀ q (hq : q < n), owners'[q] = (markers m l q).foldl Owner.join owners[q]
  | [], owners, _ => ⟨owners, rfl, fun _ _ => rfl⟩
  | (owner, t) :: rest, owners, hl => by
    obtain ⟨hr, hall⟩ := hl _ List.mem_cons_self
    obtain ⟨owners1, h1, ho1⟩ := markTable_ok h hr hall owner owners
    obtain ⟨owners2, h2, ho2⟩ :=
      markTables_ok h rest owners1 fun p hp => hl p (List.mem_cons_of_mem _ hp)
    refine ⟨owners2, ?_, fun q hq => ?_⟩
    · rw [markTables, h1]
      exact h2
    · rw [ho2 q hq, ho1 q hq]
      by_cases hmem : q ∈ t.marked m owner <;> simp [markers, hmem]

end

/-- The page tables of the kernel and of the processes, with their owners. -/
def tableOwners (kernel : PageTable) (procs : ProcessTable) : List (Owner × PageTable) :=
  (.kernel, kernel) :: procs.liveTables.map fun p => (.process p.1, p.2)

namespace Userland.Sound

variable [Addressable n] {kernel : PageTable} {g : Shape} {s : Userland n}

/-- The owner on record for a page is the owners of the page tables that mark it, joined. -/
theorem owners_ok (h : Sound kernel g s) :
    ∃ o, owners s.frames.memory kernel s.procs = .ok o ∧ ∀ q (hq : q < n),
      o[q] = (markers s.frames.memory (tableOwners kernel s.procs) q).foldl Owner.join .nobody := by
  obtain ⟨o, hok, howners⟩ := markTables_ok h.accounted.fits (tableOwners kernel s.procs)
    (Vector.replicate n .nobody) fun p hp => by
      have hr : g.IsRoot p.2.root.number := by
        rcases List.mem_cons.mp hp with rfl | hp
        · exact h.spaces.kernelRoot
        · obtain ⟨⟨pid, t⟩, hmem, rfl⟩ := List.mem_map.mp hp
          exact h.owns.isRoot (ProcessTable.mem_liveTables.mp hmem).2
      exact ⟨hr, fun v e hm => h.page_lt hr hm⟩
  refine ⟨o, hok, fun q hq => ?_⟩
  rw [howners q hq, Vector.getElem_replicate]

/-- The physical map can be drawn. -/
theorem physicalMap_ok (h : Sound kernel g s) :
    ∃ rows, physicalMap s.frames kernel s.procs = .ok rows := by
  obtain ⟨o, ho, -⟩ := h.owners_ok
  unfold physicalMap
  rw [ho]
  exact ⟨_, rfl⟩

theorem virtualMap_ok (h : Sound kernel g s) {pid : Pid} (hpid : pid < procCount) :
    ∃ rows, virtualMap s.frames kernel s.procs pid = .ok rows := by
  obtain ⟨o, ho, -⟩ := h.owners_ok
  unfold virtualMap
  rw [ho, ProcessTable.get_eq hpid]
  simp only [bind, Except.bind]
  rw [← ProcessTable.table?_eq]
  cases ht : s.procs.table? pid with
  | none => exact ⟨_, rfl⟩
  | some t =>
    obtain ⟨glyphs, hglyphs⟩ := List.mapM_ok (l := List.range (virtualSize / pageSize))
      (f := fun pn => do
        return leafGlyph s.frames o (← t.walk s.frames.memory ⟨UInt64.ofNat (pn * pageSize)⟩))
      fun pn _ => by
        rw [h.accounted.fits.walk_eq t _ (h.owns.isRoot ht)]
        exact ⟨_, rfl⟩
    simp only [bind, Except.bind] at hglyphs
    dsimp only
    rw [hglyphs]
    exact ⟨_, rfl⟩

end Userland.Sound

/-! ### Drawing -/

namespace Viewer

variable [Addressable n] {kernel : PageTable} {g : Shape} {s : Userland n} {E : Halt → Prop}

omit [Addressable n] in
theorem reportRows_ends (rows : List String) :
    Ends (rows.forM fun row => Userland.report (.row row)) s
      (fun _ s' => s'.frames = s.frames ∧ s'.procs = s.procs) E :=
  .forM (I := fun s' => s'.frames = s.frames ∧ s'.procs = s.procs) rows s ⟨rfl, rfl⟩
    fun _ _ _ hs' => .of_ok (Userland.report_ok _) hs'

/-- Drawing changes nothing but the log. -/
theorem draw_ends (v : Viewer) (h : s.Sound kernel g) :
    Ends (v.draw kernel) s (fun v' s' => v'.lastTicks = v.lastTicks ∧ s'.frames = s.frames ∧
      s'.procs = s.procs) E := by
  unfold draw
  refine .get ?_
  dsimp only
  generalize settle s.procs procCount v.showing = showing
  refine .step (Userland.report_ok _) ?_
  obtain ⟨rows, hrows⟩ := h.physicalMap_ok
  refine .lift hrows ?_
  refine .bind (reportRows_ends _) ?_
  intro _ s2 hpost
  obtain ⟨hf2, hp2⟩ := hpost
  refine .ite (fun hsome => ?_) fun _ => .pure ⟨rfl, hf2, hp2⟩
  obtain ⟨t, ht⟩ := Option.isSome_iff_exists.mp hsome
  obtain ⟨rows, hrows⟩ := h.virtualMap_ok (ProcessTable.lt_of_table? ht)
  refine .step (Userland.report_ok _) ?_
  refine .lift hrows ?_
  refine .bind (reportRows_ends _) ?_
  intro _ s3 hpost
  obtain ⟨hf3, hp3⟩ := hpost
  exact .pure ⟨rfl, hf3.trans hf2, hp3.trans hp2⟩

/-- **The viewer looks at the clock** and does not halt, since that does not run backwards. -/
theorem update_ends (v : Viewer) {ticks : Nat} (h : s.Sound kernel g) (hv : v.lastTicks ≤ ticks) :
    Ends (v.update ticks kernel) s (fun v' s' => v'.lastTicks ≤ ticks ∧ s'.frames = s.frames ∧
      s'.procs = s.procs) E := by
  unfold update
  refine .ite (fun hback => ?_) fun _ => .ite (fun _ => ?_) fun _ => .pure ⟨hv, rfl, rfl⟩
  · simp only [Bool.and_eq_true, decide_eq_true_eq] at hback
    exact absurd hback.2 (Nat.not_lt.mpr hv)
  · exact (draw_ends _ h).imp fun v' s' h' => ⟨Nat.le_of_eq h'.1, h'.2⟩

end Viewer

end PagedKernel
