import PagedKernel.Proofs.Process.Maps
import PagedKernel.Proofs.Process.Twins
import PagedKernel.Proofs.Process.Userland

/-!
# Userlands that differ in free pages

Twin userlands have twin frames, and the same processes and the same log. Loading a program,
duplicating a process and giving its space back end alike on twins. So does the viewer: it draws who
refers to a page, and never what the page holds.

Key definition: `Userland.Twin`.
Key theorems: `Userland.load_coincide`, `Userland.fork_coincide`, `Userland.reclaim_coincide`,
`Viewer.update_coincide`.
-/

namespace PagedKernel

variable {n : Nat}

/-- `s'` differs from `s` in nothing but what free pages hold. -/
def Userland.Twin (s s' : Userland n) : Prop :=
  ∃ f, s.frames.Twin f ∧ s' = { s with frames := f }

theorem Userland.Twin.procs {s s' : Userland n} (h : s.Twin s') : s'.procs = s.procs := by
  obtain ⟨f, -, rfl⟩ := h
  rfl

theorem Coincide.onFrames {α : Type} {x : FramesM n α} {s : Userland n} {f : Frames n}
    (h : Coincide Frames.Twin x s.frames f) :
    Coincide Userland.Twin (Userland.onFrames x) s { s with frames := f } := by
  cases h with
  | ok hs ht hR => exact .ok (Userland.onFrames_ok hs) (Userland.onFrames_ok ht) ⟨_, hR, rfl⟩
  | halt hs ht hR =>
    exact .halt (Userland.onFrames_error hs) (Userland.onFrames_error ht) ⟨_, hR, rfl⟩

namespace Userland

section
variable {s s' : Userland n}

theorem Sound.twin {kernel : PageTable} {g : Shape} (h : Sound kernel g s) (ht : s.Twin s') :
    Sound kernel g s' := by
  obtain ⟨f, hf, rfl⟩ := ht
  exact ⟨h.accounted.twin hf, h.spaces.kept (.of_in_use h.accounted hf.byte), h.owns⟩

theorem report_coincide (ht : s.Twin s') (notice : Notice) :
    Coincide Twin (report notice) s s' := by
  obtain ⟨f, ht, rfl⟩ := ht
  exact .update ⟨f, ht, rfl⟩

theorem setProc_coincide (ht : s.Twin s') (pid : Pid) (p : ProcessSlot) :
    Coincide Twin (setProc pid p) s s' := by
  obtain ⟨f, ht, rfl⟩ := ht
  exact .update ⟨f, ht, rfl⟩

theorem proc_coincide (ht : s.Twin s') (pid : Pid) : Coincide Twin (proc pid) s s' := by
  by_cases hpid : pid < procCount
  · exact .ok (proc_ok hpid) (ht.procs ▸ proc_ok hpid) ht
  · have hpid := Nat.not_lt.mp hpid
    exact .halt (proc_error hpid) (proc_error hpid) ht

end

section
variable [Addressable n] {kernel : PageTable} {g : Shape} {s s' : Userland n}

/-- **Giving back a space** ends alike on twins. -/
theorem reclaim_coincide (h : Sound kernel g s) (pid : Pid) (ht : s.Twin s') :
    Coincide Twin (reclaim pid) s s' := by
  unfold reclaim
  refine .bind_ends (proc_coincide ht pid) (proc_ends s pid) ?_
  rintro _ s s' ⟨-, rfl, rfl⟩ ht
  rw [← s.procs.table?_eq]
  cases htable : s.procs.table? pid with
  | none => exact setProc_coincide ht pid _
  | some t =>
    obtain ⟨f, hf, rfl⟩ := ht
    have hdestroy := PageTable.destroy_coincide h.accounted (h.owns.isRoot htable) hf
    exact .bind (.onFrames hdestroy) fun _ _ _ ht1 => setProc_coincide ht1 pid _

/-- **Loading a program** ends alike on twins. -/
theorem load_coincide (h : Sound kernel g s) (pid : Pid) (program : Program)
    (hn : 1 + n * 512 < maxCount) (ht : s.Twin s') :
    Coincide Twin (load kernel pid program) s s' := by
  unfold load
  refine .bind_ends (proc_coincide ht pid) (proc_ends s pid) ?_
  rintro _ s s' ⟨hpid, rfl, rfl⟩ ht
  refine .ite (fun _ => .throw_bind ht) fun _ => ?_
  refine .bind_ends (reclaim_coincide h pid ht) (reclaim_ends h hpid) ?_
  rintro _ s1 _ ⟨⟨g1, h1⟩, -⟩ ⟨f1, hf1, rfl⟩
  have hbuild : Coincide Frames.Twin (buildSpace kernel program) s1.frames f1 :=
    buildSpace_coincide program h1.accounted h1.spaces hn hf1
  refine .bind (.onFrames hbuild) fun t s2 s2' ht2 => ?_
  exact .bind (setProc_coincide ht2 _ _) fun _ _ _ ht3 => report_coincide ht3 _

/-- **Duplicating a process** ends alike on twins. -/
theorem fork_coincide (h : Sound kernel g s) (parent : Pid) (hn : 1 + n * 512 < maxCount)
    (ht : s.Twin s') : Coincide Twin (fork parent) s s' := by
  unfold fork
  refine .get (by rw [ht.procs]) ?_
  cases s.procs.firstFree with
  | none => exact .pure ht
  | some child =>
    refine .bind_ends (proc_coincide ht parent) (proc_ends s parent) ?_
    rintro _ s s' ⟨-, rfl, rfl⟩ ht
    rw [← s.procs.table?_eq]
    cases htable : s.procs.table? parent with
    | none => exact .throw ht
    | some t =>
      obtain ⟨f, hf, rfl⟩ := ht
      have hcopy := copySpace_coincide h.accounted h.spaces (h.owns.isRoot htable)
        (h.owns.ne htable) hn hf
      refine .bind (.onFrames hcopy) fun found s1 s1' ht1 => ?_
      cases found with
      | none => exact .pure ht1
      | some t' =>
        refine .bind (setProc_coincide ht1 _ _) fun _ _ _ ht2 => ?_
        exact .bind (report_coincide ht2 _) fun _ _ _ ht3 => .pure ht3

end

end Userland

/-! ### The maps -/

section
variable [Addressable n] {g : Shape} {held : List Nat} {f f' : Frames n}

theorem markTable_twin (h : Accounted g held f) (ht : f.Twin f') {t : PageTable}
    (hr : g.IsRoot t.root.number) (owner : Owner) (owners : Vector Owner n) :
    markTable f'.memory owner t owners = markTable f.memory owner t owners := by
  unfold markTable PageTable.mappedNumbers
  rw [h.tableNumbers_twin ht hr, h.mappings_twin ht hr (by decide)]

theorem markTables_twin (h : Accounted g held f) (ht : f.Twin f') :
    ∀ (l : List (Owner × PageTable)) (owners : Vector Owner n),
    (∀ p ∈ l, g.IsRoot p.2.root.number) →
    markTables f'.memory l owners = markTables f.memory l owners
  | [], _, _ => rfl
  | (owner, t) :: rest, owners, hl => by
    have htable := markTable_twin h ht (hl _ List.mem_cons_self) owner owners
    have hrest := fun owners' => markTables_twin h ht rest owners' fun p hp =>
      hl p (List.mem_cons_of_mem _ hp)
    rw [markTables, markTables, htable]
    simp only [hrest]

omit [Addressable n] in
theorem pageGlyph_twin (ht : f.Twin f') (owners : Vector Owner n) :
    pageGlyph f' owners = pageGlyph f owners := by
  funext pn
  unfold pageGlyph
  rw [ht.count]
  rfl

end

namespace Userland.Sound

variable [Addressable n] {kernel : PageTable} {g : Shape} {s : Userland n} {f : Frames n}

theorem owners_twin (h : Sound kernel g s) (ht : s.frames.Twin f) :
    owners f.memory kernel s.procs = owners s.frames.memory kernel s.procs := by
  refine markTables_twin h.accounted ht _ _ fun p hp => ?_
  rcases List.mem_cons.mp hp with rfl | hp
  · exact h.spaces.kernelRoot
  · obtain ⟨⟨pid, t⟩, hmem, rfl⟩ := List.mem_map.mp hp
    exact h.owns.isRoot (ProcessTable.mem_liveTables.mp hmem).2

/-- The physical map is the same for twins. -/
theorem physicalMap_twin (h : Sound kernel g s) (ht : s.frames.Twin f) :
    physicalMap f kernel s.procs = physicalMap s.frames kernel s.procs := by
  unfold physicalMap
  simp only [h.owners_twin ht, pageGlyph_twin ht]

theorem virtualMap_twin (h : Sound kernel g s) (ht : s.frames.Twin f) (pid : Pid) :
    virtualMap f kernel s.procs pid = virtualMap s.frames kernel s.procs pid := by
  unfold virtualMap
  rw [h.owners_twin ht]
  refine congrArg _ (funext fun o => ?_)
  by_cases hpid : pid < procCount
  · rw [ProcessTable.get_eq hpid]
    simp only [bind, Except.bind]
    rw [← ProcessTable.table?_eq]
    cases htable : s.procs.table? pid with
    | none => rfl
    | some t =>
      have hleaf : leafGlyph f o = leafGlyph s.frames o := by
        funext e
        unfold leafGlyph
        rw [pageGlyph_twin ht]
      simp only [hleaf, h.accounted.walk_twin ht (h.owns.isRoot htable)]
  · unfold ProcessTable.get
    rw [dif_neg hpid]
    simp only [bind, Except.bind]

end Userland.Sound

/-! ### Drawing -/

namespace Viewer

variable [Addressable n] {kernel : PageTable} {g : Shape} {s s' : Userland n}

omit [Addressable n] in
theorem reportRows_coincide (rows : List String) (ht : s.Twin s') :
    Coincide Userland.Twin (rows.forM fun row => Userland.report (.row row)) s s' :=
  .forM (I := fun _ => True) rows s s' trivial ht (fun _ _ _ _ => .of_any)
    fun row _ _ _ _ ht => Userland.report_coincide ht (.row row)

theorem draw_coincide (v : Viewer) (h : s.Sound kernel g) (ht : s.Twin s') :
    Coincide Userland.Twin (v.draw kernel) s s' := by
  obtain ⟨f, hf, rfl⟩ := ht
  unfold draw
  refine .get ?_ ?_
  · simp only [h.physicalMap_twin hf, h.virtualMap_twin hf]
  dsimp only
  generalize settle s.procs procCount v.showing = showing
  refine .bind (Userland.report_coincide ⟨f, hf, rfl⟩ _) fun _ s1 s1' ht1 => ?_
  refine .lift_bind ht1 fun rows _ => .bind (reportRows_coincide rows ht1) fun _ s2 s2' ht2 => ?_
  refine .ite (fun _ => ?_) fun _ => .pure ht2
  refine .bind (Userland.report_coincide ht2 _) fun _ s3 s3' ht3 => ?_
  refine .lift_bind ht3 fun rows _ => ?_
  exact .bind (reportRows_coincide rows ht3) fun _ _ _ ht4 => .pure ht4

/-- **The viewer** draws the same of twins. -/
theorem update_coincide (v : Viewer) (ticks : Nat) (h : s.Sound kernel g) (ht : s.Twin s') :
    Coincide Userland.Twin (v.update ticks kernel) s s' := by
  unfold update
  refine .ite (fun _ => .throw_bind ht) fun _ => .ite (fun _ => ?_) fun _ => .pure ht
  exact draw_coincide _ h ht

end Viewer

end PagedKernel
