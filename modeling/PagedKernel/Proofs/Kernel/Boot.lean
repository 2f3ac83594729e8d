import PagedKernel.Proofs.Kernel.Handler

/-!
# Booting

The kernel starts with its own page table and no process, and then loads programs. Whichever it
loads, it is sound once it has started. It does start with plain programs, since the free pages are
enough for their text, their tables and their stacks.

Key theorems: `Kernel.startUserland_ends`, `Kernel.load_ends`, `Kernel.boot_sound`,
`Kernel.boot_plain`.
-/

namespace PagedKernel
namespace Kernel

variable {k : Kernel} {E : Halt → Prop} {loader : Loader} {pid : Pid} {name : String}
  {command : Option String}

/-- **The kernel without processes** is sound. -/
theorem startUserland_ends :
    Ends startUserland ⟨Frames.fresh physicalPages, .empty, #[]⟩ (fun k _ => Sound k ∧
      k.procs = .empty ∧ 252 ≤ k.frames.freePages ∧ k.ticks = 1 ∧
      Timer.ofRate timerRate = .ok k.timer ∧ k.current = 0) E := by
  unfold startUserland
  refine .step (Userland.report_ok _) ?_
  refine .bind (.onFrames buildKernelTable_ends) ?_
  intro t _ hpost
  obtain ⟨f, rfl, ⟨g, hacc, hspaces, honly⟩, hfree⟩ := hpost
  obtain ⟨timer, htimer⟩ : ∃ timer, Timer.ofRate timerRate = .ok timer := ⟨_, rfl⟩
  refine .lift htimer ?_
  refine .get ?_
  exact .pure ⟨⟨⟨g, hacc, hspaces, .empty honly⟩, Nat.zero_lt_succ _, Nat.zero_le _⟩, rfl, hfree,
    rfl, htimer, rfl⟩

/-- **Loading a program by its name** keeps the kernel sound and concerns no other process. A plain
program is loaded into a free slot if twelve pages are free. -/
theorem load_ends (h : Sound k) (hpid : pid < procCount)
    (hE : ¬ (∃ program, loader name = some program ∧ program.Plain ∧
      k.procs.state pid = .free ∧ 12 ≤ k.frames.freePages) → ∀ e, E e) :
    Ends (load loader pid name) k (fun _ k' => Sound k' ∧ ∃ program s,
      k' = { k with toUserland := s } ∧ loader name = some program ∧
      Userland.Concerns pid k.toUserland s ∧ s.Starts pid program ∧
      (program.Plain → k.procs.state pid = .free →
        k.frames.freePages ≤ s.frames.freePages + 12) ∧
      ∀ q, q ≠ pid → s.procs.slot q = k.procs.slot q) E := by
  unfold load
  cases hname : loader name with
  | none => exact .throw (hE (fun ⟨_, hp, _⟩ => nomatch hname.symm.trans hp) _)
  | some program =>
    obtain ⟨g, hg⟩ := h.userland
    refine .get ?_
    refine .imp (.onUserland (Userland.load_ends hg hpid (by decide) fun hfew =>
      hE fun ⟨program', hp, hplain, hfree⟩ => hfew ?_)) ?_
    · obtain rfl := Option.some.inj (hname.symm.trans hp)
      exact ⟨hplain, hfree⟩
    · intro _ _ hpost
      obtain ⟨s, rfl, hs, hload⟩ := hpost
      exact ⟨⟨hs, h.current, h.viewer⟩, program, s, rfl, rfl, hload⟩

theorem load_lt (k : Kernel) (pid : Pid) (name : String) :
    Ends (load loader pid name) k (fun _ _ => pid < procCount) fun _ => True := by
  unfold load
  cases loader name with
  | none => exact .throw trivial
  | some program =>
    refine .get ?_
    refine .imp (.onUserland (Userland.load_lt _ pid program)) ?_
    rintro _ _ ⟨_, -, hpid⟩
    exact hpid

theorem loadAll_ends (hE : ∀ e, E e) : ∀ (names : List String) (pid : Pid) {k : Kernel}, Sound k →
    pid + names.length ≤ procCount → Ends (loadAll loader pid names) k (fun _ k' => Sound k') E
  | [], _, _, h, _ => .pure h
  | name :: rest, pid, k, h, hlen => by
    rw [List.length_cons, ← Nat.add_assoc, Nat.add_right_comm] at hlen
    have hpid : pid < procCount := Nat.le_of_add_right_le hlen
    refine .bind (load_ends h hpid fun _ => hE) fun _ k1 h1 => ?_
    exact loadAll_ends hE rest (pid + 1) h1.1 hlen

/-- The names of the programs that are loaded for `command`. -/
def programNames (loader : Loader) : Option String → List String
  | none => defaultPrograms
  | some name => if (loader name).isSome then [name] else defaultPrograms

theorem length_programNames (loader : Loader) (command : Option String) :
    (programNames loader command).length ≤ 4 := by
  unfold programNames
  cases command with
  | none => exact le_rfl
  | some name =>
    dsimp only
    split
    · exact Nat.le_add_left 1 3
    · exact le_rfl

theorem bootPrograms_ok (loader : Loader) (command : Option String) (k : Kernel) :
    ∃ log, bootPrograms loader command k = .ok (programNames loader command) { k with log } := by
  unfold bootPrograms programNames
  cases command with
  | none => exact ⟨k.log, rfl⟩
  | some name =>
    dsimp only
    split
    · exact ⟨k.log, rfl⟩
    · exact ⟨_, rfl⟩

theorem bootPrograms_ends (h : Sound k) (command : Option String) :
    Ends (bootPrograms loader command) k (fun names k' => Sound k' ∧ names.length ≤ 4) E := by
  unfold bootPrograms
  cases command with
  | none => exact .pure ⟨h, le_rfl⟩
  | some name =>
    refine .ite (fun _ => .pure ⟨h, Nat.le_add_left 1 3⟩) fun _ => ?_
    exact .bind (report_ends h _) fun _ k1 h1 => .pure ⟨h1.sound, le_rfl⟩

/-- The definition of `boot`. It is unfolded before it is applied, since the match on the outcome of
the start must not be reduced. -/
theorem boot_def : boot = fun loader command =>
    match startUserland ⟨Frames.fresh physicalPages, .empty, #[]⟩ with
    | .error e s => .error (e, s.log)
    | .ok kernel _ =>
      match (do loadAll loader 1 (← bootPrograms loader command) : KernelM Unit) kernel with
      | .error e kernel => .error (e, kernel.log)
      | .ok () kernel => .ok kernel := by
  delta boot
  funext loader command
  generalize startUserland _ = r
  cases r <;> rfl

/-- Once the kernel has started, it loads the programs. -/
theorem boot_eq {k1 : Kernel} {s : Userland physicalPages}
    (hstart : startUserland ⟨Frames.fresh physicalPages, .empty, #[]⟩ = .ok k1 s) :
    boot loader command =
      match (do loadAll loader 1 (← bootPrograms loader command) : KernelM Unit) k1 with
      | .error e k => .error (e, k.log)
      | .ok () k => .ok k := by
  refine (congrFun (congrFun boot_def loader) command).trans ?_
  generalize startUserland _ = r at hstart ⊢
  subst hstart
  rfl

/-- **A kernel that has booted is sound**, whatever it was to load. -/
theorem boot_sound (hok : boot loader command = .ok k) : Sound k := by
  obtain ⟨k1, s, hstart, h1, -⟩ := startUserland_ends.ok
  have hall : Ends (do loadAll loader 1 (← bootPrograms loader command) : KernelM Unit) k1
      (fun _ k' => Sound k') fun _ => True := by
    refine .bind (bootPrograms_ends h1 command) fun names k2 h2 => ?_
    have hlen : 1 + names.length ≤ procCount := (Nat.add_le_add_left h2.2 1).trans (by decide)
    exact loadAll_ends (fun _ => trivial) names 1 h2.1 hlen
  rw [boot_eq hstart] at hok
  rcases hall.ok_or_halt with ⟨_, k2, hload, h2⟩ | ⟨e, k2, hload, -⟩
  · rw [hload] at hok
    exact Except.ok.inj hok ▸ h2
  · rw [hload] at hok
    exact nomatch hok

/-- The loader has a plain program of the name. -/
def Finds (loader : Loader) (name : String) : Prop :=
  ∃ program, loader name = some program ∧ program.Plain

/-- Plain programs are loaded into free slots if there are twelve free pages for each. -/
theorem loadAll_plain : ∀ (names : List String) (pid : Nat) {k : Kernel}, Sound k →
    pid + names.length ≤ procCount → (∀ q : Nat, pid ≤ q → k.procs.state q = .free) →
    12 * names.length ≤ k.frames.freePages → (∀ name ∈ names, Finds loader name) →
    Ends (loadAll loader pid names) k (fun _ k' => (∃ s, k' = { k with toUserland := s }) ∧
      k.frames.freePages ≤ k'.frames.freePages + 12 * names.length ∧
      (∀ q : Nat, q < pid ∨ pid + names.length ≤ q → k'.procs.slot q = k.procs.slot q) ∧
      (∀ q : Nat, q < pid → k.procs.state q ≠ .free →
        Userland.Spares q k.toUserland k'.toUserland) ∧
      ∀ i name, names[i]? = some name → ∃ program, loader name = some program ∧
        k'.toUserland.Starts (pid + i) program) E
  | [], _, k, _, _, _, _, _ => .pure ⟨⟨k.toUserland, rfl⟩, Nat.le_add_right _ _, fun _ _ => rfl,
      fun q _ _ => .refl q _, nofun⟩
  | name :: rest, pid, k, h, hlen, hfree, hpages, hfinds => by
    rw [List.length_cons] at hlen hpages
    have hpid : pid < procCount := by omega
    have hstate := hfree pid le_rfl
    obtain ⟨program, hname, hplain⟩ := hfinds name List.mem_cons_self
    refine .bind (load_ends h hpid fun hfew => ?_) ?_
    · exact absurd ⟨program, hname, hplain, hstate, by omega⟩ hfew
    rintro _ _ ⟨h1, program', s, rfl, hname', hconcerns, hstarts, hfree1, hslot⟩
    obtain rfl := Option.some.inj (hname.symm.trans hname')
    have hpages1 := hfree1 hplain hstate
    refine (loadAll_plain rest (pid + 1) h1 (by omega) (fun q hq => ?_) ?_
      fun name hmem => hfinds name (List.mem_cons_of_mem _ hmem)).imp ?_
    · dsimp only
      rw [ProcessTable.state_eq, hslot q (Nat.ne_of_gt hq), ← ProcessTable.state_eq]
      exact hfree q (by omega)
    · dsimp only
      omega
    rintro _ k2 ⟨⟨s2, rfl⟩, hfree2, hsame, hspares, hall⟩
    dsimp only at hfree2 hsame hspares hall ⊢
    refine ⟨⟨s2, rfl⟩, ?_, fun q hq => ?_, fun q hq hlive => ?_, fun i name' hi => ?_⟩
    · rw [List.length_cons]
      omega
    · rw [List.length_cons] at hq
      have hq' : q < pid + 1 ∨ pid + 1 + rest.length ≤ q := by omega
      have hne : q ≠ pid := by omega
      rw [hsame q hq', hslot q hne]
    · have h2 := hconcerns q (Nat.ne_of_lt hq) hlive
      exact h2.trans (hspares q (by omega) (by rwa [h2.state]))
    · cases i with
      | zero =>
        obtain rfl := Option.some.inj hi
        refine ⟨program, hname, hstarts.spared (hspares pid (by omega) ?_)⟩
        obtain ⟨t, ht, -⟩ := hstarts
        rw [ProcessTable.state_eq, ht]
        exact nofun
      | succ i =>
        rw [show pid + (i + 1) = pid + 1 + i by omega]
        exact hall i name' hi

/-- **Plain programs boot**, whichever are found, with a notice or without one. They are about to
run from their entries. -/
theorem boot_names {names : List String}
    (hnames : ∀ k, ∃ log, bootPrograms loader command k = .ok names { k with log })
    (hlen : names.length ≤ 4) (hfinds : ∀ name ∈ names, Finds loader name) :
    ∃ k, boot loader command = .ok k ∧ k.ticks = 1 ∧ Timer.ofRate timerRate = .ok k.timer ∧
      k.current = 0 ∧ 252 ≤ k.frames.freePages + 12 * names.length ∧
      (∀ q : Nat, q < 1 ∨ 1 + names.length ≤ q → k.procs.state q = .free) ∧
      ∀ i name, names[i]? = some name →
        ∃ program, loader name = some program ∧ k.toUserland.Starts (1 + i) program := by
  obtain ⟨k1, s, hstart, h1, hprocs, hfree, hticks, htimer, hcurrent⟩ := startUserland_ends.ok
  obtain ⟨log, hnames⟩ := hnames k1
  have h2 : Sound { k1 with log } :=
    ((bootPrograms_ends (E := fun _ => True) h1 command).eq_ok hnames).1
  have hstate : ∀ q : Nat, k1.procs.state q = .free := fun q => by
    rw [hprocs, ProcessTable.state_eq, ProcessTable.slot_empty]
    rfl
  have hlen' : 1 + names.length ≤ procCount := (Nat.add_le_add_left hlen 1).trans (by decide)
  have hpages : 12 * names.length ≤ k1.frames.freePages := by omega
  obtain ⟨_, k2, hload, ⟨s2, rfl⟩, hfree2, hsame, -, hall⟩ :=
    (loadAll_plain names 1 h2 hlen' (fun q _ => hstate q) hpages hfinds).ok
  refine ⟨{ k1 with toUserland := s2 }, ?_, hticks, htimer, hcurrent, hfree.trans hfree2,
    fun q hq => ?_, hall⟩
  · have hboth : (do loadAll loader 1 (← bootPrograms loader command) : KernelM Unit) k1 =
        .ok () { k1 with toUserland := s2 } := by
      show EStateM.bind _ _ k1 = _
      unfold EStateM.bind
      rw [hnames]
      exact hload
    rw [boot_eq hstart, hboth]
  · rw [ProcessTable.state_eq, hsame q hq, ← ProcessTable.state_eq]
    exact hstate q

theorem boot_plain {names : List String} (hnames : bootPrograms loader command = pure names)
    (hlen : names.length ≤ 4) (hfinds : ∀ name ∈ names, Finds loader name) :
    ∃ k, boot loader command = .ok k ∧ k.ticks = 1 ∧ Timer.ofRate timerRate = .ok k.timer ∧
      k.current = 0 ∧ 252 ≤ k.frames.freePages + 12 * names.length ∧
      (∀ q : Nat, q < 1 ∨ 1 + names.length ≤ q → k.procs.state q = .free) ∧
      ∀ i name, names[i]? = some name →
        ∃ program, loader name = some program ∧ k.toUserland.Starts (1 + i) program :=
  boot_names (fun k => ⟨k.log, congrFun hnames k⟩) hlen hfinds

/-- The default programs boot if all are plain. They are in the slots from 1 to 4. -/
theorem boot_default (loader : Loader) (hfinds : ∀ name, Finds loader name) :
    ∃ k, boot loader none = .ok k ∧ k.ticks = 1 ∧ k.timer = ⟨1000, 1000, 0⟩ ∧ k.current = 0 ∧
      204 ≤ k.frames.freePages ∧ (∀ q : Nat, q < 1 ∨ 5 ≤ q → k.procs.state q = .free) ∧
      ∀ pid : Nat, 1 ≤ pid → pid ≤ 4 →
        ∃ name program, loader name = some program ∧ k.toUserland.Starts pid program := by
  have hlen : defaultPrograms.length = 4 := rfl
  obtain ⟨k, hboot, hticks, htimer, hcurrent, hpages, hfree, hall⟩ := boot_plain
    (show bootPrograms loader none = pure defaultPrograms from rfl) hlen.le fun name _ =>
      hfinds name
  refine ⟨k, hboot, hticks, (Except.ok.inj htimer).symm, hcurrent, by omega, hfree,
    fun pid h1 h4 => ?_⟩
  have hlt : pid - 1 < defaultPrograms.length := by omega
  obtain ⟨program, hname, hstarts⟩ := hall (pid - 1) _ (List.getElem?_eq_getElem hlt)
  rw [Nat.add_sub_cancel' h1] at hstarts
  exact ⟨_, program, hname, hstarts⟩

theorem boot_all {names : List String} (hnames : bootPrograms loader command = pure names)
    (hlen : names.length ≤ 4)
    (hbare : ∀ name ∈ names, ∃ program, loader name = some program ∧ program.segments = []) :
    ∃ k, boot loader command = .ok k ∧ k.ticks = 1 ∧ Timer.ofRate timerRate = .ok k.timer ∧
      k.current = 0 ∧ 252 ≤ k.frames.freePages + 12 * names.length ∧
      (∀ q : Nat, q < 1 ∨ 1 + names.length ≤ q → k.procs.state q = .free) ∧
      ∀ i name, names[i]? = some name →
        ∃ program, loader name = some program ∧ k.toUserland.Starts (1 + i) program :=
  boot_plain hnames hlen fun name hmem => by
    obtain ⟨program, hname, hsegs⟩ := hbare name hmem
    exact ⟨program, hname, .inl hsegs⟩

/-- The process has a space with a stack. -/
def HasStack (k : Kernel) (pid : Pid) : Prop :=
  ∃ t, k.procs.table? pid = some t ∧ k.frames.memory.HasStack t.root.number

/-- **A program without segments boots**, and can run. -/
theorem boot_single {program : Program} (hname : loader name = some program)
    (hsegs : program.segments = []) :
    ∃ k, boot loader (some name) = .ok k ∧ k.procs.state 1 = .runnable ∧ HasStack k 1 ∧
      k.ticks = 1 := by
  have hnames : bootPrograms loader (some name) = pure [name] := by
    unfold bootPrograms
    exact if_pos (hname ▸ rfl)
  obtain ⟨k, hboot, hticks, -, -, -, -, hall⟩ := boot_all hnames (Nat.le_add_left 1 3)
    fun name' hmem => by
      obtain rfl := List.mem_singleton.mp hmem
      exact ⟨program, hname, hsegs⟩
  obtain ⟨_, -, t, hslot, ⟨hstack, -⟩, -⟩ := hall 0 name rfl
  refine ⟨k, hboot, ?_, ⟨t, ?_, hstack⟩, hticks⟩
  · rw [ProcessTable.state_eq, hslot]
  · rw [ProcessTable.table?_eq, hslot]

end Kernel
end PagedKernel
