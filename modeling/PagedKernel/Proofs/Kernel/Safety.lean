import PagedKernel.Proofs.Kernel.Reachable
import PagedKernel.Proofs.Process.Access
import PagedKernel.Proofs.Spaces.Confinement
import PagedKernel.Proofs.Spaces.Separation

/-!
# What every run keeps

Whatever programs a kernel that has booted is given, and however they run: the counts of its pages
are the references that its page tables hold, a program halts the kernel only in the ways that
`ProgramHalt` lists, and it gets at no table, at no page of the kernel and at no page that another
process can write. So it is confined to what it sees.

Key definitions: `Kernel.tables`, `Kernel.HoldsNoTable`, `Kernel.Owned`.
Key theorems: `Kernel.Driven.counts_exact`, `Kernel.Reachable.run_halts`,
`Kernel.Reachable.access_confined`, `Kernel.Reachable.writable_owned`, `Kernel.Reachable.confined`.
-/

namespace PagedKernel
namespace Kernel

variable {k : Kernel} {loader : Loader} {g : Shape}

def tables (k : Kernel) : List PageTable :=
  k.table :: k.procs.liveTables.map (·.2)

/-- Page number `pn` is a table of none of the page tables. -/
def HoldsNoTable (k : Kernel) (pn : Nat) : Prop :=
  ∀ t ∈ k.tables, ∃ l, t.tableNumbers k.frames.memory = .ok l ∧ pn ∉ l

/-- **The page tables of a kernel are separate**, so that each is a map of its own. -/
theorem Reachable.separate (h : Reachable loader k) :
    k.frames.Separate { t | t ∈ k.tables } := by
  obtain ⟨g, hg⟩ := h.sound.userland
  have hplanted : PlantedAt { t | t ∈ k.tables } g k.frames := by
    refine ⟨hg.accounted.planted, fun {r} => ⟨fun hr => ?_, fun ht => hg.allOf.isRoot _ ht⟩⟩
    obtain ⟨t, ht, rfl⟩ := hg.allOf.complete r hr
    exact ht
  exact hplanted.separate

theorem holdsNoTable (hg : k.toUserland.Sound k.table g) {pn : Nat} (hpn : g pn = none) :
    HoldsNoTable k pn := by
  intro t ht
  have hr := hg.allOf.isRoot t ht
  refine ⟨_, hg.accounted.fits.tableNumbers_eq hr, fun hmem => ?_⟩
  obtain ⟨l, i, hplace⟩ := (hg.accounted.fits.mem_tables hr).mp hmem
  rw [hpn] at hplace
  cases hplace

/-! ### A kernel that has booted -/

/-- Every program there is has no segments. -/
def bareLoader : Loader :=
  fun name => some ⟨name, UInt64.ofNat procStart, []⟩

theorem boot_bare : ∃ k, boot bareLoader (some "idle") = .ok k ∧ k.procs.state 1 = .runnable ∧
    HasStack k 1 ∧ k.ticks = 1 :=
  boot_single rfl rfl

/-! ### Counts -/

/-- **The count of every page is exact**: it is the number of times that the page is a table, and of
the leaves that point to it. A free slot has no address space, and the audit of the counts passes.
-/
theorem Driven.counts_exact (h : Driven loader k) :
    (∀ pn, k.frames.count pn = (k.tables.map fun t =>
      (k.frames.memory.tablesBelow 3 t.root.number).count pn +
        (t.leaves k.frames.memory).countP fun leaf => leaf.2.addr.pageNumber = pn).sum) ∧
    (∀ pid, k.procs.state pid = .free → k.procs.table? pid = none) ∧
    checkCounts k.frames k.table k.procs = .ok () := by
  obtain ⟨g, hg⟩ := h.sound.userland
  refine ⟨fun pn => ?_, fun pid => hg.owns.free, hg.checkCounts_ok⟩
  calc k.frames.count pn
      = (k.tables.flatMap (·.references k.frames.memory)).count pn := hg.count_eq pn
    _ = (k.tables.map fun t => (t.references k.frames.memory).count pn).sum := by
        rw [List.count_flatMap]
        rfl
    _ = _ := congrArg List.sum (List.map_congr_left fun t _ => t.count_references _ pn)

theorem counts_exact_bare : ∃ k, boot bareLoader (some "idle") = .ok k ∧
    k.procs.state 1 = .runnable ∧ checkCounts k.frames k.table k.procs = .ok () := by
  obtain ⟨k, hboot, hrun, -⟩ := boot_bare
  exact ⟨k, hboot, hrun, (Driven.counts_exact (.boot hboot)).2.2⟩

/-! ### Halts -/

/-- **A program halts the kernel only in its own ways.** It is run if it can run, whatever it does.
The process that gets the next turn can run, and has an address space. -/
theorem Reachable.run_halts (h : Reachable loader k) {pid : Pid}
    (hrun : k.procs.state pid = .runnable) (hclock : k.ticks - 1 < 2 ^ 64 - 2) :
    (∃ turn k', run pid k = .ok turn k' ∧ ∀ q, turn = .run q →
      k'.procs.state q = .runnable ∧ ∃ t, k'.procs.table? q = some t) ∨
    ∃ e k', run pid k = .error e k' ∧ ProgramHalt pid e ∧
      (e.report = .message s!"process {pid} panicked" ∨
        (∃ number : UInt64, e.report = .message s!"Unexpected system call {number.toNat}!") ∨
        e.report = .message "Unexpected exception 6!" ∨
        e.report = .message "Unexpected exception 13!") := by
  have hends : Ends (run pid) k Handled (ProgramHalt pid) :=
    run_ends h.sound (fun hne => absurd hrun hne) (fun hend => by omega) fun _ he => he
  rcases hends.ok_or_halt with ⟨turn, k', hok, hsound, hready⟩ | ⟨e, k', hok, he⟩
  · refine .inl ⟨turn, k', hok, fun q hq => ⟨hready q hq, ?_⟩⟩
    obtain ⟨g, hg⟩ := hsound.userland
    exact Option.ne_none_iff_exists'.mp (hg.owns.runnable (hready q hq))
  · refine .inr ⟨e, k', hok, he, ?_⟩
    cases he with
    | unknownCall number => exact .inr (.inl ⟨number, rfl⟩)
    | panicked => exact .inl rfl
    | invalidOpcode => exact .inr (.inr (.inl rfl))
    | generalProtection => exact .inr (.inr (.inr rfl))

theorem run_halts_bare : ∃ k, boot bareLoader (some "idle") = .ok k ∧
    ((∃ turn k', run 1 k = .ok turn k') ∨ ∃ e k', run 1 k = .error e k' ∧ ProgramHalt 1 e) := by
  obtain ⟨k, hboot, hrun, -, hticks⟩ := boot_bare
  refine ⟨k, hboot, ?_⟩
  rcases Reachable.run_halts (.boot hboot) hrun (by rw [hticks]; decide) with
    ⟨turn, k', hok, -⟩ | ⟨e, k', hok, he, -⟩
  · exact .inl ⟨turn, k', hok⟩
  · exact .inr ⟨e, k', hok, he⟩

/-! ### Access -/

/-- **A program cannot escalate.** Whatever address and access the unit grants the program of a
process, it is the console in the page of the console; or it is in a page that was handed out and
holds no table, in the place of the console or in the user region. -/
theorem Reachable.access_confined (h : Reachable loader k) {pid : Pid} {t : PageTable}
    (ht : k.procs.table? pid = some t) {a : UInt64} {va : VirtAddr}
    (hva : VirtAddr.ofWord? a = some va) {access : Access} {pa : PhysAddr}
    (hok : k.frames.memory.locate t.pa va access true = .ok (.ok pa)) :
    (InConsole va.toNat ∧ InConsole pa.toNat) ∨
      (k.frames.allocatable pa = true ∧ HoldsNoTable k pa.pageNumber ∧
        (InConsole va.toNat ∨ procStart ≤ va.toNat ∧ va.toNat < virtualSize)) := by
  obtain ⟨g, hg⟩ := h.sound.userland
  have hfits := hg.accounted.fits
  have hr := hg.owns.isRoot ht
  obtain ⟨e, hm, hu, -, rfl⟩ := hfits.locate_ok hg.spaces.linked hr hok
  obtain ⟨hnone, hlt⟩ := hfits.mapped_target hr hm
  have hpage : (e.addr.inPage va.pageOffset).pageNumber = e.addr.pageNumber := by
    have hinPage := inPage_pageNumber (lt_of_lt_of_le hlt Addressable.le)
      (mod_pageSize_lt va.toNat)
    rwa [← e.addr_eq_pageAt] at hinPage
  have hdiv := VirtAddr.toNat_div hva (hg.page_lt hr hm)
  rw [hpage, inConsole_iff, inConsole_iff, hdiv]
  rcases hg.user_leaf ⟨hr, hm⟩ (hg.owns.ne ht) hu with ⟨hv, hc⟩ | ⟨hall, hv⟩
  · exact .inl ⟨hv, hpage.trans hc⟩
  · refine .inr ⟨?_, holdsNoTable hg hnone, hv.imp_right fun ⟨hfirst, hpast⟩ => ?_⟩
    · unfold Frames.allocatable Frames.allocatablePage
      simp only [hpage, Bool.and_eq_true, decide_eq_true_eq]
      exact ⟨hall, hlt⟩
    · rw [userFirst_eq] at hfirst
      rw [userPast_eq] at hpast
      unfold procStart virtualSize
      unfold pageSize at hdiv
      omega

theorem access_confined_stack : ∃ k t va pa, boot bareLoader (some "idle") = .ok k ∧
    k.procs.table? 1 = some t ∧ va = VirtAddr.ofPage (stackPage / pageSize) ∧
    k.frames.memory.locate t.pa va .write true = .ok (.ok pa) ∧
    ((InConsole va.toNat ∧ InConsole pa.toNat) ∨
      (k.frames.allocatable pa = true ∧ HoldsNoTable k pa.pageNumber ∧
        (InConsole va.toNat ∨ procStart ≤ va.toNat ∧ va.toNat < virtualSize))) := by
  obtain ⟨k, hboot, -, ⟨t, ht, hstack⟩, -⟩ := boot_bare
  obtain ⟨e, hm, hw, hu, hl, -⟩ := hstack.leaf
  have hreach : Reachable bareLoader k := .boot hboot
  obtain ⟨g, hg⟩ := hreach.sound.userland
  have hlocate := hg.accounted.fits.locate_eq hg.spaces.linked
    (VirtAddr.ofPage (stackPage / pageSize)) (hg.owns.isRoot ht) .write true
  rw [VirtAddr.page_ofPage (by decide), hm] at hlocate
  dsimp only at hlocate
  rw [hl, hw, hu] at hlocate
  exact ⟨k, t, _, _, hboot, ht, rfl, hlocate, hreach.access_confined ht (a := 0x2ff000) rfl hlocate⟩

/-! ### Sharing -/

/-- Page number `pn` is mapped at page number `v` of process `pid`, and nobody else refers to it. -/
structure Owned (k : Kernel) (pid : Pid) (v pn : Nat) : Prop where
  count : k.frames.count pn = 1
  noTable : HoldsNoTable k pn
  notKernel : ∀ {v' e}, k.frames.memory.mapped k.table.root.number v' = some e →
    e.addr.pageNumber ≠ pn
  unique : ∀ {pid' t v' e}, k.procs.table? pid' = some t →
    k.frames.memory.mapped t.root.number v' = some e → e.addr.pageNumber = pn →
    pid' = pid ∧ v' = v

/-- **A page that a process can write has one owner**, but for the page of the console, which is
mapped at its own address only. -/
theorem Reachable.writable_owned (h : Reachable loader k) :
    (∀ pid t v e, k.procs.table? pid = some t →
      k.frames.memory.mapped t.root.number v = some e → e.writable = true → e.user = true →
      e.addr.pageNumber ≠ consolePage → Owned k pid v e.addr.pageNumber) ∧
    ∀ t ∈ k.tables, ∀ v e, k.frames.memory.mapped t.root.number v = some e →
      e.addr.pageNumber = consolePage → v = consolePage := by
  obtain ⟨g, hg⟩ := h.sound.userland
  constructor
  · intro pid t v e ht hm hw hu hc
    have hmaps : g.Maps k.frames.memory t.root.number v e := ⟨hg.owns.isRoot ht, hm⟩
    have hsole := hg.sole hmaps hw hu hc
    have haddr : ∀ {e' : Entry}, e'.addr.pageNumber = e.addr.pageNumber → e'.addr = e.addr := by
      intro e' heq
      rw [e'.addr_eq_pageAt, heq, ← e.addr_eq_pageAt]
    constructor
    case count => exact hg.accounted.count_sole hsole hmaps
    case noTable => exact holdsNoTable hg (hg.accounted.fits.mapped_target hmaps.1 hm).1
    case notKernel =>
      intro v' e' hm' heq
      exact hg.owns.ne ht (hsole ⟨hg.spaces.kernelRoot, hm'⟩ (haddr heq)).1.symm
    case unique =>
      intro pid' t' v' e' ht' hm' heq
      obtain ⟨hroot, hv⟩ := hsole ⟨hg.owns.isRoot ht', hm'⟩ (haddr heq)
      exact ⟨hg.owns.injective ht' ht hroot, hv⟩
  · intro t ht v e hm hc
    exact hg.console_page ⟨hg.allOf.isRoot t ht, hm⟩ hc

theorem writable_owned_stack : ∃ (k : Kernel) (e : Entry), boot bareLoader (some "idle") = .ok k ∧
    Allocatable e.addr.pageNumber ∧ Owned k 1 (stackPage / pageSize) e.addr.pageNumber := by
  obtain ⟨k, hboot, -, ⟨t, ht, hstack⟩, -⟩ := boot_bare
  obtain ⟨e, hm, hw, hu, -, hall⟩ := hstack.leaf
  refine ⟨k, e, hboot, hall, (Reachable.writable_owned (.boot hboot)).1 1 t _ e ht hm hw hu ?_⟩
  intro hc
  rw [hc] at hall
  exact absurd (allocatable_iff.mp hall) (by decide)

/-- **Every process is confined**: no walk of it leaves the memory, and what it can write is found
at one page of its addresses only and is part of no table. -/
theorem Reachable.confined (h : Reachable loader k) {pid : Pid} {t : PageTable}
    (ht : k.procs.table? pid = some t) (regs : Registers) (cr2 : UInt64) :
    (Core.mk k.frames.memory regs t.pa cr2).Confined := by
  obtain ⟨g, hg⟩ := h.sound.userland
  have hr := hg.owns.isRoot ht
  apply hg.accounted.fits.confined hg.spaces.linked hr _ rfl rfl
  intro v v' e e' hm hw hu hm' _ hpage
  by_cases hc : e.addr.pageNumber = consolePage
  · have hv := hg.console_page ⟨hr, hm⟩ hc
    have hv' := hg.console_page ⟨hr, hm'⟩ (hpage.trans hc)
    rw [hv, hv']
  · have haddr : e'.addr = e.addr := by
      rw [e'.addr_eq_pageAt, hpage, ← e.addr_eq_pageAt]
    exact (hg.sole ⟨hr, hm⟩ hw hu hc ⟨hr, hm'⟩ haddr).2

end Kernel
end PagedKernel
