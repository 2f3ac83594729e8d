import PagedKernel.Proofs.Process.Spaces
import PagedKernel.Proofs.Process.Table
import PagedKernel.Proofs.Spaces.Execution
import PagedKernel.Proofs.Spaces.Untouched

/-!
# Processes apart

What a process has is its slot, the tables of its space and the bytes of the pages that it maps.
`Userland.Spares q` says that a change leaves all that of process `q` alone, but for the page of the
console, which all processes share; `Userland.Concerns pid` that it does so for every process but
`pid`. Such changes compose, and those of one space or of the pages that one process can write are
of this kind.

Key definitions: `Userland.Spares`, `Userland.Concerns`.
Key theorems: `Userland.Concerns.trans`, `Userland.Concerns.of_kept`, `Userland.Concerns.of_wrote`.
-/

namespace PagedKernel
namespace Userland

variable {n : Nat} {g g' : Shape} {kr : Nat} {pid q : Pid} {s s' s'' : Userland n}

/-- Process `q` has in `s'` what it has in `s`. The page of the console is nobody's. -/
structure Spares (q : Pid) (s s' : Userland n) : Prop where
  slot : s'.procs.slot q = s.procs.slot q
  space : ∀ {t}, s.procs.table? q = some t →
    Memory.SameSpace t.root.number s.frames.memory s'.frames.memory
  byte : ∀ {t v e}, s.procs.table? q = some t → s.frames.memory.mapped t.root.number v = some e →
    e.addr.pageNumber ≠ consolePage → ∀ a, a / pageSize = e.addr.pageNumber →
    s'.frames.memory.byte a = s.frames.memory.byte a

/-- What differs between `s` and `s'` concerns process `pid` alone, and slots that were free. -/
def Concerns (pid : Pid) (s s' : Userland n) : Prop :=
  ∀ q, q ≠ pid → s.procs.state q ≠ .free → Spares q s s'

namespace Spares

theorem state (h : Spares q s s') : s'.procs.state q = s.procs.state q := by
  rw [ProcessTable.state_eq, h.slot, ProcessTable.state_eq]

theorem table? (h : Spares q s s') : s'.procs.table? q = s.procs.table? q := by
  rw [ProcessTable.table?_eq, h.slot, ProcessTable.table?_eq]

theorem mapped (h : Spares q s s') {t : PageTable} (ht : s.procs.table? q = some t) :
    s'.frames.memory.mapped t.root.number = s.frames.memory.mapped t.root.number :=
  (h.space ht).mapped

theorem refl (q : Pid) (s : Userland n) : Spares q s s :=
  ⟨rfl, fun _ => .refl _ _, fun _ _ _ _ _ => rfl⟩

theorem trans (h : Spares q s s') (h' : Spares q s' s'') : Spares q s s'' where
  slot := h'.slot.trans h.slot
  space ht := (h.space ht).trans (h'.space (h.table?.trans ht))
  byte ht hm hc a ha := by
    have hm' := (congrFun (h.mapped ht) _).trans hm
    rw [h'.byte (h.table?.trans ht) hm' hc a ha, h.byte ht hm hc a ha]

theorem of_frames_eq (hf : s'.frames = s.frames) (hslot : s'.procs.slot q = s.procs.slot q) :
    Spares q s s' :=
  ⟨hslot, fun _ => hf ▸ .refl _ _, fun _ _ _ _ _ => by rw [hf]⟩

end Spares

namespace Concerns

theorem refl (pid : Pid) (s : Userland n) : Concerns pid s s :=
  fun q _ _ => .refl q s

theorem trans (h : Concerns pid s s') (h' : Concerns pid s' s'') : Concerns pid s s'' := by
  intro q hq hlive
  have h1 := h q hq hlive
  exact h1.trans (h' q hq (by rwa [h1.state]))

theorem of_frames_eq (hf : s'.frames = s.frames)
    (hslot : ∀ q, q ≠ pid → s'.procs.slot q = s.procs.slot q) : Concerns pid s s' :=
  fun q hq _ => .of_frames_eq hf (hslot q hq)

/-- **A change of other spaces** than those of the other processes does not concern them. -/
theorem of_kept (ho : s.procs.Owns kr g) (hfits : g.Fits s.frames.memory) {P : Nat → Prop}
    {f' : Frames n} (hk : Kept P g s.frames g' f') (hf : s'.frames = f')
    (hP : ∀ {q t}, q ≠ pid → s.procs.table? q = some t → P t.root.number)
    (hslot : ∀ q, q ≠ pid → s.procs.state q ≠ .free → s'.procs.slot q = s.procs.slot q) :
    Concerns pid s s' := by
  subst hf
  exact fun q hq hlive => {
    slot := hslot q hq hlive
    space := fun ht => hk.sameSpace hfits (hP hq ht) (ho.isRoot ht)
    byte := fun ht hm _ => hk.byte (hP hq ht) (ho.isRoot ht) hm }

theorem of_kept_ne (ho : s.procs.Owns kr g) (hfits : g.Fits s.frames.memory) {t : PageTable}
    (ht : s.procs.table? pid = some t) {f' : Frames n}
    (hk : Kept (· ≠ t.root.number) g s.frames g' f') (hf : s'.frames = f')
    (hslot : ∀ q, q ≠ pid → s.procs.state q ≠ .free → s'.procs.slot q = s.procs.slot q) :
    Concerns pid s s' :=
  of_kept ho hfits hk hf (fun hq ht' heq => hq (ho.injective ht' ht heq)) hslot

/-- **What a process writes**, where it may, does not concern the others. -/
theorem of_wrote [Addressable n] {P : Nat → Prop} (ho : s.procs.Owns kr g)
    (hs : Spaces kr P g s.frames.memory) (hfits : g.Fits s.frames.memory) {t : PageTable}
    (ht : s.procs.table? pid = some t)
    (hw : Wrote (s.frames.memory.UserWritable t.root.number) s.frames s'.frames)
    (hp : s'.procs = s.procs) : Concerns pid s s' := by
  have hnone : ∀ c, s.frames.memory.UserWritable t.root.number c → g c = none := by
    rintro _ ⟨v, e, hm, -, -, rfl⟩
    exact (hfits.mapped_target (ho.isRoot ht) hm).1
  intro q hq _
  refine ⟨by rw [hp], fun ht' => hw.sameSpace hnone hfits (ho.isRoot ht'), ?_⟩
  intro t' v e ht' hm hc a ha
  refine hw.byte a fun hwritable => hq ?_
  -- a page that both can get at would be private to either
  obtain ⟨v', e', hm', hwr, hu, hpage⟩ := hwritable
  have haddr : e.addr = e'.addr := by
    rw [e.addr_eq_pageAt, e'.addr_eq_pageAt, hpage, ha]
  have hne : e'.addr ≠ pageAt consolePage := fun heq => by
    rw [← haddr] at heq
    exact hc (by rw [heq, pageAt_pageNumber (by decide)])
  exact ho.injective ht' ht
    (hs.isPrivate ⟨ho.isRoot ht, hm'⟩ ⟨ho.isRoot ht', hm⟩ hwr hu haddr hne).1

end Concerns

end Userland
end PagedKernel
