import PagedKernel.Proofs.Spaces.Confinement
import PagedKernel.Proofs.Spaces.Consistency
import PagedKernel.Proofs.Spaces.Lockstep

/-!
# Programs and what they see

Two machines may have memories of different sizes, tables that look different and pages in other
places. If their programs are confined and see the same, with the same registers, then both do the
same, instruction by instruction, whatever the instructions are: what is fetched or loaded is seen,
and what is stored is seen afterwards, so they go on seeing the same (`Core.LookAlike`). Where a
page lies in the memory makes no difference to a program, and it cannot get at anything else.

Key definitions: `Core.LookAlike`, `Core.Together`.
Key theorems: `Core.LookAlike.step`, `Core.LookAlike.run_ends_alike`.
-/

namespace PagedKernel
namespace Core

variable {n₁ n₂ : Nat} {c₁ d₁ : Core n₁} {c₂ d₂ : Core n₂} {va : VirtAddr} {access : Access}
  {pa₁ pa₂ : PhysAddr}

/-- Both programs are confined and see the same, and they have the same registers. -/
structure LookAlike (c₁ : Core n₁) (c₂ : Core n₂) : Prop where
  confined₁ : c₁.Confined
  confined₂ : c₂.Confined
  regs : c₂.regs = c₁.regs
  cr2 : c₂.cr2 = c₁.cr2
  seen : ∀ va, va.Canonical → ∀ access, c₂.seen va access = c₁.seen va access

/-- They still look alike, and have changed only what they could write. -/
structure Together (c₁ : Core n₁) (c₂ : Core n₂) (d₁ : Core n₁) (d₂ : Core n₂) : Prop where
  alike : LookAlike d₁ d₂
  keeps₁ : Keeps c₁ d₁
  keeps₂ : Keeps c₂ d₂

theorem Together.refl (h : LookAlike c₁ c₂) : Together c₁ c₂ c₁ c₂ :=
  ⟨h, .refl _, .refl _⟩

theorem Together.trans {e₁ : Core n₁} {e₂ : Core n₂} (hc : LookAlike c₁ c₂)
    (h : Together c₁ c₂ d₁ d₂) (h' : Together d₁ d₂ e₁ e₂) : Together c₁ c₂ e₁ e₂ :=
  ⟨h'.alike, h.keeps₁.trans hc.confined₁ h'.keeps₁, h.keeps₂.trans hc.confined₂ h'.keeps₂⟩

namespace LookAlike

/-! ### Reading -/

theorem readByte (h : LookAlike c₁ c₂) (h₁ : c₁.Finds va access pa₁)
    (h₂ : c₂.Finds va access pa₂) :
    c₁.memory.readByte pa₁ = .ok (c₁.memory.byte pa₁.toNat) ∧
      c₂.memory.readByte pa₂ = .ok (c₁.memory.byte pa₁.toNat) := by
  have hseen := h.seen va h₁.1 access
  rw [h.confined₁.seen_eq h₁, h.confined₂.seen_eq h₂] at hseen
  refine ⟨c₁.memory.readByte_of_lt (h.confined₁.lt h₁), ?_⟩
  rw [← Except.ok.inj (Except.ok.inj hseen)]
  exact c₂.memory.readByte_of_lt (h.confined₂.lt h₂)

/-- Both find an address, or neither does and they fault alike. -/
theorem locate (h : LookAlike c₁ c₂) (addr : UInt64) (access : Access) :
    GoTogether (fun pa₁ pa₂ => ∃ va, c₁.Finds va access pa₁ ∧ c₂.Finds va access pa₂)
      (c₁.locate addr access) (c₂.locate addr access) := by
  unfold Core.locate
  cases hva : VirtAddr.ofWord? addr with
  | none => exact .inr ⟨.nonCanonical, rfl, rfl⟩
  | some va =>
    have hcan : va.Canonical := VirtAddr.canonical_of_ofWord? hva
    obtain ⟨res, hres⟩ := h.confined₁.inside va hcan access
    have hres₂ := (h.seen va hcan access).trans hres
    dsimp only
    cases res with
    | error code =>
      rw [seen_eq_error.mp hres, seen_eq_error.mp hres₂]
      exact .inr ⟨.page addr code, rfl, rfl⟩
    | ok b =>
      obtain ⟨pa₁, h₁, -⟩ := seen_eq_ok.mp hres
      obtain ⟨pa₂, h₂, -⟩ := seen_eq_ok.mp hres₂
      rw [h₁, h₂]
      exact .inl ⟨pa₁, pa₂, rfl, rfl, va, ⟨hcan, h₁⟩, hcan, h₂⟩

theorem readBytes (h : LookAlike c₁ c₂) (access : Access) : ∀ (addr : UInt64) (k : Nat),
    GoTogether (fun l₁ l₂ => l₂ = l₁) (c₁.readBytes access addr k) (c₂.readBytes access addr k)
  | _, 0 => .pure rfl
  | addr, k + 1 => by
    apply GoTogether.bind (h.locate addr access)
    rintro pa₁ pa₂ - ⟨va, h₁, h₂⟩
    obtain ⟨hread₁, hread₂⟩ := h.readByte h₁ h₂
    rw [hread₁, hread₂]
    apply GoTogether.bind (h.readBytes access (addr + 1) k)
    rintro _ l - rfl
    exact .pure rfl

theorem loadWord (h : LookAlike c₁ c₂) (addr : UInt64) :
    GoTogether (fun w₁ w₂ => w₂ = w₁) (c₁.loadWord addr) (c₂.loadWord addr) := by
  apply GoTogether.bind (h.readBytes .read addr 8)
  rintro _ l - rfl
  split <;> exact .pure rfl

theorem loadByte (h : LookAlike c₁ c₂) (addr : UInt64) :
    GoTogether (fun w₁ w₂ => w₂ = w₁) (c₁.loadByte addr) (c₂.loadByte addr) := by
  apply GoTogether.bind (h.readBytes .read addr 1)
  rintro _ l - rfl
  split <;> exact .pure rfl

/-- **Both fetch the same instruction.** -/
theorem fetch (h : LookAlike c₁ c₂) : GoTogether (fun i₁ i₂ => i₂ = i₁) c₁.fetch c₂.fetch := by
  unfold Core.fetch
  rw [h.regs]
  apply GoTogether.bind (h.readBytes .execute c₁.regs.rip instructionSize)
  rintro _ l - rfl
  split
  · exact .pure rfl
  · exact .inr ⟨.undefined, rfl, rfl⟩

/-! ### Writing -/

/-- Both find the addresses of a store, or neither does and they fault alike. -/
theorem writeTargets (h : LookAlike c₁ c₂) : ∀ (addr : UInt64) (k : Nat),
    GoTogether (List.Forall₂ fun pa₁ pa₂ => ∃ va, c₁.Finds va .write pa₁ ∧ c₂.Finds va .write pa₂)
      (c₁.writeTargets addr k) (c₂.writeTargets addr k)
  | _, 0 => .pure .nil
  | addr, k + 1 => by
    apply GoTogether.bind (h.locate addr .write)
    rintro pa₁ pa₂ - hpa
    apply GoTogether.bind (h.writeTargets (addr + 1) k)
    intro l₁ l₂ _ hl
    exact .pure (.cons hpa hl)

/-- A byte that both write is seen by both. -/
theorem putByte (h : LookAlike c₁ c₂) (h₁ : c₁.Finds va .write pa₁) (h₂ : c₂.Finds va .write pa₂)
    (v : UInt8) : Together c₁ c₂ { c₁ with memory := c₁.memory.putByte pa₁.toNat v }
      { c₂ with memory := c₂.memory.putByte pa₂.toNat v } := by
  have hkeeps₁ := Keeps.putByte h₁ v
  have hkeeps₂ := Keeps.putByte h₂ v
  refine ⟨⟨h.confined₁.of_keeps hkeeps₁, h.confined₂.of_keeps hkeeps₂, h.regs, h.cr2,
    fun va' hva' access => ?_⟩, hkeeps₁, hkeeps₂⟩
  rw [h.confined₁.seen_putByte h₁ v hva', h.confined₂.seen_putByte h₂ v hva', h.seen va' hva']

theorem writeAll (h : LookAlike c₁ c₂) {l₁ l₂ : List PhysAddr}
    (hl : List.Forall₂ (fun pa₁ pa₂ => ∃ va, c₁.Finds va .write pa₁ ∧ c₂.Finds va .write pa₂)
      l₁ l₂) (data : List UInt8) :
    ∃ m₁ m₂, Core.writeAll c₁.memory (l₁.zip data) = .ok m₁ ∧
      Core.writeAll c₂.memory (l₂.zip data) = .ok m₂ ∧
      Together c₁ c₂ { c₁ with memory := m₁ } { c₂ with memory := m₂ } := by
  induction data generalizing c₁ c₂ l₁ l₂ with
  | nil =>
    rw [List.zip_nil_right, List.zip_nil_right]
    exact ⟨_, _, rfl, rfl, .refl h⟩
  | cons v data ih =>
    cases hl with
    | nil => exact ⟨_, _, rfl, rfl, .refl h⟩
    | @cons pa₁ pa₂ l₁ l₂ hpa hl =>
      obtain ⟨va, h₁, h₂⟩ := hpa
      have hput := h.putByte h₁ h₂ v
      -- the other bytes are found where they were
      have hrest := hl.imp fun pa₁ pa₂ hfinds =>
        hfinds.imp fun va hva => And.intro ((hput.keeps₁.finds h.confined₁).mpr hva.1)
          ((hput.keeps₂.finds h.confined₂).mpr hva.2)
      obtain ⟨m₁, m₂, hm₁, hm₂, hm⟩ := ih hput.alike hrest
      refine ⟨m₁, m₂, ?_, ?_, .trans h hput hm⟩
      · rw [List.zip_cons_cons, Core.writeAll, c₁.memory.writeByte_of_lt v (h.confined₁.lt h₁)]
        exact hm₁
      · rw [List.zip_cons_cons, Core.writeAll, c₂.memory.writeByte_of_lt v (h.confined₂.lt h₂)]
        exact hm₂

/-- **Both store the same bytes**, at addresses that need not be the same. -/
theorem store (h : LookAlike c₁ c₂) (addr : UInt64) (data : List UInt8) :
    GoTogether (Together c₁ c₂) (c₁.store addr data) (c₂.store addr data) := by
  apply GoTogether.bind (h.writeTargets addr data.length)
  intro l₁ l₂ _ hl
  obtain ⟨m₁, m₂, hm₁, hm₂, hm⟩ := h.writeAll hl data
  rw [hm₁, hm₂]
  exact .pure hm

/-! ### Instructions -/

theorem withRegs (h : LookAlike c₁ c₂) {regs₁ regs₂ : Registers} {cr2₁ cr2₂ : UInt64}
    (hregs : regs₂ = regs₁) (hcr2 : cr2₂ = cr2₁) :
    Together c₁ c₂ { c₁ with regs := regs₁, cr2 := cr2₁ }
      { c₂ with regs := regs₂, cr2 := cr2₂ } := by
  have hkeeps₁ : Keeps c₁ { c₁ with regs := regs₁, cr2 := cr2₁ } := ⟨rfl, fun _ _ => rfl⟩
  have hkeeps₂ : Keeps c₂ { c₂ with regs := regs₂, cr2 := cr2₂ } := ⟨rfl, fun _ _ => rfl⟩
  exact ⟨⟨h.confined₁.of_keeps hkeeps₁, h.confined₂.of_keeps hkeeps₂, hregs, hcr2, h.seen⟩,
    hkeeps₁, hkeeps₂⟩

theorem setReg (h : LookAlike c₁ c₂) (r : Reg) (v : UInt64) :
    Together c₁ c₂ (c₁.setReg r v) (c₂.setReg r v) :=
  h.withRegs (congrArg (·.set r v) h.regs) h.cr2

theorem jump (h : LookAlike c₁ c₂) (rip : UInt64) :
    Together c₁ c₂ (c₁.jump rip) (c₂.jump rip) :=
  h.withRegs (congrArg (fun regs : Registers => { regs with rip }) h.regs) h.cr2

theorem record (h : LookAlike c₁ c₂) (fault : Fault) :
    Together c₁ c₂ (c₁.record fault) (c₂.record fault) := by
  cases fault with
  | undefined => exact .refl h
  | nonCanonical => exact .refl h
  | page addr code =>
    exact h.withRegs (congrArg (fun regs : Registers => { regs with errorCode := code }) h.regs) rfl

theorem followsRegs (h : LookAlike c₁ c₂) : FollowsRegs (Together c₁ c₂) where
  setReg hd r v := .trans h hd (hd.alike.setReg r v)
  jump hd rip := .trans h hd (hd.alike.jump rip)

/-- **Both execute the same instruction**, and go on looking alike. -/
theorem execute (h : LookAlike c₁ c₂) :
    GoTogether (fun res₁ res₂ => res₂.1 = res₁.1 ∧ Together c₁ c₂ res₁.2 res₂.2) c₁.execute
      c₂.execute := by
  have hget : ∀ r, c₂.regs.get r = c₁.regs.get r := fun r => congrArg (·.get r) h.regs
  have hrip : c₂.regs.rip = c₁.regs.rip := congrArg Registers.rip h.regs
  exact execute_of_complete h.fetch fun i _ => h.followsRegs.complete (.refl h) hget hrip i
    (fun _ => h.loadWord _) (fun _ => h.loadByte _) h.store

/-! ### Runs -/

/-- **A step** ends in the same trap on both, if in any. -/
theorem step (h : LookAlike c₁ c₂) : ∃ trap d₁ d₂, c₁.step = .ok (trap, d₁) ∧
    c₂.step = .ok (trap, d₂) ∧ Together c₁ c₂ d₁ d₂ := by
  unfold Core.step
  rcases h.execute with ⟨⟨_, d₁⟩, ⟨called, d₂⟩, h₁, h₂, rfl, hd⟩ | ⟨fault, h₁, h₂⟩
  · rw [h₁, h₂]
    cases called with
    | true => exact ⟨_, d₁, d₂, rfl, rfl, hd⟩
    | false => exact ⟨_, d₁, d₂, rfl, rfl, hd⟩
  · rw [h₁, h₂]
    exact ⟨_, _, _, rfl, rfl, h.record fault⟩

theorem runFor (quantum count : Nat) (h : LookAlike c₁ c₂) : ∃ trap left d₁ d₂,
    Core.runFor quantum count c₁ = .ok (trap, left, d₁) ∧
    Core.runFor quantum count c₂ = .ok (trap, left, d₂) ∧ Together c₁ c₂ d₁ d₂ := by
  induction count generalizing c₁ c₂ with
  | zero => exact ⟨.timer, quantum, c₁, c₂, rfl, rfl, .refl h⟩
  | succ count ih =>
    obtain ⟨trap, d₁, d₂, h₁, h₂, hd⟩ := h.step
    rw [Core.runFor, Core.runFor, h₁, h₂]
    cases trap with
    | some trap => exact ⟨trap, count, d₁, d₂, rfl, rfl, hd⟩
    | none =>
      obtain ⟨trap, left, e₁, e₂, hrun₁, hrun₂, he⟩ := ih hd.alike
      exact ⟨trap, left, e₁, e₂, hrun₁, hrun₂, .trans h hd he⟩

/-- **A program knows of the memory what it sees**, and changes nothing else. Two confined programs
that see the same and have the same registers run until the same trap, and have the same registers
then, the same time on the timer, and see the same. In each memory, only bytes of pages that the
program could write have changed, and all walks end where they did. -/
theorem run_ends_alike (h : LookAlike c₁ c₂) (timer : Timer) : ∃ trap d₁ d₂ timer',
    c₁.run timer = .ok (trap, d₁, timer') ∧ c₂.run timer = .ok (trap, d₂, timer') ∧
    LookAlike d₁ d₂ ∧ Keeps c₁ d₁ ∧ Keeps c₂ d₂ ∧
    ∀ va, va.Canonical → ∀ access user,
      d₁.memory.locate d₁.cr3 va access user = c₁.memory.locate c₁.cr3 va access user ∧
      d₂.memory.locate d₂.cr3 va access user = c₂.memory.locate c₂.cr3 va access user := by
  obtain ⟨trap, left, d₁, d₂, h₁, h₂, hd⟩ := h.runFor timer.quantum timer.count
  have hvector := hd.alike.withRegs (congrArg
    (fun regs : Registers => { regs with vector := trap.code }) hd.alike.regs) hd.alike.cr2
  have hdone := Together.trans h hd hvector
  unfold Core.run
  rw [h₁, h₂]
  exact ⟨trap, _, _, { timer with count := left }, rfl, rfl, hdone.alike, hdone.keeps₁,
    hdone.keeps₂, fun va hva access user => ⟨hdone.keeps₁.locate h.confined₁ hva access user,
      hdone.keeps₂.locate h.confined₂ hva access user⟩⟩

end LookAlike

end Core

/-! ### Spaces of one page -/

namespace OnePage

variable {n : Nat} [Addressable n] {g : Shape} {f : Frames n} {r c : Nat}

theorem confined (h : OnePage g f r c) (hf : g.Fits f.memory) (hk : g.Linked f.memory)
    (regs : Registers) : (Core.mk f.memory regs (pageAt r) 0).Confined := by
  refine hf.confined hk h.isRoot (fun hm _ _ hm' _ _ => ?_) rfl rfl
  rw [(h.eq_of_mapped hm).1, (h.eq_of_mapped hm').1]

/-- What a program sees does not depend on where the page is. -/
theorem seen_eq (h : OnePage g f r c) (hf : g.Fits f.memory) (hk : g.Linked f.memory)
    (regs : Registers) (va : VirtAddr) (access : Access) :
    (Core.mk f.memory regs (pageAt r) 0).seen va access =
      if va.page = 1 then .ok (.ok allocFill) else .ok (.error (missingPageCode access true)) := by
  have hlocate := hf.locate_eq hk va h.isRoot access true
  rw [h.mapped] at hlocate
  by_cases hv : va.page = 1
  · have hc : c < 2 ^ 40 := lt_of_lt_of_le h.lt Addressable.le
    have hoff : va.pageOffset < pageSize := mod_pageSize_lt _
    rw [hv, Function.update_self] at hlocate
    simp only [Entry.large_link hc, Entry.writable_link hc, Entry.user_link hc, Entry.addr_link hc,
      Permission.toFlags, Permission.userData, Flags.empty, Bool.not_true, Bool.and_false,
      Bool.or_false, Bool.false_eq_true, if_false] at hlocate
    have hpage := inPage_pageNumber hc hoff
    rw [if_pos hv]
    refine Core.seen_eq_ok.mpr ⟨_, hlocate, ?_⟩
    rw [Memory.readByte_of_lt f.memory (hpage.symm ▸ h.lt), h.byte _ hpage]
  · rw [Function.update_of_ne hv] at hlocate
    rw [if_neg hv]
    exact Core.seen_eq_error.mpr hlocate

end OnePage

/-- Two spaces of one memory with different pages at page number 1. -/
theorem Core.run_ends_alike_one_page : ∃ c₁ c₂ : Core physicalPages,
    c₂.memory.mapped c₂.cr3.pageNumber ≠ c₁.memory.mapped c₁.cr3.pageNumber ∧ LookAlike c₁ c₂ ∧
    ∀ timer, ∃ trap d₁ d₂ timer',
      c₁.run timer = .ok (trap, d₁, timer') ∧ c₂.run timer = .ok (trap, d₂, timer') ∧
      LookAlike d₁ d₂ ∧ Keeps c₁ d₁ ∧ Keeps c₂ d₂ ∧
      ∀ va, va.Canonical → ∀ access user,
        d₁.memory.locate d₁.cr3 va access user = c₁.memory.locate c₁.cr3 va access user ∧
        d₂.memory.locate d₂.cr3 va access user = c₂.memory.locate c₂.cr3 va access user := by
  have hfree := Frames.freePages_fresh
  obtain ⟨g₁, f₁, r₁, q₁, hacc₁, hkept₁, -, -, hone₁, hfree₁⟩ :=
    OnePage.of_freePages (accounted_fresh physicalPages) (by omega)
  obtain ⟨g₂, f₂, r₂, q₂, hacc₂, hkept₂, hr₂, hq₂, hone₂, -⟩ :=
    OnePage.of_freePages hacc₁ (by omega)
  have hne : r₁ ≠ r₂ := fun h => hr₂ (h ▸ hone₁.isRoot)
  have hpages : q₂ ≠ q₁ := by
    have hused := hacc₁.count_mapped hone₁.isRoot hone₁.mapped_one
    rw [hone₁.pageNumber] at hused
    exact fun h => hused (h ▸ hq₂)
  have hold := hone₁.kept hkept₂ hne
  have hk₂ := hkept₂.linked (hkept₁.linked nofun)
  have hlook : LookAlike ⟨f₂.memory, {}, pageAt r₁, 0⟩ ⟨f₂.memory, {}, pageAt r₂, 0⟩ := by
    refine ⟨hold.confined hacc₂.fits hk₂ {}, hone₂.confined hacc₂.fits hk₂ {}, rfl, rfl, ?_⟩
    intro va _ access
    rw [hold.seen_eq hacc₂.fits hk₂, hone₂.seen_eq hacc₂.fits hk₂]
  refine ⟨_, _, fun hmapped => hpages ?_, hlook, hlook.run_ends_alike⟩
  have hroot : ∀ {r}, g₂.IsRoot r → (pageAt r).pageNumber = r := fun hr =>
    pageAt_pageNumber (lt_of_lt_of_le (hacc₂.fits.installed hr) (by decide))
  dsimp only at hmapped
  rw [hroot hold.isRoot, hroot hone₂.isRoot] at hmapped
  have hentry := congrFun hmapped 1
  rw [hold.mapped_one, hone₂.mapped_one, Option.some.injEq] at hentry
  rw [← hold.pageNumber, ← hone₂.pageNumber, hentry]

end PagedKernel
