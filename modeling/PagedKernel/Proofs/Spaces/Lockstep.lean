import PagedKernel.Proofs.Spaces.Execution

/-!
# Cores in step

Two cores are alike if they have the same registers, but for the vector of the last trap, and the
same bytes in some pages. As long as the spaces they run in map the same, and the bytes that an
instruction reads or writes lie in those pages, both do the same: they end in the same trap or in
none, and are alike again. An attempt reads the bytes of the instruction and then those of a load,
or writes those of a store; a store that faults writes none.

Key definitions: `Core.accesses`, `Core.Alike`, `GoTogether`.
Key theorems: `Core.RunsIn.accesses_mapped`, `Core.FollowsRegs.complete`, `Core.step_together`,
`Core.RunsIn.step_alike`.
-/

namespace PagedKernel

variable {n : Nat}

/-! ### What an attempt accesses -/

namespace Core

/-- The addresses of the bytes that are read from `addr` on, `k` at most, up to one that cannot be.
-/
def readsFrom (c : Core n) (access : Access) : UInt64 → Nat → List PhysAddr
  | _, 0 => []
  | addr, k + 1 =>
    match (c.locate addr access).run with
    | .ok (.ok pa) => pa :: c.readsFrom access (addr + 1) k
    | _ => []

/-- The addresses of the `k` bytes that are written from `addr` on, if all can be. -/
def writesTo (c : Core n) (addr : UInt64) (k : Nat) : List PhysAddr :=
  match (c.writeTargets addr k).run with
  | .ok (.ok targets) => targets
  | _ => []

/-- The addresses of the bytes that the instruction `i` reads or writes. -/
def operands (c : Core n) (i : Instruction) : List PhysAddr :=
  match i.op with
  | .load => c.readsFrom .read (c.regs.get i.b + signExtend i.imm) 8
  | .loadByte => c.readsFrom .read (c.regs.get i.b + signExtend i.imm) 1
  | .store => c.writesTo (c.regs.get i.a + signExtend i.imm) 8
  | .storeByte => c.writesTo (c.regs.get i.a + signExtend i.imm) 1
  | _ => []

/-- The addresses of all bytes that the next attempt of an instruction reads or writes. -/
def accesses (c : Core n) : List PhysAddr :=
  c.readsFrom .execute c.regs.rip instructionSize ++
    match c.fetch.run with
    | .ok (.ok i) => c.operands i
    | _ => []

end Core

variable {α β α' β' : Type}

theorem Completes.of_run {x : Attempt α} {Q : α → Prop} (h : Completes x Q) {a : α}
    (ha : x.run = .ok (.ok a)) : Q a := by
  obtain ⟨res, hres, hQ⟩ := h
  obtain rfl : res = .ok a := Except.ok.inj (hres.symm.trans ha)
  exact hQ

/-- Page number `q` is one that the space with root `r` maps. -/
def Memory.MapsPage (m : Memory n) (r q : Nat) : Prop :=
  ∃ v e, m.mapped r v = some e ∧ e.addr.pageNumber = q

namespace Core.RunsIn

variable [Addressable n] {g : Shape} {f : Frames n} {r : Nat} {c : Core n}

theorem mapsPage_of_grants (h : RunsIn g f r c) {addr : UInt64} {access : Access} {pa : PhysAddr}
    (hpa : f.memory.Grants r addr access pa) : f.memory.MapsPage r pa.pageNumber := by
  obtain ⟨va, e, -, hm, -, -, rfl⟩ := hpa
  have hlt := (h.fits.mapped_target h.isRoot hm).2
  have hpage := inPage_pageNumber (lt_of_lt_of_le hlt Addressable.le) (mod_pageSize_lt va.toNat)
  rw [← e.addr_eq_pageAt] at hpage
  exact ⟨va.page, e, hm, hpage.symm⟩

theorem readsFrom_mapped (h : RunsIn g f r c) (access : Access) : ∀ (addr : UInt64) (k : Nat),
    ∀ pa ∈ c.readsFrom access addr k, f.memory.MapsPage r pa.pageNumber
  | _, 0 => nofun
  | addr, k + 1 => by
    rw [readsFrom]
    split
    · next pa hpa =>
      refine List.forall_mem_cons.mpr ⟨?_, h.readsFrom_mapped access (addr + 1) k⟩
      exact h.mapsPage_of_grants ((h.locate addr access).of_run hpa)
    · exact nofun

theorem writesTo_mapped (h : RunsIn g f r c) (addr : UInt64) (k : Nat) :
    ∀ pa ∈ c.writesTo addr k, f.memory.MapsPage r pa.pageNumber := by
  unfold writesTo
  split
  · next targets htargets =>
    intro pa hpa
    obtain ⟨addr', hgrants⟩ := (h.writeTargets addr k).of_run htargets pa hpa
    exact h.mapsPage_of_grants hgrants
  · exact nofun

/-- **A program accesses pages that its space maps**, and no others. -/
theorem accesses_mapped (h : RunsIn g f r c) :
    ∀ pa ∈ c.accesses, f.memory.MapsPage r pa.pageNumber := by
  unfold accesses
  refine List.forall_mem_append.mpr ⟨h.readsFrom_mapped .execute _ _, ?_⟩
  split
  · next i _ =>
    unfold operands
    cases i.op with
    | load => exact h.readsFrom_mapped .read _ _
    | loadByte => exact h.readsFrom_mapped .read _ _
    | store => exact h.writesTo_mapped _ _
    | storeByte => exact h.writesTo_mapped _ _
    | _ => exact nofun
  · exact nofun

end Core.RunsIn

/-! ### Attempts that go together -/

/-- What follows an attempt matters only for the result that it has. -/
theorem Attempt.bind_congr {x : Attempt α} {f g : α → Attempt β}
    (h : ∀ a, x.run = .ok (.ok a) → f a = g a) : x >>= f = x >>= g := by
  show Except.bind x.run (ExceptT.bindCont f) = Except.bind x.run (ExceptT.bindCont g)
  rcases hx : x.run with e | fault | a
  · rfl
  · rfl
  · exact h a hx

/-- Both attempts have results that `R` relates, or end in the same fault. -/
def GoTogether (R : α → α' → Prop) (x : Attempt α) (y : Attempt α') : Prop :=
  (∃ a b, x.run = .ok (.ok a) ∧ y.run = .ok (.ok b) ∧ R a b) ∨
    ∃ fault, x.run = .ok (.error fault) ∧ y.run = .ok (.error fault)

namespace GoTogether

theorem pure {R : α → α' → Prop} {a : α} {b : α'} (h : R a b) :
    GoTogether R (Pure.pure a) (Pure.pure b) :=
  .inl ⟨a, b, rfl, rfl, h⟩

theorem of_eq {x y : Attempt α} {Q : α → Prop} (h : Completes x Q) (heq : y = x) :
    GoTogether (fun a b => b = a) x y := by
  subst heq
  obtain ⟨fault | a, hx, -⟩ := h
  · exact .inr ⟨fault, hx, hx⟩
  · exact .inl ⟨a, a, hx, hx, rfl⟩

theorem bind {R : α → α' → Prop} {R' : β → β' → Prop} {x : Attempt α} {y : Attempt α'}
    {f : α → Attempt β} {g : α' → Attempt β'} (h : GoTogether R x y)
    (hf : ∀ a b, x.run = .ok (.ok a) → R a b → GoTogether R' (f a) (g b)) :
    GoTogether R' (x >>= f) (y >>= g) := by
  have hbind : ∀ {γ δ : Type} {z : Attempt γ} {k : γ → Attempt δ} {res : Except Fault γ},
      z.run = .ok res → (z >>= k).run = ExceptT.bindCont k res := by
    intro γ δ z k res hz
    show Except.bind z.run (ExceptT.bindCont k) = _
    rw [hz]
    rfl
  rcases h with ⟨a, b, hx, hy, hR⟩ | ⟨fault, hx, hy⟩
  · unfold GoTogether
    rw [hbind hx, hbind hy]
    exact hf a b hx hR
  · exact .inr ⟨fault, hbind hx, hbind hy⟩

end GoTogether

/-! ### Registers but for the vector -/

namespace Registers

def withVector (s : Registers) (v : UInt8) : Registers :=
  { s with vector := v }

@[simp]
theorem get_withVector (s : Registers) (v : UInt8) (r : Reg) :
    (s.withVector v).get r = s.get r := by
  cases r <;> rfl

@[simp]
theorem set_withVector (s : Registers) (v : UInt8) (r : Reg) (x : UInt64) :
    (s.withVector v).set r x = (s.set r x).withVector v := by
  cases r <;> rfl

@[simp]
theorem rip_withVector (s : Registers) (v : UInt8) : (s.withVector v).rip = s.rip := rfl

end Registers

namespace Core

variable {S : Nat → Prop} {c c' : Core n}

/-- The cores have the same registers but for the vector, and the same bytes in the pages of `S`. -/
structure Alike (S : Nat → Prop) (c c' : Core n) : Prop where
  regs : ∃ v, c'.regs = c.regs.withVector v
  byte : ∀ a, S (a / pageSize) → c'.memory.byte a = c.memory.byte a

/-- The cores find the same physical addresses. -/
def SameView (c c' : Core n) : Prop :=
  ∀ addr access, c'.locate addr access = c.locate addr access

namespace Alike

theorem get (h : Alike S c c') (r : Reg) : c'.regs.get r = c.regs.get r := by
  obtain ⟨v, hv⟩ := h.regs
  rw [hv, Registers.get_withVector]

theorem rip (h : Alike S c c') : c'.regs.rip = c.regs.rip := by
  obtain ⟨v, hv⟩ := h.regs
  rw [hv, Registers.rip_withVector]

theorem setReg (h : Alike S c c') (r : Reg) (x : UInt64) :
    Alike S (c.setReg r x) (c'.setReg r x) := by
  obtain ⟨v, hv⟩ := h.regs
  refine ⟨⟨v, ?_⟩, h.byte⟩
  show c'.regs.set r x = _
  rw [hv, Registers.set_withVector]
  rfl

theorem jump (h : Alike S c c') (rip : UInt64) : Alike S (c.jump rip) (c'.jump rip) := by
  obtain ⟨v, hv⟩ := h.regs
  refine ⟨⟨v, ?_⟩, h.byte⟩
  unfold Core.jump
  rw [hv]
  rfl

theorem record (h : Alike S c c') (fault : Fault) : Alike S (c.record fault) (c'.record fault) := by
  obtain ⟨v, hv⟩ := h.regs
  cases fault with
  | undefined => exact h
  | nonCanonical => exact h
  | page addr code =>
    refine ⟨⟨v, ?_⟩, h.byte⟩
    unfold Core.record
    rw [hv]
    rfl

end Alike

/-! ### Two cores at the same instruction -/

section
variable {n₁ n₂ : Nat} {c₁ : Core n₁} {c₂ : Core n₂} {R : Core n₁ → Core n₂ → Prop}

/-- Cores that `R` relates are related still when both get the same value in a register, or both
jump to the same address. -/
structure FollowsRegs (R : Core n₁ → Core n₂ → Prop) : Prop where
  setReg : ∀ {d₁ d₂}, R d₁ d₂ → ∀ r v, R (d₁.setReg r v) (d₂.setReg r v)
  jump : ∀ {d₁ d₂}, R d₁ d₂ → ∀ rip, R (d₁.jump rip) (d₂.jump rip)

/-- **The same instruction** is completed on two cores in the same way, if they have the same
registers, what it loads is the same on both, and their stores go together. -/
theorem FollowsRegs.complete (hR : FollowsRegs R) (h : R c₁ c₂)
    (hget : ∀ r, c₂.regs.get r = c₁.regs.get r) (hrip : c₂.regs.rip = c₁.regs.rip)
    (i : Instruction)
    (hword : i.op = .load → GoTogether (fun w₁ w₂ => w₂ = w₁)
      (c₁.loadWord (c₁.regs.get i.b + signExtend i.imm))
      (c₂.loadWord (c₁.regs.get i.b + signExtend i.imm)))
    (hbyte : i.op = .loadByte → GoTogether (fun w₁ w₂ => w₂ = w₁)
      (c₁.loadByte (c₁.regs.get i.b + signExtend i.imm))
      (c₂.loadByte (c₁.regs.get i.b + signExtend i.imm)))
    (hstore : ∀ addr data, GoTogether R (c₁.store addr data) (c₂.store addr data)) :
    GoTogether R (c₁.complete i) (c₂.complete i) := by
  have jumped : ∀ rip, GoTogether R (Pure.pure (c₁.jump rip)) (Pure.pure (c₂.jump rip)) :=
    fun rip => .pure (hR.jump h rip)
  have set : ∀ v rip, GoTogether R (Pure.pure ((c₁.setReg i.a v).jump rip))
      (Pure.pure ((c₂.setReg i.a v).jump rip)) := fun v rip =>
    .pure (hR.jump (hR.setReg h i.a v) rip)
  have stored : ∀ (rip : UInt64) (d₁ : Core n₁) (d₂ : Core n₂), R d₁ d₂ →
      GoTogether R (Pure.pure (d₁.jump rip)) (Pure.pure (d₂.jump rip)) :=
    fun rip _ _ hd => .pure (hR.jump hd rip)
  unfold Core.complete
  rw [hget, hget, hrip]
  cases hop : i.op with
  | load =>
    apply GoTogether.bind (hword hop)
    rintro _ w - rfl
    exact set w _
  | loadByte =>
    apply GoTogether.bind (hbyte hop)
    rintro _ w - rfl
    exact set w _
  | store => exact .bind (hstore _ _) fun d₁ d₂ _ hd => stored _ d₁ d₂ hd
  | storeByte => exact .bind (hstore _ _) fun d₁ d₂ _ hd => stored _ d₁ d₂ hd
  | movi => exact set _ _
  | mov => exact set _ _
  | addi => exact set _ _
  | add => exact set _ _
  | sub => exact set _ _
  | jmp => exact jumped _
  | jeq => exact jumped _
  | jne => exact jumped _
  | jlt => exact jumped _
  | syscall => exact jumped _

/-- Two cores that fetch the same instruction, and complete it in the same way. -/
theorem execute_of_complete (hfetch : GoTogether (fun i₁ i₂ => i₂ = i₁) c₁.fetch c₂.fetch)
    (hcomplete : ∀ i, c₁.fetch.run = .ok (.ok i) →
      GoTogether R (c₁.complete i) (c₂.complete i)) :
    GoTogether (fun res₁ res₂ => res₂.1 = res₁.1 ∧ R res₁.2 res₂.2) c₁.execute c₂.execute := by
  apply GoTogether.bind hfetch
  rintro _ i hi rfl
  apply GoTogether.bind (hcomplete i hi)
  exact fun d₁ d₂ _ hd => .pure ⟨rfl, hd⟩

end

/-! ### Reading and writing -/

theorem readByte_eq {m m' : Memory n} {pa : PhysAddr} (h : m'.byte pa.toNat = m.byte pa.toNat) :
    m'.readByte pa = m.readByte pa := by
  unfold Memory.readByte
  rw [h]
  rfl

theorem readBytes_eq (hv : SameView c c')
    (hb : ∀ a, S (a / pageSize) → c'.memory.byte a = c.memory.byte a) (access : Access) :
    ∀ (addr : UInt64) (k : Nat), (∀ pa ∈ c.readsFrom access addr k, S pa.pageNumber) →
      c'.readBytes access addr k = c.readBytes access addr k
  | _, 0, _ => rfl
  | addr, k + 1, hS => by
    rw [readBytes, readBytes, hv]
    refine Attempt.bind_congr fun pa hpa => ?_
    rw [readsFrom, hpa] at hS
    have hread := readByte_eq (hb pa.toNat (hS pa List.mem_cons_self))
    have hrest := readBytes_eq hv hb access (addr + 1) k fun pa' hpa' =>
      hS pa' (List.mem_cons_of_mem _ hpa')
    rw [hread, hrest]

theorem writeTargets_eq (hv : SameView c c') : ∀ (addr : UInt64) (k : Nat),
    c'.writeTargets addr k = c.writeTargets addr k
  | _, 0 => rfl
  | addr, k + 1 => by
    rw [writeTargets, writeTargets, hv, writeTargets_eq hv (addr + 1) k]

theorem writeAll_alike : ∀ (l : List (PhysAddr × UInt8)) {m m' m1 : Memory n},
    (∀ a, S (a / pageSize) → m'.byte a = m.byte a) → writeAll m l = .ok m1 →
    ∃ m1', writeAll m' l = .ok m1' ∧ ∀ a, S (a / pageSize) → m1'.byte a = m1.byte a
  | [], m, m', m1, hb, hok => by
    cases hok
    exact ⟨m', rfl, hb⟩
  | (pa, v) :: rest, m, m', m1, hb, hok => by
    rw [writeAll] at hok ⊢
    unfold Memory.writeByte at hok ⊢
    by_cases hin : m.installed pa 1 = true
    · rw [if_pos hin] at hok
      rw [if_pos (show m'.installed pa 1 = true from hin)]
      refine writeAll_alike rest (m := m.putByte pa.toNat v) (fun a ha => ?_) hok
      rw [Memory.byte_putByte, Memory.byte_putByte, hb a ha]
    · rw [if_neg hin] at hok
      cases hok

/-! ### Instructions -/

/-- The cores `d` and `d'` come from `c` and `c'`, are alike, and the address of the last page fault
is as it was. -/
structure AlikeFrom (S : Nat → Prop) (c c' d d' : Core n) : Prop where
  alike : Alike S d d'
  cr2 : d.cr2 = c.cr2
  cr2' : d'.cr2 = c'.cr2

theorem AlikeFrom.followsRegs : FollowsRegs (AlikeFrom S c c') where
  setReg hd r v := ⟨hd.alike.setReg r v, hd.cr2, hd.cr2'⟩
  jump hd rip := ⟨hd.alike.jump rip, hd.cr2, hd.cr2'⟩

theorem loadWord_eq (hv : SameView c c') (ha : Alike S c c') (addr : UInt64)
    (hS : ∀ pa ∈ c.readsFrom .read addr 8, S pa.pageNumber) :
    c'.loadWord addr = c.loadWord addr := by
  unfold Core.loadWord
  rw [readBytes_eq hv ha.byte .read addr 8 hS]

theorem loadByte_eq (hv : SameView c c') (ha : Alike S c c') (addr : UInt64)
    (hS : ∀ pa ∈ c.readsFrom .read addr 1, S pa.pageNumber) :
    c'.loadByte addr = c.loadByte addr := by
  unfold Core.loadByte
  rw [readBytes_eq hv ha.byte .read addr 1 hS]

theorem fetch_eq (hv : SameView c c') (ha : Alike S c c')
    (hS : ∀ pa ∈ c.readsFrom .execute c.regs.rip instructionSize, S pa.pageNumber) :
    c'.fetch = c.fetch := by
  unfold Core.fetch
  rw [ha.rip, readBytes_eq hv ha.byte .execute _ _ hS]

section
variable [Addressable n] {g : Shape} {f : Frames n} {r : Nat}

/-- A store writes the same bytes on both cores. -/
theorem store_together (h : RunsIn g f r c) (ha : Alike S c c') (hv : SameView c c')
    (addr : UInt64) (data : List UInt8) :
    GoTogether (AlikeFrom S c c') (c.store addr data) (c'.store addr data) := by
  unfold Core.store
  refine .bind (.of_eq (h.writeTargets addr data.length) (writeTargets_eq hv addr data.length)) ?_
  rintro _ targets htargets rfl
  have hgrants := (h.writeTargets addr data.length).of_run htargets
  obtain ⟨m, hm, -⟩ := RunsIn.writeAll (targets.zip data) c h fun p hp =>
    hgrants p.1 (List.of_mem_zip hp).1
  obtain ⟨m', hm', hb⟩ := writeAll_alike _ ha.byte hm
  rw [hm, hm']
  exact .pure ⟨⟨ha.regs, hb⟩, rfl, rfl⟩

/-- The same instruction on both cores, if the pages of `S` hold what it reads. -/
theorem complete_together (h : RunsIn g f r c) (ha : Alike S c c') (hv : SameView c c')
    (i : Instruction) (hS : ∀ pa ∈ c.operands i, S pa.pageNumber) :
    GoTogether (AlikeFrom S c c') (c.complete i) (c'.complete i) := by
  unfold Core.operands at hS
  refine AlikeFrom.followsRegs.complete ⟨ha, rfl, rfl⟩ ha.get ha.rip i ?_ ?_
    (store_together h ha hv)
  · intro hop
    rw [hop] at hS
    exact .of_eq (h.locates.loadWord _) (loadWord_eq hv ha _ hS)
  · intro hop
    rw [hop] at hS
    exact .of_eq (h.locates.loadByte _) (loadByte_eq hv ha _ hS)

/-- What an instruction does on both cores. -/
theorem execute_together (h : RunsIn g f r c) (ha : Alike S c c') (hv : SameView c c')
    (hS : ∀ pa ∈ c.accesses, S pa.pageNumber) :
    GoTogether (fun res res' => res'.1 = res.1 ∧ AlikeFrom S c c' res.2 res'.2) c.execute
      c'.execute := by
  unfold Core.accesses at hS
  refine execute_of_complete (.of_eq h.locates.fetch (fetch_eq hv ha fun pa hpa =>
    hS pa (List.mem_append_left _ hpa))) fun i hi => ?_
  rw [hi] at hS
  exact complete_together h ha hv i fun pa hpa => hS pa (List.mem_append_right _ hpa)

/-- **A step of alike cores** ends in the same trap, if in any, and they are alike again. -/
theorem step_together (h : RunsIn g f r c) (ha : Alike S c c') (hv : SameView c c')
    (hS : ∀ pa ∈ c.accesses, S pa.pageNumber) {trap : Option Trap} {d : Core n}
    (hok : c.step = .ok (trap, d)) : ∃ d', c'.step = .ok (trap, d') ∧ Alike S d d' ∧
      (c'.cr2 = c.cr2 ∨ trap = some .pageFault → d'.cr2 = d.cr2) := by
  unfold Core.step at hok ⊢
  rcases execute_together h ha hv hS with ⟨⟨_, d1⟩, ⟨called, d1'⟩, hx, hy, rfl, hd⟩ | ⟨fault, hx, hy⟩
  · have hcr2 : c'.cr2 = c.cr2 → d1'.cr2 = d1.cr2 := fun heq => by rw [hd.cr2, hd.cr2', heq]
    rw [hx] at hok
    rw [hy]
    cases called with
    | true =>
      cases hok
      exact ⟨d1', rfl, hd.alike, fun hor => hcr2 (hor.resolve_right nofun)⟩
    | false =>
      cases hok
      exact ⟨d1', rfl, hd.alike, fun hor => hcr2 (hor.resolve_right nofun)⟩
  · rw [hx] at hok
    rw [hy]
    cases hok
    refine ⟨c'.record fault, rfl, ha.record fault, fun hor => ?_⟩
    cases fault with
    | undefined => exact hor.resolve_right nofun
    | nonCanonical => exact hor.resolve_right nofun
    | page addr code => rfl

/-- Cores in spaces that map the same find the same addresses. -/
theorem RunsIn.sameView {g' : Shape} {f' : Frames n} (h : RunsIn g f r c) (h' : RunsIn g' f' r c')
    (hm : f'.memory.mapped r = f.memory.mapped r) : SameView c c' := by
  have hmapped : c'.memory.mapped r = c.memory.mapped r := by
    rw [h'.wrote.mapped h'.no_table h'.fits h'.isRoot, h.wrote.mapped h.no_table h.fits h.isRoot, hm]
  intro addr access
  unfold Core.locate
  cases VirtAddr.ofWord? addr with
  | none => rfl
  | some va =>
    dsimp only
    rw [h.cr3, h'.cr3, (h.wrote.fits h.no_table h.fits).locate_eq
      (h.wrote.linked h.no_table h.fits h.linked) va h.isRoot,
      (h'.wrote.fits h'.no_table h'.fits).locate_eq
      (h'.wrote.linked h'.no_table h'.fits h'.linked) va h'.isRoot, hmapped]

/-- **A step in spaces that map the same**: both cores stay in their spaces. -/
theorem RunsIn.step_alike {g' : Shape} {f' : Frames n} (h : RunsIn g f r c) (h' : RunsIn g' f' r c')
    (hm : f'.memory.mapped r = f.memory.mapped r) (ha : Alike S c c')
    (hS : ∀ pa ∈ c.accesses, S pa.pageNumber) :
    ∃ trap d d', c.step = .ok (trap, d) ∧ c'.step = .ok (trap, d') ∧ RunsIn g f r d ∧
      RunsIn g' f' r d' ∧ Alike S d d' ∧
      (c'.cr2 = c.cr2 ∨ trap = some .pageFault → d'.cr2 = d.cr2) := by
  obtain ⟨trap, d, hstep, hd, -⟩ := h.step
  obtain ⟨d', hstep', ha1, hcr2⟩ := step_together h ha (h.sameView h' hm) hS hstep
  obtain ⟨_, _, hrun', hd', -⟩ := h'.step
  rw [hstep'] at hrun'
  cases hrun'
  exact ⟨trap, d, d', hstep, hstep', hd, hd', ha1, hcr2⟩

end

end Core

end PagedKernel
