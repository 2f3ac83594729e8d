import PagedKernel.Proofs.Spaces.Ticking
import PagedKernel.Proofs.Spaces.Views

/-!
# Faults are precise

An instruction accesses its bytes one after another: the eight that it is fetched from, and then
those of its operand (`Core.turns`). The first byte that cannot be accessed decides the fault
(`Core.fault?`), and if there is none, an undefined instruction still faults before its operand.
Whatever the memory, the tables and the registers are, a step that ends in a fault has changed
nothing but the records of it, and a system call changes nothing but where the program goes on.

Nothing is asked of the walks but that those of the bytes whose turn comes stay inside the memory
(`Core.StaysInside`), and that only for the step to come to an end.

Key definitions: `Core.turns`, `Core.fault?`, `Core.StaysInside`, `Core.Precise`, `Decided`.
Key theorems: `Core.execute_decided`, `Core.step_precise`.
-/

namespace PagedKernel

variable {α β : Type}

/-! ### Attempts that something decides -/

/-- The attempt `x` does not halt if `inside` holds. It faults if and only if `fault?` says so, and
with that fault; whatever else it ends in is such that `Q` holds of it. -/
structure Decided (inside : Prop) (fault? : Option Fault) (x : Attempt α) (Q : α → Prop) :
    Prop where
  returns : inside → ∃ res, x.run = .ok res
  faults : ∀ fault, x.run = .ok (.error fault) → fault? = some fault
  completes : ∀ a, x.run = .ok (.ok a) → fault? = none ∧ Q a

namespace Decided

variable {inside inside' : Prop} {fault? fault?' : Option Fault} {x : Attempt α}
  {f : α → Attempt β} {P : α → Prop} {Q : β → Prop}

theorem pure {b : β} (h : Q b) : Decided True none (Pure.pure b) Q where
  returns _ := ⟨.ok b, rfl⟩
  faults _ hrun := by cases hrun
  completes b' hrun := by
    cases hrun
    exact ⟨rfl, h⟩

theorem throw (fault : Fault) :
    Decided True (some fault) (MonadExcept.throw fault : Attempt β) Q where
  returns _ := ⟨.error fault, rfl⟩
  faults fault' hrun := by
    cases hrun
    rfl
  completes b hrun := by cases hrun

theorem lift {y : Except Halt β} (hin : inside → ∃ b, y = .ok b) (h : ∀ b, y = .ok b → Q b) :
    Decided inside none (liftM y : Attempt β) Q := by
  cases y with
  | error e =>
    refine ⟨fun hi => ?_, nofun, nofun⟩
    obtain ⟨b, hb⟩ := hin hi
    cases hb
  | ok b =>
    refine ⟨fun _ => ⟨.ok b, rfl⟩, nofun, fun b' hrun => ?_⟩
    cases hrun
    exact ⟨rfl, h b rfl⟩

theorem of_inside (h : Decided inside fault? x P) (hin : inside' → inside) :
    Decided inside' fault? x P :=
  ⟨fun hi => h.returns (hin hi), h.faults, h.completes⟩

/-- The second of two attempts decides only if the first did not. -/
theorem bind (hx : Decided inside fault? x P)
    (hf : ∀ a, fault? = none → P a → Decided inside' fault?' (f a) Q) :
    Decided (inside ∧ (fault? = none → inside')) (fault?.or fault?') (x >>= f) Q := by
  have hbind : (x >>= f).run = x.run >>= ExceptT.bindCont f := rfl
  cases hrun : x.run with
  | error e =>
    rw [hrun] at hbind
    refine ⟨fun hi => ?_, fun fault h => ?_, fun b h => ?_⟩
    · obtain ⟨res, hres⟩ := hx.returns hi.1
      rw [hrun] at hres
      cases hres
    · rw [hbind] at h
      cases h
    · rw [hbind] at h
      cases h
  | ok res =>
    rw [hrun] at hbind
    cases res with
    | error fault =>
      have hfault := hx.faults fault hrun
      refine ⟨fun _ => ⟨.error fault, hbind⟩, fun fault' h => ?_, fun b h => ?_⟩
      · rw [hbind] at h
        cases h
        rw [hfault, Option.some_or]
      · rw [hbind] at h
        cases h
    | ok a =>
      obtain ⟨hnone, ha⟩ := hx.completes a hrun
      have hrest : (x >>= f).run = (f a).run := hbind
      rw [hnone, Option.none_or]
      exact ⟨fun hi => hrest ▸ (hf a hnone ha).returns (hi.2 rfl),
        fun fault h => (hf a hnone ha).faults fault (hrest ▸ h),
        fun b h => (hf a hnone ha).completes b (hrest ▸ h)⟩

theorem bind_done (hx : Decided inside fault? x P)
    (hf : ∀ a, P a → Decided inside none (f a) Q) : Decided inside fault? (x >>= f) Q := by
  have h := hx.bind fun a _ => hf a
  rw [Option.or_none] at h
  exact h.of_inside fun hi => ⟨hi, fun _ => hi⟩

theorem done {b : β} (h : Q b) : Decided inside none (Pure.pure b) Q :=
  (pure h).of_inside fun _ => trivial

end Decided

namespace Core

variable {n : Nat} {c : Core n}

/-! ### What an instruction accesses -/

/-- The accesses to the `k` bytes from `addr` on. Addresses wrap around. -/
def bytesFrom (access : Access) : UInt64 → Nat → List (UInt64 × Access)
  | _, 0 => []
  | addr, k + 1 => (addr, access) :: bytesFrom access (addr + 1) k

/-- What is wrong with an access of the program, if anything is. -/
def verdict (c : Core n) (access : UInt64 × Access) : Option Fault :=
  match VirtAddr.ofWord? access.1 with
  | none => some .nonCanonical
  | some va =>
    match c.memory.locate c.cr3 va access.2 true with
    | .ok (.error code) => some (.page access.1 code)
    | _ => none

/-- The byte that the program finds with an access, if nothing is wrong with it. -/
def byteAt (c : Core n) (access : UInt64 × Access) : UInt8 :=
  match VirtAddr.ofWord? access.1 with
  | none => 0
  | some va =>
    match c.seen va access.2 with
    | .ok (.ok b) => b
    | _ => 0

/-- The accesses to the bytes of the instruction at `rip`. -/
def fetchTurns (c : Core n) : List (UInt64 × Access) :=
  bytesFrom .execute c.regs.rip instructionSize

/-- The instruction at `rip`, if its bytes are those of one. -/
def instruction? (c : Core n) : Option Instruction :=
  Instruction.decode (c.fetchTurns.map c.byteAt)

/-- The accesses to the operand of the instruction `i`. -/
def operandTurns (c : Core n) (i : Instruction) : List (UInt64 × Access) :=
  match i.op with
  | .load => bytesFrom .read (c.regs.get i.b + signExtend i.imm) 8
  | .loadByte => bytesFrom .read (c.regs.get i.b + signExtend i.imm) 1
  | .store => bytesFrom .write (c.regs.get i.a + signExtend i.imm) 8
  | .storeByte => bytesFrom .write (c.regs.get i.a + signExtend i.imm) 1
  | _ => []

/-- The accesses of the next step, in order. -/
def turns (c : Core n) : List (UInt64 × Access) :=
  c.fetchTurns ++ c.instruction?.elim [] c.operandTurns

/-- The fault that the next step ends in: that of the first access that there is something wrong
with. If there is none, it is still a fault that the bytes are those of no instruction. -/
def fault? (c : Core n) : Option Fault :=
  (c.turns.findSome? c.verdict).or (if c.instruction? = none then some .undefined else none)

/-- The walk of an access stays inside the memory, and so does the byte that it finds. -/
def Inside (c : Core n) (access : UInt64 × Access) : Prop :=
  ∀ va, VirtAddr.ofWord? access.1 = some va → ∃ res, c.seen va access.2 = .ok res

/-- Each of the accesses stays inside the memory if its turn comes. -/
def TurnsInside (c : Core n) : List (UInt64 × Access) → Prop
  | [] => True
  | access :: rest => c.Inside access ∧ (c.verdict access = none → c.TurnsInside rest)

/-- The accesses of the next step stay inside the memory. -/
def StaysInside (c : Core n) : Prop :=
  c.TurnsInside c.turns

theorem findSome?_verdict_cons (c : Core n) (access : UInt64 × Access)
    (rest : List (UInt64 × Access)) : (access :: rest).findSome? c.verdict =
      (c.verdict access).or (rest.findSome? c.verdict) := by
  rw [List.findSome?_cons]
  cases c.verdict access <;> rfl

/-- The first access that there is something wrong with decides the fault. -/
theorem fault?_of_first {before after : List (UInt64 × Access)} {access : UInt64 × Access}
    {fault : Fault} (hturns : c.turns = before ++ access :: after)
    (hbefore : ∀ a ∈ before, c.verdict a = none) (h : c.verdict access = some fault) :
    c.fault? = some fault := by
  unfold fault?
  rw [hturns, List.findSome?_append, List.findSome?_eq_none_iff.mpr hbefore, Option.none_or,
    findSome?_verdict_cons, h, Option.some_or, Option.some_or]

theorem turnsInside_of (h : ∀ access, c.Inside access) :
    ∀ l : List (UInt64 × Access), c.TurnsInside l
  | [] => trivial
  | access :: rest => ⟨h access, fun _ => turnsInside_of h rest⟩

theorem turnsInside_append : ∀ {l l' : List (UInt64 × Access)}, c.TurnsInside (l ++ l') →
    c.TurnsInside l ∧ (l.findSome? c.verdict = none → c.TurnsInside l')
  | [], l', h => ⟨trivial, fun _ => h⟩
  | access :: l, l', ⟨hin, hrest⟩ => by
    refine ⟨⟨hin, fun hok => (turnsInside_append (hrest hok)).1⟩, fun hnone => ?_⟩
    rw [findSome?_verdict_cons, Option.or_eq_none_iff] at hnone
    exact (turnsInside_append (hrest hnone.1)).2 hnone.2

/-! ### What decides an instruction -/

/-- The program finds an access at the physical address `pa`. -/
def Places (c : Core n) (access : UInt64 × Access) (pa : PhysAddr) : Prop :=
  ∃ va, VirtAddr.ofWord? access.1 = some va ∧
    c.memory.locate c.cr3 va access.2 true = .ok (.ok pa)

theorem locate_decided (c : Core n) (addr : UInt64) (access : Access) :
    Decided (c.Inside (addr, access)) (c.verdict (addr, access)) (c.locate addr access)
      (c.Places (addr, access)) := by
  unfold Core.locate verdict
  cases hva : VirtAddr.ofWord? addr with
  | none => exact (Decided.throw _).of_inside fun _ => trivial
  | some va =>
    dsimp only
    rcases hlocate : c.memory.locate c.cr3 va access true with e | code | pa
    · refine ⟨fun hin => ?_, nofun, nofun⟩
      obtain ⟨res, hres⟩ := hin va hva
      unfold seen at hres
      rw [hlocate] at hres
      cases hres
    · exact (Decided.throw _).of_inside fun _ => trivial
    · exact .done ⟨va, hva, hlocate⟩

/-- A byte that is read where an access is found is the byte that the access finds. -/
theorem Places.eq_byteAt {access : UInt64 × Access} {pa : PhysAddr} {b : UInt8}
    (h : c.Places access pa) (hread : c.memory.readByte pa = .ok b) : b = c.byteAt access := by
  obtain ⟨va, hva, hlocate⟩ := h
  have hseen : c.seen va access.2 = .ok (.ok b) := seen_eq_ok.mpr ⟨pa, hlocate, hread⟩
  unfold byteAt
  rw [hva]
  dsimp only
  rw [hseen]

theorem Places.readByte {access : UInt64 × Access} {pa : PhysAddr} (h : c.Places access pa)
    (hin : c.Inside access) : c.memory.readByte pa = .ok (c.byteAt access) := by
  cases hread : c.memory.readByte pa with
  | ok b => rw [h.eq_byteAt hread]
  | error e =>
    obtain ⟨va, hva, hlocate⟩ := h
    obtain ⟨res, hres⟩ := hin va hva
    unfold seen at hres
    rw [hlocate] at hres
    dsimp only [bind, Except.bind] at hres
    rw [hread] at hres
    cases hres

/-- The bytes that are read are decided by the first that cannot be. -/
theorem readBytes_decided (c : Core n) (access : Access) : ∀ (addr : UInt64) (k : Nat),
    Decided (c.TurnsInside (bytesFrom access addr k))
      ((bytesFrom access addr k).findSome? c.verdict) (c.readBytes access addr k)
      (· = (bytesFrom access addr k).map c.byteAt)
  | _, 0 => .pure rfl
  | addr, k + 1 => by
    have hbyte : Decided (c.Inside (addr, access)) (c.verdict (addr, access))
        (c.locate addr access >>= fun pa => liftM (c.memory.readByte pa))
        (· = c.byteAt (addr, access)) :=
      (locate_decided c addr access).bind_done fun pa hpa =>
        .lift (fun hin => ⟨_, hpa.readByte hin⟩) fun b hb => hpa.eq_byteAt hb
    have hrest := hbyte.bind fun b _ hb => (readBytes_decided c access (addr + 1) k).bind_done
      (Q := (· = (bytesFrom access addr (k + 1)).map c.byteAt)) fun bs hbs => .done
        (b := b :: bs) (by rw [hb, hbs]; rfl)
    rw [← findSome?_verdict_cons, bind_assoc] at hrest
    exact hrest

/-- The targets of a store are decided by the first byte that cannot be written. -/
theorem writeTargets_decided (c : Core n) : ∀ (addr : UInt64) (k : Nat),
    Decided (c.TurnsInside (bytesFrom .write addr k))
      ((bytesFrom .write addr k).findSome? c.verdict) (c.writeTargets addr k)
      fun targets => c.TurnsInside (bytesFrom .write addr k) → ∀ pa ∈ targets, pa.pageNumber < n
  | _, 0 => .pure nofun
  | addr, k + 1 => by
    have hrest := (locate_decided c addr .write).bind fun pa hok hpa =>
      (writeTargets_decided c (addr + 1) k).bind_done (f := fun targets => pure (pa :: targets))
        (Q := fun targets => c.TurnsInside (bytesFrom .write addr (k + 1)) →
          ∀ pa ∈ targets, pa.pageNumber < n) fun targets htargets => .done fun hin pa' hpa' => by
            rcases List.mem_cons.mp hpa' with rfl | hpa'
            · exact Memory.lt_of_readByte (hpa.readByte hin.1)
            · exact htargets (hin.2 hok) pa' hpa'
    rw [← findSome?_verdict_cons] at hrest
    exact hrest

theorem store_decided (c : Core n) (addr : UInt64) (data : List UInt8) :
    Decided (c.TurnsInside (bytesFrom .write addr data.length))
      ((bytesFrom .write addr data.length).findSome? c.verdict) (c.store addr data)
      fun _ => True := by
  refine (writeTargets_decided c addr data.length).bind_done fun targets htargets => ?_
  refine .bind_done (.lift (Q := fun _ => True) (fun hin => ?_) fun _ _ => trivial) fun _ _ =>
    .done trivial
  exact writeAll_ok _ _ fun p hp => htargets hin p.1 (List.of_mem_zip hp).1

theorem loadWord_decided (c : Core n) (addr : UInt64) :
    Decided (c.TurnsInside (bytesFrom .read addr 8))
      ((bytesFrom .read addr 8).findSome? c.verdict) (c.loadWord addr) fun _ => True :=
  (readBytes_decided c .read addr 8).bind_done fun bytes _ => by split <;> exact .done trivial

theorem loadByte_decided (c : Core n) (addr : UInt64) :
    Decided (c.TurnsInside (bytesFrom .read addr 1))
      ((bytesFrom .read addr 1).findSome? c.verdict) (c.loadByte addr) fun _ => True :=
  (readBytes_decided c .read addr 1).bind_done fun bytes _ => by split <;> exact .done trivial

/-- **An instruction is decided** by the bytes of its operand, and a system call only goes on. -/
theorem complete_decided (c : Core n) (i : Instruction) :
    Decided (c.TurnsInside (c.operandTurns i)) ((c.operandTurns i).findSome? c.verdict)
      (c.complete i) fun d => i.op = .syscall → d = c.jump (c.regs.rip + 8) := by
  unfold Core.complete operandTurns
  cases hop : i.op with
  | load => exact (loadWord_decided c _).bind_done fun _ _ => .done nofun
  | loadByte => exact (loadByte_decided c _).bind_done fun _ _ => .done nofun
  | store => exact (store_decided c _ (bytesOfWord _)).bind_done fun _ _ => .done nofun
  | storeByte => exact (store_decided c _ [_]).bind_done fun _ _ => .done nofun
  | syscall => exact .pure fun _ => rfl
  | _ => exact .pure nofun

theorem fetch_decided (c : Core n) :
    Decided (c.TurnsInside c.fetchTurns)
      ((c.fetchTurns.findSome? c.verdict).or
        (if c.instruction? = none then some .undefined else none)) c.fetch
      fun i => c.instruction? = some i := by
  refine ((readBytes_decided c .execute c.regs.rip instructionSize).bind
    fun bytes _ hbytes => ?_).of_inside fun hin => ⟨hin, fun _ => trivial⟩
  have hdecode : Instruction.decode bytes = c.instruction? := congrArg Instruction.decode hbytes
  rw [hdecode]
  cases hi : c.instruction? with
  | none => exact .throw _
  | some i => exact .pure rfl

/-- **What decides the next step** is the first access that there is something wrong with. -/
theorem execute_decided (c : Core n) :
    Decided c.StaysInside c.fault? c.execute
      fun res => res.1 = true → res.2 = c.jump (c.regs.rip + 8) := by
  have hboth : ∀ {J : Prop} {o : Option Fault}, (∀ i, c.instruction? = some i →
      Decided J o (c.complete i) fun d => i.op = .syscall → d = c.jump (c.regs.rip + 8)) →
      Decided (c.TurnsInside c.fetchTurns ∧ (c.fetchTurns.findSome? c.verdict = none → J))
        (((c.fetchTurns.findSome? c.verdict).or
          (if c.instruction? = none then some .undefined else none)).or o) c.execute
        fun res => res.1 = true → res.2 = c.jump (c.regs.rip + 8) := fun hrest =>
    (c.fetch_decided.bind fun i _ hi => (hrest i hi).bind_done fun d hd =>
      .done fun hop => hd (eq_of_beq hop)).of_inside fun hin =>
        ⟨hin.1, fun hnone => hin.2 (Option.or_eq_none_iff.mp hnone).1⟩
  unfold StaysInside fault? turns
  cases hi : c.instruction? with
  | none =>
    have h := hboth (J := True) (o := none) fun i hi' => absurd (hi.symm.trans hi') nofun
    rw [hi, Option.or_none] at h
    rw [Option.elim_none, List.append_nil]
    exact h.of_inside fun hin => ⟨hin, fun _ => trivial⟩
  | some i =>
    have hrest : ∀ i', c.instruction? = some i' → Decided (c.TurnsInside (c.operandTurns i))
        ((c.operandTurns i).findSome? c.verdict) (c.complete i')
        fun d => i'.op = .syscall → d = c.jump (c.regs.rip + 8) := fun i' hi' => by
      obtain rfl := Option.some.inj (hi.symm.trans hi')
      exact complete_decided c i
    have h := hboth hrest
    rw [hi, if_neg nofun, Option.or_none] at h
    rw [if_neg nofun, Option.or_none, Option.elim_some, List.findSome?_append]
    exact h.of_inside turnsInside_append

/-! ### Steps -/

/-- A step from `c` ended in the trap `trap`, if any, and left `d`. A fault has left everything as
it was, but for the records of a page fault; it is the one that the first failing byte decides. -/
structure Precise (c : Core n) (trap : Option Trap) (d : Core n) : Prop where
  /-- A fault changes neither the memory nor a register that the program can name, nor `rip`. -/
  unchanged : trap = some .pageFault ∨ trap = some .generalProtection ∨
      trap = some .invalidOpcode →
    d.memory = c.memory ∧ d.cr3 = c.cr3 ∧ d.regs.rip = c.regs.rip ∧
      ∀ r, d.regs.get r = c.regs.get r
  page : ∀ addr code, c.fault? = some (.page addr code) ↔
    trap = some .pageFault ∧ d.cr2 = addr ∧ d.regs.errorCode = code
  nonCanonical : c.fault? = some .nonCanonical ↔ trap = some .generalProtection
  undefined : c.fault? = some .undefined ↔ trap = some .invalidOpcode
  /-- Only a page fault leaves records. -/
  records : trap = some .generalProtection ∨ trap = some .invalidOpcode →
    d.cr2 = c.cr2 ∧ d.regs.errorCode = c.regs.errorCode
  /-- A system call changes only where the program goes on. -/
  syscall : trap = some .syscall → d = c.jump (c.regs.rip + 8)

theorem get_errorCode (regs : Registers) (code : UInt64) (r : Reg) :
    ({ regs with errorCode := code } : Registers).get r = regs.get r := by
  cases r <;> rfl

/-- The step that a fault decides is precise. -/
theorem precise_record {fault : Fault} (h : c.fault? = some fault) :
    c.Precise (some fault.trap) (c.record fault) := by
  cases fault with
  | page addr code =>
    refine ⟨fun _ => ⟨rfl, rfl, rfl, get_errorCode _ _⟩, fun addr' code' => ?_, ?_, ?_, ?_, nofun⟩
    · rw [h]
      exact ⟨fun heq => by cases heq; exact ⟨rfl, rfl, rfl⟩,
        fun ⟨_, haddr, hcode⟩ => by rw [← haddr, ← hcode]; rfl⟩
    · rw [h]
      exact ⟨nofun, nofun⟩
    · rw [h]
      exact ⟨nofun, nofun⟩
    · rintro (htrap | htrap) <;> cases htrap
  | nonCanonical =>
    exact ⟨fun _ => ⟨rfl, rfl, rfl, fun _ => rfl⟩, fun _ _ => h ▸ ⟨nofun, nofun⟩,
      h ▸ ⟨fun _ => rfl, fun _ => rfl⟩, h ▸ ⟨nofun, nofun⟩, fun _ => ⟨rfl, rfl⟩, nofun⟩
  | undefined =>
    exact ⟨fun _ => ⟨rfl, rfl, rfl, fun _ => rfl⟩, fun _ _ => h ▸ ⟨nofun, nofun⟩,
      h ▸ ⟨nofun, nofun⟩, h ▸ ⟨fun _ => rfl, fun _ => rfl⟩, fun _ => ⟨rfl, rfl⟩, nofun⟩

theorem precise_of_none {trap : Option Trap} {d : Core n} (h : c.fault? = none)
    (htrap : trap = none ∨ trap = some .syscall)
    (hsyscall : trap = some .syscall → d = c.jump (c.regs.rip + 8)) : c.Precise trap d := by
  have hfault : ∀ t : Trap, t ≠ .syscall → trap ≠ some t := by
    rintro t ht rfl
    rcases htrap with htrap | htrap
    · cases htrap
    · exact ht (Option.some.inj htrap)
  have hpf := hfault .pageFault (by decide)
  have hgp := hfault .generalProtection (by decide)
  have hud := hfault .invalidOpcode (by decide)
  refine ⟨?_, fun addr code => ?_, ?_, ?_, ?_, hsyscall⟩
  · rintro (heq | heq | heq)
    exacts [absurd heq hpf, absurd heq hgp, absurd heq hud]
  · rw [h]
    exact ⟨nofun, fun heq => absurd heq.1 hpf⟩
  · rw [h]
    exact ⟨nofun, fun heq => absurd heq hgp⟩
  · rw [h]
    exact ⟨nofun, fun heq => absurd heq hud⟩
  · rintro (heq | heq)
    exacts [absurd heq hgp, absurd heq hud]

/-- **Faults are precise.** A step comes to an end if the accesses that it makes stay inside the
memory. Whenever it ends, it is precise, whatever the memory, the root and the registers were. -/
theorem step_precise (c : Core n) :
    (c.StaysInside → ∃ trap d, c.step = .ok (trap, d)) ∧
      ∀ trap d, c.step = .ok (trap, d) → c.Precise trap d := by
  have hdecided := c.execute_decided
  unfold step
  cases hrun : c.execute.run with
  | error e =>
    refine ⟨fun hin => ?_, nofun⟩
    obtain ⟨res, hres⟩ := hdecided.returns hin
    rw [hrun] at hres
    cases hres
  | ok res =>
    rcases res with fault | ⟨_ | _, d⟩
    · refine ⟨fun _ => ⟨_, _, rfl⟩, fun trap d h => ?_⟩
      cases h
      exact precise_record (hdecided.faults fault hrun)
    · obtain ⟨hnone, -⟩ := hdecided.completes _ hrun
      refine ⟨fun _ => ⟨_, _, rfl⟩, fun trap d h => ?_⟩
      cases h
      exact precise_of_none hnone (.inl rfl) nofun
    · obtain ⟨hnone, hjump⟩ := hdecided.completes _ hrun
      refine ⟨fun _ => ⟨_, _, rfl⟩, fun trap d h => ?_⟩
      cases h
      exact precise_of_none hnone (.inr rfl) fun _ => hjump rfl

/-- In a space of one page, that page can be accessed and no other. -/
theorem verdict_onePage [Addressable n] {g : Shape} {f : Frames n} {r q : Nat}
    (h : OnePage g f r q) (hf : g.Fits f.memory) (hk : g.Linked f.memory) (regs : Registers)
    {addr : UInt64} {va : VirtAddr} (hva : VirtAddr.ofWord? addr = some va) (access : Access) :
    (Core.mk f.memory regs (pageAt r) 0).verdict (addr, access) =
      if va.page = 1 then none else some (.page addr (missingPageCode access true)) := by
  have hseen := h.seen_eq hf hk regs va access
  unfold verdict
  rw [hva]
  dsimp only
  by_cases hpage : va.page = 1
  · obtain ⟨pa, hlocate, -⟩ := seen_eq_ok.mp (hseen.trans (if_pos hpage))
    rw [if_pos hpage, hlocate]
  · rw [if_neg hpage, seen_eq_error.mp (hseen.trans (if_neg hpage))]

/-- The bytes of an instruction straddle two pages, and only the first can be accessed. -/
theorem step_precise_straddling : ∃ c d : Core physicalPages, c.regs.rip = 0x1ffc ∧
    c.StaysInside ∧ c.step = .ok (some .pageFault, d) ∧ c.Precise (some .pageFault) d ∧
    d.cr2 = 0x2000 ∧ d.regs.errorCode = faultUser := by
  have hfree := Frames.freePages_fresh
  obtain ⟨g, f, r, q, hacc, hkept, -, -, hone, -⟩ :=
    OnePage.of_freePages (accounted_fresh physicalPages) (by omega)
  have hlinked := hkept.linked nofun
  let c : Core physicalPages := ⟨f.memory, { rip := 0x1ffc }, pageAt r, 0⟩
  have hinside : c.StaysInside := turnsInside_of (fun access va _ => by
    rw [hone.seen_eq hacc.fits hlinked c.regs va access.2]
    split <;> exact ⟨_, rfl⟩) _
  have hverdict : ∀ addr, VirtAddr.ofWord? addr = some ⟨addr⟩ → c.verdict (addr, .execute) =
      if (VirtAddr.mk addr).page = 1 then none else some (.page addr faultUser) :=
    fun addr hva => verdict_onePage hone hacc.fits hlinked c.regs hva .execute
  have hfirst : ∀ access ∈ [(0x1ffc, .execute), (0x1ffd, .execute), (0x1ffe, .execute),
      (0x1fff, .execute)], c.verdict access = none := by
    simp only [List.forall_mem_cons]
    refine ⟨?_, ?_, ?_, ?_, nofun⟩
    all_goals
      rw [hverdict _ rfl, if_pos]
      cbv
  have hsecond : c.verdict (0x2000, .execute) = some (.page 0x2000 faultUser) :=
    (hverdict 0x2000 rfl).trans (if_neg (by cbv))
  have hfault := fault?_of_first rfl hfirst hsecond
  have hprecise := step_precise c
  obtain ⟨trap, d, hstep⟩ := hprecise.1 hinside
  have hd := hprecise.2 trap d hstep
  obtain ⟨rfl, hcr2, hcode⟩ := (hd.page _ _).mp hfault
  exact ⟨c, d, rfl, hinside, hstep, hd, hcr2, hcode⟩

end Core

end PagedKernel
