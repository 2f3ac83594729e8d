import PagedKernel.Machine.Cpu
import PagedKernel.Proofs.Spaces.Kept

/-!
# Programs in their space

Whatever the bytes of a program are, running it does not halt the machine, and it changes no byte
but of pages that its space maps for the user to write (`Core.RunsIn`). Those hold no tables, so the
space stays the same while the program runs. A page fault that it meets is recorded as one of the
user.

Key definitions: `Completes`, `Memory.UserWritable`, `Core.RunsIn`.
Key theorems: `Core.RunsIn.locate`, `Core.RunsIn.step`, `Core.RunsIn.run`.
-/

namespace PagedKernel

variable {α β : Type}

/-! ### Attempts -/

/-- If the fault is a page fault, its code says that the user met it. -/
def Fault.ByUser : Fault → Prop
  | .page _ code => code &&& faultUser ≠ 0
  | _ => True

/-- The attempt `x` does not halt. It ends with what `Q` holds of, or in a fault of the user. -/
def Completes (x : Attempt α) (Q : α → Prop) : Prop :=
  ∃ res, x.run = .ok res ∧
    match res with
    | .ok a => Q a
    | .error fault => fault.ByUser

namespace Completes

theorem pure {a : α} {Q : α → Prop} (h : Q a) : Completes (Pure.pure a) Q :=
  ⟨.ok a, rfl, h⟩

theorem throw {fault : Fault} {Q : α → Prop} (h : fault.ByUser) :
    Completes (MonadExcept.throw fault : Attempt α) Q :=
  ⟨.error fault, rfl, h⟩

theorem lift {y : Except Halt α} {a : α} {Q : α → Prop} (hy : y = .ok a) (h : Q a) :
    Completes (liftM y : Attempt α) Q := by
  subst hy
  exact ⟨.ok a, rfl, h⟩

theorem bind {x : Attempt α} {f : α → Attempt β} {P : α → Prop} {Q : β → Prop}
    (hx : Completes x P) (hf : ∀ a, P a → Completes (f a) Q) : Completes (x >>= f) Q := by
  obtain ⟨res, hx, hres⟩ := hx
  have hbind : (x >>= f).run = ExceptT.bindCont f res := by
    show Except.bind x.run (ExceptT.bindCont f) = _
    rw [hx]
    rfl
  unfold Completes
  rw [hbind]
  cases res with
  | ok a => exact hf a hres
  | error fault => exact ⟨.error fault, rfl, hres⟩

theorem imp {x : Attempt α} {P Q : α → Prop} (hx : Completes x P) (h : ∀ a, P a → Q a) :
    Completes x Q := by
  obtain ⟨res, hx, hres⟩ := hx
  refine ⟨res, hx, ?_⟩
  cases res with
  | ok a => exact h a hres
  | error fault => exact hres

end Completes

/-! ### What a program reaches -/

theorem missingPageCode_user (access : Access) :
    missingPageCode access true &&& faultUser ≠ 0 ∧
      (missingPageCode access true ||| faultPresent) &&& faultUser ≠ 0 := by
  cases access <;> decide

variable {n : Nat}

/-- The space with root `r` maps page number `q` for the user to write. -/
def Memory.UserWritable (m : Memory n) (r q : Nat) : Prop :=
  ∃ v e, m.mapped r v = some e ∧ e.writable = true ∧ e.user = true ∧ e.addr.pageNumber = q

/-- The space with root `r` lets the user access the physical address `pa` at `addr`. -/
def Memory.Grants (m : Memory n) (r : Nat) (addr : UInt64) (access : Access) (pa : PhysAddr) :
    Prop :=
  ∃ va e, VirtAddr.ofWord? addr = some va ∧ m.mapped r va.page = some e ∧ e.user = true ∧
    (access = .write → e.writable = true) ∧ pa = e.addr.inPage va.pageOffset

section
variable [Addressable n] {g : Shape} {m : Memory n} {r : Nat} {addr : UInt64} {access : Access}
  {pa : PhysAddr}

omit [Addressable n] in
/-- An address that a space grants lies in an installed page that it maps. -/
theorem Memory.Grants.place (h : m.Grants r addr access pa) (hf : g.Fits m) (hr : g.IsRoot r) :
    ∃ q off, q < n ∧ off < pageSize ∧ pa = (pageAt q).inPage off ∧
      (access = .write → m.UserWritable r q) := by
  obtain ⟨va, e, -, hm, hu, hw, rfl⟩ := h
  refine ⟨e.addr.pageNumber, va.pageOffset, (hf.mapped_target hr hm).2, mod_pageSize_lt _, ?_,
    fun hwrite => ⟨_, e, hm, hw hwrite, hu, rfl⟩⟩
  rw [← e.addr_eq_pageAt]

theorem Memory.writeByte_inPage (m : Memory n) {q off : Nat} (v : UInt8) (hq : q < n)
    (ho : off < pageSize) : ∃ m', m.writeByte ((pageAt q).inPage off) v = .ok m' ∧
      ∀ a, a / pageSize ≠ q → m'.byte a = m.byte a :=
  m.writeBytes_inPage [v] hq ho ho

theorem Memory.readByte_inPage (m : Memory n) {q off : Nat} (hq : q < n) (ho : off < pageSize) :
    m.readByte ((pageAt q).inPage off) = .ok (m.byte (q * pageSize + off)) := by
  have hlt : q < 2 ^ 40 := lt_of_lt_of_le hq Addressable.le
  rw [m.readByte_of_lt (by rwa [inPage_pageNumber hlt ho]), inPage_toNat hlt ho]

end

/-! ### Instructions -/

namespace Core

variable {g : Shape} {f : Frames n} {r : Nat} {c : Core n}

/-- Whatever the program accesses, the walk does not halt and ends in a page that there is, or in a
fault of the user. -/
def Locates (c : Core n) : Prop :=
  ∀ addr access, Completes (c.locate addr access) fun pa => pa.pageNumber < n

namespace Locates

theorem readBytes (h : c.Locates) (access : Access) : ∀ (addr : UInt64) (k : Nat),
    Completes (c.readBytes access addr k) fun _ => True
  | _, 0 => .pure trivial
  | addr, k + 1 => by
    refine .bind (h addr access) fun pa hpa => ?_
    exact .bind (.lift (Q := fun _ => True) (c.memory.readByte_of_lt hpa) trivial) fun _ _ =>
      .bind (readBytes h access (addr + 1) k) fun _ _ => .pure trivial

theorem loadWord (h : c.Locates) (addr : UInt64) : Completes (c.loadWord addr) fun _ => True := by
  refine .bind (h.readBytes .read addr 8) fun bytes _ => ?_
  split <;> exact .pure trivial

theorem loadByte (h : c.Locates) (addr : UInt64) : Completes (c.loadByte addr) fun _ => True := by
  refine .bind (h.readBytes .read addr 1) fun bytes _ => ?_
  split <;> exact .pure trivial

theorem fetch (h : c.Locates) : Completes c.fetch fun _ => True := by
  refine .bind (h.readBytes .execute c.regs.rip instructionSize) fun bytes _ => ?_
  split
  · exact .pure trivial
  · exact .throw trivial

/-- An instruction keeps `Q` if a store does, and if only the memory and the root count for it. -/
theorem complete {Q : Core n → Prop} (h : c.Locates) (hc : Q c)
    (hsame : ∀ {d d' : Core n}, Q d → d'.cr3 = d.cr3 → d'.memory = d.memory → Q d')
    (hstore : ∀ addr data, Completes (c.store addr data) Q) (i : Instruction) :
    Completes (c.complete i) Q := by
  have done : ∀ {c' : Core n}, c'.cr3 = c.cr3 → c'.memory = c.memory →
      Completes (Pure.pure c' : Attempt (Core n)) Q := fun hcr3 hm => .pure (hsame hc hcr3 hm)
  unfold Core.complete
  cases i.op with
  | load => exact .bind (h.loadWord _) fun _ _ => done rfl rfl
  | loadByte => exact .bind (h.loadByte _) fun _ _ => done rfl rfl
  | store => exact .bind (hstore _ _) fun _ hd => .pure (hsame hd rfl rfl)
  | storeByte => exact .bind (hstore _ _) fun _ hd => .pure (hsame hd rfl rfl)
  | _ => exact done rfl rfl

theorem execute {Q : Core n → Prop} (h : c.Locates) (hc : Q c)
    (hsame : ∀ {d d' : Core n}, Q d → d'.cr3 = d.cr3 → d'.memory = d.memory → Q d')
    (hstore : ∀ addr data, Completes (c.store addr data) Q) :
    Completes c.execute fun res => Q res.2 :=
  .bind h.fetch fun i _ => .bind (h.complete hc hsame hstore i) fun _ hd => .pure hd

end Locates

/-- The targets of a store have what the unit asks of each. -/
theorem writeTargets_completes {P : PhysAddr → Prop}
    (h : ∀ addr, Completes (c.locate addr .write) P) : ∀ (addr : UInt64) (k : Nat),
    Completes (c.writeTargets addr k) fun targets => ∀ pa ∈ targets, P pa
  | _, 0 => .pure nofun
  | addr, k + 1 => by
    refine .bind (h addr) fun pa hpa => ?_
    refine .bind (writeTargets_completes h (addr + 1) k) fun targets htargets =>
      .pure fun pa' hpa' => ?_
    rcases List.mem_cons.mp hpa' with rfl | hpa'
    · exact hpa
    · exact htargets pa' hpa'

theorem step_ne_timer {c d : Core n} {trap : Trap} (h : c.step = .ok (some trap, d)) :
    trap ≠ .timer := by
  unfold step at h
  cases hx : c.execute.run with
  | error e =>
    rw [hx] at h
    cases h
  | ok res =>
    rw [hx] at h
    rcases res with fault | ⟨_ | _, d1⟩
    · cases h
      cases fault <;> exact nofun
    · cases h
    · cases h
      decide

/-- What a run leaves, but for the vector of the trap, comes from the instructions. -/
theorem run_eq_ok {c c' : Core n} {timer timer' : Timer} {trap : Trap}
    (h : c.run timer = .ok (trap, c', timer')) : ∃ left d,
      runFor timer.quantum timer.count c = .ok (trap, left, d) ∧
      c' = { d with regs := { d.regs with vector := trap.code } } ∧
      timer' = { timer with count := left } := by
  unfold run at h
  cases hrun : runFor timer.quantum timer.count c with
  | error e =>
    rw [hrun] at h
    cases h
  | ok res =>
    rw [hrun] at h
    cases h
    exact ⟨_, _, rfl, rfl, rfl⟩

/-- The core runs in the space with root `r` of the frames `f`. So far it has changed no byte but of
pages that the user may write there. -/
structure RunsIn (g : Shape) (f : Frames n) (r : Nat) (c : Core n) : Prop where
  fits : g.Fits f.memory
  linked : g.Linked f.memory
  isRoot : g.IsRoot r
  cr3 : c.cr3 = pageAt r
  wrote : Wrote (f.memory.UserWritable r) f { f with memory := c.memory }

namespace RunsIn

theorem no_table (h : RunsIn g f r c) (q : Nat) (hq : f.memory.UserWritable r q) : g q = none := by
  obtain ⟨v, e, hm, -, -, rfl⟩ := hq
  exact (h.fits.mapped_target h.isRoot hm).1

theorem of_memory_eq (h : RunsIn g f r c) {c' : Core n} (hcr3 : c'.cr3 = c.cr3)
    (hm : c'.memory = c.memory) : RunsIn g f r c' :=
  ⟨h.fits, h.linked, h.isRoot, hcr3.trans h.cr3, hm ▸ h.wrote⟩

section
variable [Addressable n]

/-- **What the unit lets a program access** is what its space allows. -/
theorem locate (h : RunsIn g f r c) (addr : UInt64) (access : Access) :
    Completes (c.locate addr access) (f.memory.Grants r addr access) := by
  unfold Core.locate
  cases hva : VirtAddr.ofWord? addr with
  | none => exact .throw trivial
  | some va =>
    have hfits := h.wrote.fits h.no_table h.fits
    have hlinked := h.wrote.linked h.no_table h.fits h.linked
    have hm : c.memory.mapped r = f.memory.mapped r :=
      h.wrote.mapped h.no_table h.fits h.isRoot
    obtain ⟨res, hres⟩ : ∃ res, c.memory.locate (pageAt r) va access true = .ok res :=
      ⟨_, hfits.locate_eq hlinked va h.isRoot access true⟩
    refine .bind (.lift (Q := fun res' => res' = res) (h.cr3 ▸ hres) rfl) ?_
    rintro res rfl
    cases res with
    | ok pa =>
      obtain ⟨e, he, hu, hw, rfl⟩ := hfits.locate_ok hlinked h.isRoot hres
      exact .pure ⟨va, e, hva, hm ▸ he, hu, hw, rfl⟩
    | error code =>
      rcases hfits.locate_error hlinked h.isRoot hres with rfl | rfl
      · exact .throw (missingPageCode_user access).1
      · exact .throw (missingPageCode_user access).2

/-- **What the unit says of an address**, by its page number and its place there. -/
theorem locate_page (h : RunsIn g f r c) {v o : Nat} (hv : v < 2 ^ 35) (ho : o < pageSize)
    (access : Access) : c.locate (UInt64.ofNat (v * pageSize + o)) access =
      match c.memory.mapped r v with
      | none => throw (.page (UInt64.ofNat (v * pageSize + o)) (missingPageCode access true))
      | some e =>
        if e.large then throw (.page (UInt64.ofNat (v * pageSize + o)) (missingPageCode access true))
        else if (access = .write && !e.writable) || !e.user then
          throw (.page (UInt64.ofNat (v * pageSize + o))
            (missingPageCode access true ||| faultPresent))
        else pure (e.addr.inPage o) := by
  have hto : (UInt64.ofNat (v * pageSize + o)).toNat = v * pageSize + o := by
    rw [UInt64.toNat_ofNat']
    unfold pageSize at *
    omega
  have hva : VirtAddr.ofWord? (UInt64.ofNat (v * pageSize + o)) =
      some ⟨UInt64.ofNat (v * pageSize + o)⟩ := by
    unfold VirtAddr.ofWord?
    rw [hto, if_pos (.inl (by unfold pageSize at *; omega))]
  have hpage : (VirtAddr.mk (UInt64.ofNat (v * pageSize + o))).page = v := by
    unfold VirtAddr.page VirtAddr.toNat pagesPerSpace
    rw [hto, page_add_div v ho, Nat.mod_eq_of_lt (by omega)]
  have hoff : (VirtAddr.mk (UInt64.ofNat (v * pageSize + o))).pageOffset = o := by
    unfold VirtAddr.pageOffset VirtAddr.toNat
    rw [hto, page_add_mod v ho]
  have hok := (h.wrote.fits h.no_table h.fits).locate_eq
    (h.wrote.linked h.no_table h.fits h.linked) ⟨UInt64.ofNat (v * pageSize + o)⟩ h.isRoot access true
  rw [hpage, hoff] at hok
  unfold Core.locate
  rw [hva, h.cr3]
  dsimp only
  rw [hok]
  cases c.memory.mapped r v with
  | none => rfl
  | some e =>
    dsimp only
    split
    · rfl
    · rw [Bool.true_and]
      split <;> rfl

theorem locates (h : RunsIn g f r c) : c.Locates := fun addr access => by
  obtain ⟨res, hres, hq⟩ := h.locate addr access
  refine ⟨res, hres, ?_⟩
  cases res with
  | error fault => exact hq
  | ok pa =>
    obtain ⟨q, off, hlt, ho, rfl, -⟩ := hq.place h.fits h.isRoot
    show ((pageAt q).inPage off).pageNumber < n
    rwa [inPage_pageNumber (lt_of_lt_of_le hlt Addressable.le) ho]

theorem writeTargets (h : RunsIn g f r c) (addr : UInt64) (k : Nat) :
    Completes (c.writeTargets addr k) fun targets =>
      ∀ pa ∈ targets, ∃ addr, f.memory.Grants r addr .write pa :=
  writeTargets_completes (fun addr => (h.locate addr .write).imp fun _ hpa => ⟨addr, hpa⟩) addr k

omit [Addressable n] in
theorem setMemory (h : RunsIn g f r c) {m : Memory n}
    (hm : ∀ a, ¬ f.memory.UserWritable r (a / pageSize) → m.byte a = c.memory.byte a) :
    RunsIn g f r { c with memory := m } :=
  ⟨h.fits, h.linked, h.isRoot, h.cr3, h.wrote.count,
    fun a ha => (hm a ha).trans (h.wrote.byte a ha)⟩

theorem writeAll : ∀ (l : List (PhysAddr × UInt8)) (c : Core n), RunsIn g f r c →
    (∀ p ∈ l, ∃ addr, f.memory.Grants r addr .write p.1) →
    ∃ m, writeAll c.memory l = .ok m ∧ RunsIn g f r { c with memory := m }
  | [], c, h, _ => ⟨c.memory, rfl, h⟩
  | (pa, v) :: rest, c, h, hl => by
    obtain ⟨addr, hgrants⟩ := hl _ List.mem_cons_self
    obtain ⟨q, off, hq, ho, rfl, hw⟩ := hgrants.place h.fits h.isRoot
    obtain ⟨m, hm, hbyte⟩ := c.memory.writeByte_inPage v hq ho
    have h1 := h.setMemory fun a ha => hbyte a fun heq => ha (heq ▸ hw rfl)
    obtain ⟨m', hm', h2⟩ := writeAll rest _ h1 fun p hp => hl p (List.mem_cons_of_mem _ hp)
    refine ⟨m', ?_, h2⟩
    rw [Core.writeAll, hm]
    exact hm'

/-- **A store** changes bytes of pages that the user may write. -/
theorem store (h : RunsIn g f r c) (addr : UInt64) (data : List UInt8) :
    Completes (c.store addr data) (RunsIn g f r) := by
  refine .bind (h.writeTargets addr data.length) fun targets htargets => ?_
  obtain ⟨m, hm, h'⟩ := writeAll (targets.zip data) c h fun p hp =>
    htargets p.1 (List.of_mem_zip hp).1
  refine .bind (P := fun m => RunsIn g f r { c with memory := m }) (.lift hm h') fun _ h' => ?_
  exact .pure h'

/-- **An instruction** that is completed leaves the core in its space. -/
theorem execute (h : RunsIn g f r c) : Completes c.execute fun res => RunsIn g f r res.2 :=
  h.locates.execute h (fun hd hcr3 hm => hd.of_memory_eq hcr3 hm) h.store

/-! ### Runs -/

/-- What a trap leaves: the core is in its space still, and a page fault is recorded as the user's.
-/
def Trapped (g : Shape) (f : Frames n) (r : Nat) (trap : Trap) (c : Core n) : Prop :=
  RunsIn g f r c ∧
    trap ∈ [Trap.invalidOpcode, .generalProtection, .pageFault, .timer, .syscall] ∧
    (trap = .pageFault → c.regs.errorCode &&& faultUser ≠ 0)

/-- **A step** of a program does not halt the machine. -/
theorem step (h : RunsIn g f r c) : ∃ trap c', c.step = .ok (trap, c') ∧ RunsIn g f r c' ∧
    ∀ t, trap = some t → Trapped g f r t c' := by
  obtain ⟨res, hres, hq⟩ := h.execute
  unfold Core.step
  rw [hres]
  rcases res with fault | ⟨called, c'⟩
  · refine ⟨_, _, rfl, ?_, fun t ht => ?_⟩
    · cases fault <;> exact h.of_memory_eq rfl rfl
    · obtain rfl := Option.some.inj ht
      cases fault with
      | undefined => exact ⟨h.of_memory_eq rfl rfl, by decide, nofun⟩
      | nonCanonical => exact ⟨h.of_memory_eq rfl rfl, by decide, nofun⟩
      | page addr code =>
        rw [show (Fault.page addr code).trap = .pageFault from rfl]
        exact ⟨h.of_memory_eq rfl rfl, by decide, fun _ => hq⟩
  · cases called with
    | true =>
      refine ⟨_, _, rfl, hq, fun t ht => ?_⟩
      obtain rfl := Option.some.inj ht
      exact ⟨hq, by decide, nofun⟩
    | false => exact ⟨_, _, rfl, hq, nofun⟩

theorem runFor (quantum : Nat) : ∀ (count : Nat) {c : Core n}, RunsIn g f r c →
    ∃ trap left c', Core.runFor quantum count c = .ok (trap, left, c') ∧ Trapped g f r trap c'
  | 0, c, h => ⟨.timer, quantum, c, rfl, h, by decide, nofun⟩
  | count + 1, c, h => by
    obtain ⟨trap, c', hstep, h', htrap⟩ := h.step
    cases trap with
    | none =>
      obtain ⟨trap, left, c'', hrun, htrapped⟩ := runFor quantum count h'
      refine ⟨trap, left, c'', ?_, htrapped⟩
      rw [Core.runFor, hstep]
      exact hrun
    | some trap =>
      refine ⟨trap, count, c', ?_, htrap trap rfl⟩
      rw [Core.runFor, hstep]
      rfl

/-- **A program runs until it traps**, whatever its bytes are. -/
theorem run (h : RunsIn g f r c) (timer : Timer) :
    ∃ trap c' timer', c.run timer = .ok (trap, c', timer') ∧ Trapped g f r trap c' ∧
      c'.regs.vector = trap.code := by
  obtain ⟨trap, left, c', hrun, h', htrap⟩ := runFor timer.quantum timer.count h
  refine ⟨trap, { c' with regs := { c'.regs with vector := trap.code } },
    { timer with count := left }, ?_, ⟨h'.of_memory_eq rfl rfl, htrap⟩, rfl⟩
  unfold Core.run
  rw [hrun]
  rfl

end

end RunsIn

end Core

end PagedKernel
