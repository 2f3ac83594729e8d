import PagedKernel.Proofs.Kernel.Text
import PagedKernel.Proofs.Programs.Outline

/-!
# Programs keep to their outlines

A program that is at a stage of its outline goes on to another by each of its instructions, until it
makes a system call or the timer fires. It does not matter what it has written by then: it cannot
write to its text, and the pages that the facts are about are mapped as before. So a run ends at a
stage, or at a call that the outline knows the answers to.

Key definitions: `Memory.HasData`, `Outline.At`, `Outline.Runs`.
Key theorems: `Outline.Runs.complete`, `Outline.Runs.run`.
-/

namespace PagedKernel

variable {n : Nat} {m m' : Memory n} {r r' v q : Nat} {regs regs' : Registers} {o : Outline}
  {s s' : Stage}

/-! ### Where a program stands -/

/-- The space with root `r` has a page at page number `q` that the user can write. -/
def Memory.HasData (m : Memory n) (r q : Nat) : Prop :=
  q < userPast ∧
    ∃ p, p < 2 ^ 40 ∧ m.mapped r q = some (.link (pageAt p) Permission.userData.toFlags)

/-- What the space with root `r` maps at page number `v` is nothing that the user can write. -/
def Memory.Fixed (m : Memory n) (r v : Nat) : Prop :=
  ∀ e, m.mapped r v = some e → ¬ m.UserWritable r e.addr.pageNumber

theorem Memory.HasData.congr (h : m.HasData r q) (hm : m'.mapped r' q = m.mapped r q) :
    m'.HasData r' q :=
  ⟨h.1, by rw [hm]; exact h.2⟩

theorem Facts.Hold.congr {F : Facts} {owns : Nat → Prop} (h : F.Hold v owns regs)
    (hget : ∀ q, regs'.get q = regs.get q) : F.Hold v owns regs' := by
  intro q
  rw [hget, show regs'.rbx = regs.rbx from hget .rbx]
  exact h q

/-- A program with the registers `regs` in the space with root `r` is at the stage `s` of its
outline. -/
structure Outline.At (o : Outline) (s : Stage) (m : Memory n) (r : Nat) (regs : Registers) :
    Prop where
  text : m.HasText r o.page (o.text.flatMap Instruction.encode)
  rip : regs.rip = UInt64.ofNat (o.page * pageSize + instructionSize * s.index)
  facts : s.facts.Hold o.page (m.HasData r) regs

namespace Outline.At

theorem implies (h : o.At s m r regs) (himp : s.implies o.page s' = true) : o.At s' m r regs := by
  obtain ⟨hindex, -, hfacts⟩ := Stage.implies_iff.mp himp
  exact ⟨h.text, hindex ▸ h.rip, fun q => (h.facts q).implies (hfacts q)⟩

theorem moved (h : o.At s m r regs)
    (htext : m'.HasText r' o.page (o.text.flatMap Instruction.encode))
    (hdata : ∀ q, m.HasData r q → m'.HasData r' q) : o.At s m' r' regs :=
  ⟨htext, h.rip, h.facts.mono hdata⟩

theorem answered (h : o.At s.skip m r regs) {x : UInt64} {f : Fact}
    (hf : f.Holds o.page (m.HasData r) regs.rbx x) :
    o.At (s.set .rax f) m r { regs with rax := x } :=
  ⟨h.text, h.rip, h.facts.set (r := .rax) hf⟩

end Outline.At

/-! ### Instructions -/

section
variable [Addressable n] {g : Shape} {f : Frames n} {c c' : Core n} {data : List UInt8}

namespace Core.RunsIn

omit [Addressable n] in
theorem hasData (h : RunsIn g f r c) (hq : f.memory.HasData r q) : c.memory.HasData r q :=
  hq.congr (congrFun (h.wrote.mapped h.no_table h.fits h.isRoot) q)

omit [Addressable n] in
theorem keepsText (h : RunsIn g f r c) (htext : f.memory.HasText r v data)
    (hfixed : f.memory.Fixed r v) : c.memory.HasText r v data :=
  htext.congr (congrFun (h.wrote.mapped h.no_table h.fits h.isRoot) v) fun e hm _ a ha =>
    h.wrote.byte a (ha ▸ hfixed e hm)

/-- Every byte of a page that the user can write can be written. -/
theorem writeTargets_data (h : RunsIn g f r c) (hq : f.memory.HasData r q) :
    ∀ (k off : Nat), off + k ≤ pageSize →
      ∃ targets, c.writeTargets (UInt64.ofNat (q * pageSize + off)) k = pure targets
  | 0, _, _ => ⟨[], rfl⟩
  | k + 1, off, hk => by
    obtain ⟨hlt, p, hp, hm⟩ := h.hasData hq
    rw [userPast_eq] at hlt
    have hlocate : c.locate (UInt64.ofNat (q * pageSize + off)) .write =
        pure ((pageAt p).inPage off) := by
      rw [h.locate_page (by omega) (by omega), hm]
      dsimp only
      rw [Entry.large_link hp, Entry.user_link hp, Entry.writable_link hp, Entry.addr_link hp]
      rfl
    have hnext : UInt64.ofNat (q * pageSize + off) + 1 =
        UInt64.ofNat (q * pageSize + (off + 1)) := by
      rw [← Nat.add_assoc, UInt64.ofNat_add (q * pageSize + off) 1]
      rfl
    obtain ⟨targets, htargets⟩ := h.writeTargets_data hq k (off + 1) (by omega)
    refine ⟨(pageAt p).inPage off :: targets, ?_⟩
    rw [Core.writeTargets, hlocate, hnext, pure_bind, htargets, pure_bind]

/-- **A store to such a page** is completed. -/
theorem store_data (h : RunsIn g f r c) (hq : f.memory.HasData r q) {off : Nat}
    (hoff : off + data.length ≤ pageSize) :
    ∃ m, c.store (UInt64.ofNat (q * pageSize + off)) data = pure { c with memory := m } ∧
      RunsIn g f r { c with memory := m } := by
  obtain ⟨targets, htargets⟩ := h.writeTargets_data hq data.length off hoff
  obtain ⟨res, hres, hgrants⟩ := h.writeTargets (UInt64.ofNat (q * pageSize + off)) data.length
  rw [htargets] at hres
  cases hres
  obtain ⟨m, hm, h'⟩ := RunsIn.writeAll (targets.zip data) c h fun p hp =>
    hgrants p.1 (List.of_mem_zip hp).1
  refine ⟨m, ?_, h'⟩
  unfold Core.store
  rw [htargets, pure_bind, hm]
  rfl

end Core.RunsIn

theorem rip_target {j t : Nat} {imm : Int32} (ht : target? j imm = some t) :
    UInt64.ofNat (v * pageSize + instructionSize * j) + 8 + signExtend imm =
      UInt64.ofNat (v * pageSize + instructionSize * t) := by
  unfold target? at ht
  dsimp only at ht
  split at ht
  · next hmod =>
    obtain rfl := Option.some.inj ht
    rw [Core.rip_succ, Nat.mul_div_cancel' (Nat.dvd_of_mod_eq_zero hmod), UInt64.ofNat_add,
      UInt64.ofNat_add, UInt64.ofNat_toNat, UInt64.add_assoc]
  · cases ht

/-- The core runs the program of the outline, in the space with root `r` of the frames `f`, and is
at the stage `s`. -/
structure Outline.Runs (o : Outline) (s : Stage) (g : Shape) (f : Frames n) (r : Nat)
    (c : Core n) : Prop extends Core.RunsIn g f r c where
  text : f.memory.HasText r o.page (o.text.flatMap Instruction.encode)
  fixed : f.memory.Fixed r o.page
  console : f.memory.HasData r consolePage
  rip : c.regs.rip = UInt64.ofNat (o.page * pageSize + instructionSize * s.index)
  facts : s.facts.Hold o.page (f.memory.HasData r) c.regs

namespace Outline.Runs

omit [Addressable n] in
theorem placed (h : o.Runs s g f r c) : c.Placed g f r o.page o.text s.index :=
  ⟨h.toRunsIn, h.keepsText h.text h.fixed, lt_trans o.lt_stack (by decide), h.rip⟩

omit [Addressable n] in
theorem standsAt (h : o.Runs s g f r c) : o.At s c.memory r c.regs :=
  ⟨h.keepsText h.text h.fixed, h.rip, h.facts.mono fun _ => h.hasData⟩

omit [Addressable n] in
theorem implies (h : o.Runs s g f r c) (himp : s.implies o.page s' = true) :
    o.Runs s' g f r c := by
  obtain ⟨hindex, -, hfacts⟩ := Stage.implies_iff.mp himp
  exact { h with
    rip := hindex ▸ h.rip
    facts := fun q => (h.facts q).implies (hfacts q) }

omit [Addressable n] in
theorem jump (h : o.Runs s g f r c) {rip : UInt64}
    (hrip : rip = UInt64.ofNat (o.page * pageSize + instructionSize * s'.index))
    (hfacts : s'.facts.Hold o.page (f.memory.HasData r) c.regs) :
    o.Runs s' g f r (c.jump rip) :=
  ⟨h.of_memory_eq rfl rfl, h.text, h.fixed, h.console, hrip, hfacts.congr (c.get_jump rip)⟩

omit [Addressable n] in
theorem skip (h : o.Runs s g f r c) : o.Runs s.skip g f r (c.jump (c.regs.rip + 8)) :=
  h.jump (by rw [h.rip, Core.rip_succ]; rfl) h.facts

omit [Addressable n] in
theorem setReg (h : o.Runs s g f r c) (a : Reg) {x : UInt64} {fact : Fact}
    (hx : fact.Holds o.page (f.memory.HasData r) c.regs.rbx x) :
    o.Runs (s.set a fact) g f r ((c.setReg a x).jump (c.regs.rip + 8)) := by
  refine ⟨h.of_memory_eq rfl rfl, h.text, h.fixed, h.console, h.skip.rip, ?_⟩
  exact (h.facts.set (r := a) hx).congr ((c.setReg a x).get_jump _)

omit [Addressable n] in
/-- The page after one that the process has. -/
theorem pageAfter_add {x : UInt64} (hx : PageAfter v x) (hq : m.HasData r (x.toNat / pageSize)) :
    PageAfter v (x + UInt64.ofNat pageSize) := by
  obtain ⟨hmod, hlt⟩ := hx
  have hpast := hq.1
  rw [userPast_eq] at hpast
  unfold PageAfter
  unfold pageSize at *
  rw [UInt64.toNat_add, UInt64.toNat_ofNat']
  omega

omit [Addressable n] in
/-- Where the program may write is a page of its own, or the console. -/
theorem base_of_mayStore (h : o.Runs s g f r c) {a : Reg} {imm : Int32} {size : Nat}
    (hmay : s.mayStore a imm size) : ∃ q, f.memory.HasData r q ∧
      c.regs.get a + signExtend imm =
        UInt64.ofNat (q * pageSize + (signExtend imm).toNat) := by
  have hbase : ∃ q, f.memory.HasData r q ∧ c.regs.get a = UInt64.ofNat (q * pageSize) := by
    have ha := h.facts a
    rcases hmay.1 with hown | hconsole
    · rw [hown] at ha
      obtain ⟨⟨hmod, -⟩, hdata⟩ := ha
      refine ⟨_, hdata, ?_⟩
      rw [Nat.div_mul_cancel (Nat.dvd_of_mod_eq_zero hmod), UInt64.ofNat_toNat]
    · rw [hconsole] at ha
      exact ⟨consolePage, h.console, ha⟩
  obtain ⟨q, hq, ha⟩ := hbase
  refine ⟨q, hq, ?_⟩
  rw [ha, UInt64.ofNat_add, UInt64.ofNat_toNat]

/-- What the program may write is written. -/
theorem store (h : o.Runs s g f r c) {a : Reg} {imm : Int32} (hmay : s.mayStore a imm data.length) :
    ∃ m, c.store (c.regs.get a + signExtend imm) data = pure { c with memory := m } ∧
      o.Runs s g f r { c with memory := m } := by
  obtain ⟨q, hq, haddr⟩ := h.base_of_mayStore hmay
  obtain ⟨m, hstore, hm⟩ := h.store_data hq hmay.2
  rw [← haddr] at hstore
  exact ⟨m, hstore, hm, h.text, h.fixed, h.console, h.rip, h.facts⟩

omit [Addressable n] in
/-- A branch leads to one of the stages after it. -/
theorem branch (h : o.Runs s g f r c) (a b : Reg) {equal differ : Nat} {rip : UInt64}
    (hrip : rip = UInt64.ofNat (o.page * pageSize + instructionSize *
      if c.regs.get a = c.regs.get b then equal else differ)) :
    ∃ s' ∈ s.branch a b equal differ, s'.lives = s.lives ∧ o.Runs s' g f r (c.jump rip) := by
  obtain ⟨s', hs', hlives, hfacts, hindex⟩ := Stage.mem_branch a b equal differ h.facts
  exact ⟨s', hs', hlives, h.jump (hindex ▸ hrip) hfacts⟩

/-- **An instruction** that the outline knows is completed, and leads to another stage. -/
theorem complete (h : o.Runs s g f r c) {i : Instruction} {l : List Stage}
    (hop : i.op ≠ .syscall) (hl : s.after? o.page i = some l) :
    ∃ c', c.complete i = pure c' ∧ ∃ s' ∈ l, s'.lives = s.lives ∧ o.Runs s' g f r c' := by
  obtain ⟨op, a, b, imm⟩ := i
  have single : ∀ {s' : Stage} {l : List Stage}, some [s'] = some l → s' ∈ l := fun heq =>
    Option.some.inj heq ▸ List.mem_singleton_self _
  cases op with
  | movi => exact ⟨_, rfl, _, single hl, rfl, h.setReg a rfl⟩
  | mov =>
    refine ⟨_, rfl, _, single hl, rfl, h.setReg a ?_⟩
    split
    · next hb =>
      obtain rfl : b = .rbx := hb
      rfl
    · exact h.facts b
  | addi => exact ⟨_, rfl, _, single hl, rfl, h.setReg a trivial⟩
  | add =>
    refine ⟨_, rfl, _, single hl, rfl, h.setReg a ?_⟩
    split
    · next hab =>
      have ha := h.facts a
      have hb := h.facts b
      rw [hab.1] at ha
      rw [hab.2] at hb
      show PageAfter o.page (c.regs.get a + c.regs.get b)
      rw [show c.regs.get b = _ from hb]
      exact pageAfter_add ha.1 ha.2
    · trivial
  | store =>
    obtain ⟨hmay, hl⟩ := Option.ite_none_right_eq_some.mp hl
    have hmay' : s.mayStore a imm (bytesOfWord (c.regs.get b)).length := hmay
    obtain ⟨m, hstore, h'⟩ := h.store hmay'
    refine ⟨_, ?_, _, single hl, rfl, h'.skip⟩
    show c.store (c.regs.get a + signExtend imm) (bytesOfWord (c.regs.get b)) >>= _ = _
    rw [hstore]
    rfl
  | jmp =>
    obtain ⟨t, ht, rfl⟩ := Option.map_eq_some_iff.mp hl
    refine ⟨_, rfl, _, List.mem_singleton_self _, rfl, h.jump ?_ h.facts⟩
    rw [if_pos rfl, h.rip, rip_target ht]
  | jeq =>
    obtain ⟨t, ht, rfl⟩ := Option.map_eq_some_iff.mp hl
    refine ⟨_, rfl, h.branch a b ?_⟩
    by_cases heq : c.regs.get a = c.regs.get b
    · rw [if_pos (beq_iff_eq.mpr heq), if_pos heq, h.rip, rip_target ht]
    · rw [if_neg (mt beq_iff_eq.mp heq), if_neg heq, h.rip, Core.rip_succ]
  | jne =>
    obtain ⟨t, ht, rfl⟩ := Option.map_eq_some_iff.mp hl
    refine ⟨_, rfl, h.branch a b ?_⟩
    by_cases heq : c.regs.get a = c.regs.get b
    · rw [if_neg (fun hne => absurd heq (bne_iff_ne.mp hne)), if_pos heq, h.rip, Core.rip_succ]
    · rw [if_pos (bne_iff_ne.mpr heq), if_neg heq, h.rip, rip_target ht]
  | syscall => exact absurd rfl hop
  | _ => cases hl

/-! ### Runs -/

/-- The program is stopped: by the timer, at one of its stages, or behind a system call that the
outline knows the answers to. -/
def Stops (o : Outline) (lives : Bool) (g : Shape) (f : Frames n) (r : Nat) (trap : Trap)
    (c : Core n) : Prop :=
  ∃ s ∈ o.stages, s.lives = lives ∧
    (trap = .timer ∧ o.Runs s g f r c ∨
      trap = .syscall ∧ o.Runs s.skip g f r c ∧
        ∃ l, s.AfterCall o.page l ∧ ∀ s' ∈ l, s'.Covered o.page o.stages)

/-- **A program keeps to its outline** until it stops. -/
theorem runFor (quantum : Nat) : ∀ (count : Nat) {s : Stage} {c : Core n}, s ∈ o.stages →
    o.Runs s g f r c → ∃ trap left c', Core.runFor quantum count c = .ok (trap, left, c') ∧
      Stops o s.lives g f r trap c'
  | 0, s, c, hs, h => ⟨.timer, quantum, c, rfl, s, hs, rfl, .inl ⟨rfl, h⟩⟩
  | count + 1, s, c, hs, h => by
    obtain ⟨l, hl, hclosed⟩ := o.closed s hs
    obtain ⟨i, hi, hl⟩ := Option.bind_eq_some_iff.mp hl
    have hfetch := h.placed.fetch hi
    by_cases hop : i.op = .syscall
    · obtain ⟨op, a, b, imm⟩ := i
      obtain rfl : op = .syscall := hop
      refine ⟨.syscall, count, _, ?_, s, hs, rfl, .inr ⟨rfl, h.skip, l,
        Stage.afterCall_of_some hl, hclosed⟩⟩
      rw [Core.runFor, Core.step_eq hfetch rfl, if_pos rfl]
      rfl
    · obtain ⟨c1, hcomplete, s1, hs1, hlives, h1⟩ := h.complete hop hl
      obtain ⟨s2, hs2, himp⟩ := hclosed s1 hs1
      obtain ⟨trap, left, c', hrun, hstops⟩ := runFor quantum count hs2 (h1.implies himp)
      rw [← (Stage.implies_iff.mp himp).2.1, hlives] at hstops
      exact ⟨trap, left, c', (Core.runFor_step hfetch hop hcomplete).trans hrun, hstops⟩

theorem run (hs : s ∈ o.stages) (h : o.Runs s g f r c) (timer : Timer) :
    ∃ trap c' timer', c.run timer = .ok (trap, c', timer') ∧ Stops o s.lives g f r trap c' := by
  obtain ⟨trap, left, c', hrun, s', hs', hlives, hstops⟩ := runFor timer.quantum timer.count hs h
  have trapped : ∀ {s'}, o.Runs s' g f r c' →
      o.Runs s' g f r { c' with regs := { c'.regs with vector := trap.code } } := fun h' =>
    { h' with
      toRunsIn := h'.of_memory_eq rfl rfl
      facts := h'.facts.congr fun q => by cases q <;> rfl }
  unfold Core.run
  rw [hrun]
  refine ⟨_, _, _, rfl, s', hs', hlives, ?_⟩
  rcases hstops with ⟨htrap, h'⟩ | ⟨htrap, h', hl⟩
  · exact .inl ⟨htrap, trapped h'⟩
  · exact .inr ⟨htrap, trapped h', hl⟩

end Outline.Runs
end
end PagedKernel
