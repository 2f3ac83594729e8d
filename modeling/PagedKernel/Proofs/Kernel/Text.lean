import PagedKernel.Proofs.Kernel.Calls
import PagedKernel.Proofs.Kernel.Duplication
import PagedKernel.Proofs.Machine.Instructions

/-!
# Running text

A process whose text is a page runs the instructions that the text says. A system call by its number
takes two of them and traps; a jump to itself goes on until the timer fires. Neither changes the
memory.

Key definitions: `Core.Leads`, `Kernel.At`, `Kernel.textLoader`.
Key theorems: `Core.Placed.fetch`, `Kernel.At.calls`, `Kernel.At.spins`, `Kernel.boot_text`.
-/

namespace PagedKernel

/-! ### Instructions -/

namespace Core

variable {n : Nat} [Addressable n] {g : Shape} {f : Frames n} {r v j : Nat} {c : Core n}
  {data : List UInt8} {text : List Instruction}

theorem RunsIn.locate_text (h : RunsIn g f r c) {p o : Nat} (hp : p < 2 ^ 40) (hv : v < 2 ^ 35)
    (ho : o < pageSize)
    (hm : c.memory.mapped r v = some (.link (pageAt p) Permission.userText.toFlags)) :
    c.locate (UInt64.ofNat (v * pageSize + o)) .execute = pure ((pageAt p).inPage o) := by
  rw [h.locate_page hv ho, hm]
  dsimp only
  rw [Entry.large_link hp, Entry.user_link hp, Entry.addr_link hp]
  rfl

/-- The bytes of a text are read as they are. -/
theorem RunsIn.readBytes_text (h : RunsIn g f r c) (ht : c.memory.HasText r v data)
    (hv : v < 2 ^ 35) : ∀ (k o : Nat), o + k ≤ data.length →
    c.readBytes .execute (UInt64.ofNat (v * pageSize + o)) k = pure ((data.drop o).take k)
  | 0, o, _ => by rw [Core.readBytes, List.take_zero]
  | k + 1, o, hk => by
    obtain ⟨hlen, p, hp, hall, hm, hdata⟩ := ht
    have ho : o < data.length := by omega
    have hpn : p < n := by
      have hlt := ((h.wrote.fits h.no_table h.fits).mapped_target h.isRoot hm).2
      rwa [Entry.pageNumber_link hp] at hlt
    have hnext : UInt64.ofNat (v * pageSize + o) + 1 = UInt64.ofNat (v * pageSize + (o + 1)) := by
      rw [← Nat.add_assoc, UInt64.ofNat_add (v * pageSize + o) 1]
      rfl
    rw [Core.readBytes, h.locate_text hp hv (by omega) hm, hnext, List.drop_eq_getElem_cons ho,
      List.take_succ_cons, pure_bind, c.memory.readByte_inPage hpn (by omega), hdata o ho,
      h.readBytes_text ⟨hlen, p, hp, hall, hm, hdata⟩ hv k (o + 1) (by omega)]
    rfl

/-- The core runs in the space with root `r`. It is at instruction number `j` of `text`, which is at
page number `v`. -/
structure Placed (g : Shape) (f : Frames n) (r v : Nat) (text : List Instruction) (j : Nat)
    (c : Core n) : Prop extends RunsIn g f r c where
  text : c.memory.HasText r v (text.flatMap Instruction.encode)
  low : v < 2 ^ 35
  rip : c.regs.rip = UInt64.ofNat (v * pageSize + instructionSize * j)

variable {i : Instruction} {c' : Core n}

/-- **What is fetched** is what the text says. -/
theorem Placed.fetch (h : Placed g f r v text j c) (hi : text[j]? = some i) : c.fetch = pure i := by
  obtain ⟨hj, rfl⟩ := List.getElem?_eq_some_iff.mp hi
  have hread := h.readBytes_text h.text h.low instructionSize (instructionSize * j) (by
    rw [Instruction.length_flatMap_encode, ← Nat.mul_succ]
    exact Nat.mul_le_mul_left _ hj)
  rw [← h.rip, Instruction.slice_flatMap_encode text j hj] at hread
  unfold Core.fetch
  rw [hread, pure_bind, Instruction.decode_encode]

/-- A fetch from a text reads its page. -/
theorem RunsIn.readsFrom_text (h : RunsIn g f r c) {p : Nat} (hp : p < 2 ^ 40) (hv : v < 2 ^ 35)
    (hm : c.memory.mapped r v = some (.link (pageAt p) Permission.userText.toFlags)) :
    ∀ (k o : Nat), o + k ≤ pageSize →
      ∀ pa ∈ c.readsFrom .execute (UInt64.ofNat (v * pageSize + o)) k, pa.pageNumber = p
  | 0, _, _ => nofun
  | k + 1, o, hk => by
    have hnext : UInt64.ofNat (v * pageSize + o) + 1 = UInt64.ofNat (v * pageSize + (o + 1)) := by
      rw [← Nat.add_assoc, UInt64.ofNat_add (v * pageSize + o) 1]
      rfl
    rw [Core.readsFrom, h.locate_text hp hv (by omega) hm, hnext]
    refine List.forall_mem_cons.mpr ⟨inPage_pageNumber hp (by omega), ?_⟩
    exact h.readsFrom_text hp hv hm k (o + 1) (by omega)

/-- An instruction without operands in memory accesses a page that was handed out. -/
theorem Placed.accesses_text (h : Placed g f r v text j c) (hi : text[j]? = some i)
    (hops : c.operands i = []) : ∀ pa ∈ c.accesses, Allocatable pa.pageNumber := by
  have hj : j < text.length := (List.getElem?_eq_some_iff.mp hi).1
  obtain ⟨hlen, p, hp, hall, hm, -⟩ := h.text
  rw [Instruction.length_flatMap_encode] at hlen
  have hfits : instructionSize * j + instructionSize ≤ pageSize :=
    (Nat.mul_le_mul_left instructionSize hj).trans hlen
  intro pa hpa
  unfold Core.accesses at hpa
  rw [h.fetch hi, h.rip] at hpa
  rcases List.mem_append.mp hpa with hpa | hpa
  · rw [h.readsFrom_text hp h.low hm _ _ hfits pa hpa]
    exact hall
  · replace hpa : pa ∈ c.operands i := hpa
    exact absurd (hops ▸ hpa) List.not_mem_nil

omit [Addressable n] in
theorem get_jump (c : Core n) (rip : UInt64) (q : Reg) :
    (c.jump rip).regs.get q = c.regs.get q := by
  cases q <;> rfl

theorem rip_succ (v j : Nat) : UInt64.ofNat (v * pageSize + instructionSize * j) + 8 =
    UInt64.ofNat (v * pageSize + instructionSize * (j + 1)) := by
  rw [Nat.mul_succ, ← Nat.add_assoc, UInt64.ofNat_add _ instructionSize]
  rfl

omit [Addressable n] in
theorem Placed.jump (h : Placed g f r v text j c) {rip : UInt64} {j' : Nat}
    (hrip : rip = UInt64.ofNat (v * pageSize + instructionSize * j')) :
    Placed g f r v text j' (c.jump rip) :=
  ⟨h.of_memory_eq rfl rfl, h.text, h.low, hrip⟩

omit [Addressable n] in
theorem Placed.skip (h : Placed g f r v text j c) :
    Placed g f r v text (j + 1) (c.jump (c.regs.rip + 8)) :=
  h.jump (by rw [h.rip, rip_succ])

omit [Addressable n] in
theorem Placed.setReg (h : Placed g f r v text j c) (q : Reg) (w : UInt64) :
    Placed g f r v text (j + 1) ((c.setReg q w).jump (c.regs.rip + 8)) :=
  ⟨h.of_memory_eq rfl rfl, h.text, h.low, h.skip.rip⟩

omit [Addressable n] in
/-- An instruction that cannot fault is completed. -/
theorem step_eq (hf : c.fetch = pure i) (hc : c.complete i = pure c') :
    c.step = .ok (if i.op = .syscall then some .syscall else none, c') := by
  unfold Core.step Core.execute
  rw [hf, pure_bind, hc]
  by_cases hop : i.op = .syscall
  · rw [if_pos hop, hop]
    rfl
  · rw [if_neg hop, beq_eq_false_iff_ne.mpr hop]
    rfl

omit [Addressable n] in
theorem runFor_step {quantum count : Nat} (hf : c.fetch = pure i) (hop : i.op ≠ .syscall)
    (hc : c.complete i = pure c') : runFor quantum (count + 1) c = runFor quantum count c' := by
  rw [runFor, step_eq hf hc, if_neg hop]
  rfl

/-- After `k` instructions, none of which traps, the core `c` is `c'`. -/
def Leads (k : Nat) (c c' : Core n) : Prop :=
  ∀ quantum count, runFor quantum (count + k) c = runFor quantum count c'

omit [Addressable n] in
theorem Leads.trans {k k' : Nat} {c'' : Core n} (h : Leads k c c') (h' : Leads k' c' c'') :
    Leads (k' + k) c c'' := fun quantum count => by
  rw [← Nat.add_assoc, h, h']

omit [Addressable n] in
theorem Leads.of_complete (hf : c.fetch = pure i) (hop : i.op ≠ .syscall)
    (hc : c.complete i = pure c') : Leads 1 c c' := fun _ _ =>
  runFor_step hf hop hc

/-- **A run that comes to a system call** ends there, and the program is behind the call. -/
theorem Leads.run_call {k : Nat} (hleads : Leads k c c') (h : Placed g f r v text j c')
    {a b : Reg} {imm : Int32} (hcall : text[j]? = some ⟨.syscall, a, b, imm⟩) {timer : Timer}
    (hcount : k + 1 ≤ timer.count) :
    ∃ d, c.run timer = .ok (.syscall, d, { timer with count := timer.count - (k + 1) }) ∧
      d.memory = c'.memory ∧ (∀ q, d.regs.get q = c'.regs.get q) ∧
      Placed g f r v text (j + 1) d := by
  obtain ⟨left, hleft⟩ := Nat.exists_eq_add_of_le' hcount
  have hstep := step_eq (h.fetch hcall) rfl
  rw [if_pos rfl] at hstep
  unfold Core.run
  rw [hleft, Nat.add_sub_cancel, Nat.add_comm k 1, ← Nat.add_assoc, hleads, runFor, hstep]
  refine ⟨_, rfl, rfl, fun q => ?_, h.skip.of_memory_eq rfl rfl, h.text, h.low, h.skip.rip⟩
  cases q <;> rfl

/-- **A system call by its number** is two instructions. -/
theorem Placed.run_call (h : Placed g f r v text j c) {b a' b' : Reg} {imm imm' : Int32}
    (hmovi : text[j]? = some ⟨.movi, .rax, b, imm⟩)
    (hcall : text[j + 1]? = some ⟨.syscall, a', b', imm'⟩) {timer : Timer}
    (hcount : 2 ≤ timer.count) :
    ∃ c', c.run timer = .ok (.syscall, c', { timer with count := timer.count - 2 }) ∧
      c'.memory = c.memory ∧ c'.regs.rax = signExtend imm ∧ Placed g f r v text (j + 2) c' := by
  have h1 := h.setReg .rax (signExtend imm)
  have hleads : Leads 1 c _ := .of_complete (h.fetch hmovi) nofun rfl
  obtain ⟨d, hrun, hmemory, hregs, hplaced⟩ := hleads.run_call h1 hcall hcount
  exact ⟨d, hrun, hmemory, hregs .rax, hplaced⟩

/-- **A jump to itself** goes on until the timer fires. -/
theorem Placed.run_spin (h : Placed g f r v text j c) {a b : Reg}
    (hjmp : text[j]? = some ⟨.jmp, a, b, -8⟩) (timer : Timer) :
    ∃ c', c.run timer = .ok (.timer, c', { timer with count := timer.quantum }) ∧
      Placed g f r v text j c' := by
  have hc : c.complete ⟨.jmp, a, b, -8⟩ = pure c := by
    show pure (c.jump (c.regs.rip + 8 + signExtend (-8))) = _
    rw [UInt64.add_assoc, show (8 + signExtend (-8) : UInt64) = 0 from rfl, UInt64.add_zero]
    rfl
  have hrun (count : Nat) :
      Core.runFor timer.quantum count c = .ok (.timer, timer.quantum, c) := by
    induction count with
    | zero => rfl
    | succ count ih => rw [runFor_step (h.fetch hjmp) nofun hc, ih]
  unfold Core.run
  rw [hrun]
  exact ⟨_, rfl, h.of_memory_eq rfl rfl, h.text, h.low, h.rip⟩

end Core

namespace Kernel

variable {k k' : Kernel} {pid : Pid} {text : List Instruction} {j : Nat} {a b a' b' : Reg}
  {imm imm' : Int32}

/-! ### Processes -/

/-- Process `pid` can run. It is at instruction number `j` of `text`, which is where the user region
begins. -/
structure At (k : Kernel) (pid : Pid) (text : List Instruction) (j : Nat) : Prop where
  state : k.procs.state pid = .runnable
  rip : (k.procs.slot pid).regs.rip = UInt64.ofNat (userFirst * pageSize + instructionSize * j)
  text : ∃ t, k.procs.table? pid = some t ∧
    k.frames.memory.HasText t.root.number userFirst (text.flatMap Instruction.encode)

namespace At

theorem placed (h : At k pid text j) (hk : Sound k) : ∃ t g, k.procs.table? pid = some t ∧
    Core.Placed g k.frames t.root.number userFirst text j (k.core pid t) := by
  obtain ⟨t, ht, htext⟩ := h.text
  obtain ⟨g, hg⟩ := hk.userland
  exact ⟨t, g, ht, hg.runsIn ht _ _, htext, by decide, h.rip⟩

theorem spared (h : At k pid text j) (hspares : Userland.Spares pid k.toUserland k'.toUserland) :
    At k' pid text j := by
  obtain ⟨t, ht, htext⟩ := h.text
  refine ⟨hspares.state.trans h.state, ?_, t, hspares.table?.trans ht, hspares.text ht htext⟩
  rw [hspares.slot]
  exact h.rip

/-- The process goes on with other registers. -/
theorem moved (h : At k pid text j) {t : PageTable} {regs : Registers} {i : Nat}
    (ht : k.procs.table? pid = some t)
    (hslot : k'.procs.slot pid = { k.procs.slot pid with regs })
    (hrip : regs.rip = UInt64.ofNat (userFirst * pageSize + instructionSize * i))
    (htext : k'.frames.memory.HasText t.root.number userFirst
      (text.flatMap Instruction.encode)) : At k' pid text i := by
  refine ⟨?_, ?_, t, ?_, htext⟩
  · rw [ProcessTable.state_eq, hslot, ← ProcessTable.state_eq]
    exact h.state
  · rw [hslot]
    exact hrip
  · rw [ProcessTable.table?_eq, hslot, ← ProcessTable.table?_eq, ht]

/-- **A process makes a system call** by its number. No memory has changed by then. -/
theorem calls (h : At k pid text j) (hk : Sound k) (call : SystemCall)
    (hnumber : ∀ argument, SystemCall.ofNumber? (signExtend imm) argument = some call)
    (hmovi : text[j]? = some ⟨.movi, .rax, b, imm⟩)
    (hcall : text[j + 1]? = some ⟨.syscall, a', b', imm'⟩) (hcount : 2 ≤ k.timer.count) :
    ∃ t regs kt, Calls k pid call regs kt ∧ Traps k pid t .syscall regs kt ∧
      regs.rip = UInt64.ofNat (userFirst * pageSize + instructionSize * (j + 2)) ∧
      kt.frames = k.frames ∧ kt.procs = k.procs ∧ kt.timer.count + 2 = k.timer.count := by
  obtain ⟨t, g, ht, hplaced⟩ := h.placed hk
  obtain ⟨c, hrun, hmemory, hrax, hplaced'⟩ := hplaced.run_call hmovi hcall hcount
  obtain ⟨kt, hok, htraps, hframes, hprocs, htimer⟩ := runToTrap_of_run hk h.state ht hrun
  refine ⟨t, c.regs, kt, ⟨hok, ?_⟩, htraps, hplaced'.rip, ?_, hprocs, ?_⟩
  · unfold SystemCall.ofRegisters?
    rw [hrax, hnumber]
  · rw [hframes, hmemory]
    rfl
  · rw [htimer]
    exact Nat.sub_add_cancel hcount

/-- A call of exit does not halt the kernel. -/
theorem exits (h : At k pid text j) (hk : Sound k) (hmovi : text[j]? = some ⟨.movi, .rax, b, 6⟩)
    (hcall : text[j + 1]? = some ⟨.syscall, a', b', imm'⟩) (hcount : 2 ≤ k.timer.count) :
    ∃ regs kt turn k', Calls k pid .exit regs kt ∧ run pid k = .ok turn k' := by
  obtain ⟨t, regs, kt, hcalls, htraps, -⟩ := h.calls hk .exit (fun _ => rfl) hmovi hcall
    hcount
  have hspace : kt.procs.table? kt.current ≠ none := by
    rw [htraps.follows.table?, htraps.follows.current, htraps.table?]
    exact nofun
  have hends := syscall_ends (E := fun _ => False) htraps.follows.sound regs
    (fun hnone => nomatch hnone.symm.trans hcalls.2)
    (fun hpanic => nomatch hpanic.symm.trans hcalls.2) fun hnone => absurd hnone hspace
  obtain ⟨turn, k', hok, -⟩ := hends.ok
  exact ⟨regs, kt, turn, k', hcalls, (run_of_trap hcalls.1).trans hok⟩

/-- **Fork makes a child** if there is a slot and memory for it. The child is behind the call in the
same text. -/
theorem forks (h : At k pid text j) (hk : Sound k) (hmovi : text[j]? = some ⟨.movi, .rax, b, 5⟩)
    (hcall : text[j + 1]? = some ⟨.syscall, a', b', imm'⟩) (hcount : 2 ≤ k.timer.count)
    {t : PageTable} (ht : k.procs.table? pid = some t)
    (hbut : k.frames.memory.BareBut t.root.number userFirst) {q : Pid} (hq : 1 ≤ q)
    (hlt : q < procCount) (hfree : k.procs.state q = .free) (hpages : 9 ≤ k.frames.freePages) :
    ∃ regs kt turn k', Calls k pid .fork regs kt ∧ run pid k = .ok turn k' ∧ Sound k' ∧
      k'.timer.count + 2 = k.timer.count ∧ ∃ child : Pid, child < procCount ∧
        (k'.procs.slot pid).regs.rax = UInt64.ofNat child ∧ At k' child text (j + 2) := by
  obtain ⟨_, regs, kt, hcalls, htraps, hrip, hframes, hprocs, htimer⟩ :=
    h.calls hk .fork (fun _ => rfl) hmovi hcall hcount
  obtain ⟨g, hg⟩ := hk.userland
  have htext : k.frames.memory.HasText t.root.number userFirst
      (text.flatMap Instruction.encode) := by
    obtain ⟨t', ht', htext⟩ := h.text
    obtain rfl : t' = t := Option.some.inj (ht'.symm.trans ht)
    exact htext
  have hcopies := countP_copied_text hbut htext le_rfl
    (by decide)
  obtain rfl : kt.current = pid := htraps.follows.current
  rw [← hprocs] at ht hfree
  rw [← hframes] at htext hcopies hpages
  -- two pages are copied, and seven are enough for the tables
  obtain ⟨turn, k', child, g0, s0, s, hok, hk', hs0, hframes0, hprocs0, hforked, hframes',
    hprocs'⟩ := htraps.follows.sound.syscall_fork_ok hcalls.2 ht hq hlt hfree (by omega)
  have hp := htraps.follows.sound.current
  rw [ProcessTable.modify_eq _ hp] at hprocs'
  obtain ⟨-, hchild, hfree'⟩ := ProcessTable.firstFree_spec hforked.first
  have ht0 : s0.procs.table? kt.current = some t := by
    rw [hprocs0, ProcessTable.table?_set hp, if_pos rfl, ← ht, ProcessTable.table?_eq]
  have hne : child ≠ kt.current := fun heq => hs0.owns.live ht0 (heq ▸ hfree')
  obtain ⟨t', hslot, htext'⟩ :=
    hforked.text hs0 ht0 (by rwa [hframes0]) (le_refl userFirst) (by decide)
  have hslot' : k'.procs.slot child = s.procs.slot child := by
    rw [hprocs', ProcessTable.slot_set hp, if_neg hne]
  refine ⟨regs, kt, turn, k', hcalls, (run_of_trap hcalls.1).trans hok, hk', ?_, child, hchild, ?_,
    ?_, ?_, t', ?_, ?_⟩
  · rw [(syscall_keepsClock regs _ _ _ hok).2, htimer]
  · rw [hprocs', ProcessTable.slot_set hp, if_pos rfl]
  · rw [ProcessTable.state_eq, hslot', hslot]
  · rw [hslot', hslot, hprocs0, ProcessTable.slot_set hp, if_pos rfl]
    exact hrip
  · rw [ProcessTable.table?_eq, hslot', hslot]
  · rw [hframes']
    exact htext'

/-- **A process that the timer preempts** is where the program is then, and the scheduler chooses. -/
theorem preempted (h : At k pid text j) (hk : Sound k) {t : PageTable} {g : Shape}
    {c : Core physicalPages} {timer : Timer} {i : Nat} (ht : k.procs.table? pid = some t)
    (hrun : (k.core pid t).run k.timer = .ok (.timer, c, timer))
    (hplaced : Core.Placed g k.frames t.root.number userFirst text i c)
    (hclock : k.ticks + 1 < 2 ^ 64) :
    ∃ kt turn k', runToTrap pid k = .ok (.timer, c.regs) kt ∧ run pid k = .ok turn k' ∧
      At k' pid text i ∧ k'.procs = k.procs.set pid { k.procs.slot pid with regs := c.regs } ∧
      k'.current = pid ∧ k'.ticks = k.ticks + 1 ∧ k'.timer = timer.ack ∧
      schedule k' = .ok turn k' := by
  obtain ⟨kt, hok, htraps, hframes, hprocs, htimer⟩ := runToTrap_of_run hk h.state ht hrun
  have hfollows := htraps.follows
  have hends := exception_timer_ends (E := fun _ => False) hfollows.sound htraps.trap? fun hlt =>
    absurd hclock (Nat.not_lt.mpr (hfollows.ticks ▸ hlt))
  obtain ⟨turn, k', hhandle, hframes', hprocs', hcurrent', hticks', hschedule⟩ := hends.ok
  have hcurrent : kt.current = pid := hfollows.current
  have hp : pid < procCount := ProcessTable.lt_of_table? ht
  have hprocs' : k'.procs = k.procs.set pid { k.procs.slot pid with regs := c.regs } := by
    rw [hprocs', hcurrent, hprocs, ProcessTable.modify_eq _ hp]
  have hslot : k'.procs.slot pid = { k.procs.slot pid with regs := c.regs } := by
    rw [hprocs', ProcessTable.slot_set hp, if_pos rfl]
  refine ⟨kt, turn, k', hok, (run_of_trap hok).trans hhandle,
    h.moved ht hslot hplaced.rip (by rw [hframes', hframes]; exact hplaced.text), hprocs',
    hcurrent'.trans hcurrent, hticks'.trans (congrArg (· + 1) hfollows.ticks), ?_, hschedule⟩
  rw [exception_acks hhandle htraps.trap?, htimer]

/-- **A process that jumps to itself** is preempted there, and the scheduler chooses. -/
theorem spins (h : At k pid text j) (hk : Sound k) (hjmp : text[j]? = some ⟨.jmp, a, b, -8⟩)
    (hclock : k.ticks + 1 < 2 ^ 64) :
    ∃ turn k', run pid k = .ok turn k' ∧ At k' pid text j ∧ k'.current = pid ∧
      k'.ticks = k.ticks + 1 ∧ schedule k' = .ok turn k' := by
  obtain ⟨t, g, ht, hplaced⟩ := h.placed hk
  obtain ⟨c, hrun, hplaced'⟩ := hplaced.run_spin hjmp k.timer
  obtain ⟨_, turn, k', -, hok, hat, -, hcurrent, hticks, -, hschedule⟩ :=
    h.preempted hk ht hrun hplaced' hclock
  exact ⟨turn, k', hok, hat, hcurrent, hticks, hschedule⟩

end At

/-! ### Loading text -/

/-- Every program there is begins with `text`. -/
def textLoader (text : List Instruction) : Loader := fun name =>
  some ⟨name, UInt64.ofNat procStart, [⟨UInt64.ofNat procStart, UInt64.ofNat pageSize,
    text.flatMap Instruction.encode, false⟩]⟩

/-- **The kernel boots with four such programs**, if the text fits a page. -/
theorem boot_text (text : List Instruction) (hlen : instructionSize * text.length ≤ pageSize) :
    ∃ k, boot (textLoader text) none = .ok k ∧ k.ticks = 1 ∧
      k.timer = ⟨1000, 1000, 0⟩ ∧ k.current = 0 ∧
      (∀ q : Nat, q < 1 ∨ 5 ≤ q → k.procs.state q = .free) ∧ 204 ≤ k.frames.freePages ∧
      ∀ pid, 1 ≤ pid → pid ≤ 4 → At k pid text 0 ∧
        ∃ t, k.procs.table? pid = some t ∧ k.frames.memory.BareBut t.root.number userFirst := by
  have htext : Segment.IsText ⟨UInt64.ofNat procStart, UInt64.ofNat pageSize,
      text.flatMap Instruction.encode, false⟩ userFirst :=
    ⟨rfl, le_rfl, by decide, Nat.zero_lt_succ 4095, le_rfl,
      (Instruction.length_flatMap_encode text).trans_le hlen, rfl⟩
  obtain ⟨k, hboot, hticks, htimer, hcurrent, hpages, hfree, hall⟩ :=
    boot_default (textLoader text) fun name => ⟨_, rfl, .inr ⟨_, _, rfl, htext⟩⟩
  refine ⟨k, hboot, hticks, htimer, hcurrent, hfree, hpages, fun pid h1 h4 => ?_⟩
  obtain ⟨name, program, hname, t, hslot, ⟨-, hholds⟩, -⟩ := hall pid h1 h4
  obtain rfl := Option.some.inj hname
  have ht : k.procs.table? pid = some t := by rw [ProcessTable.table?_eq, hslot]
  obtain ⟨hhas, hbut⟩ := hholds _ _ rfl htext
  refine ⟨⟨?_, ?_, t, ht, hhas⟩, t, ht, hbut⟩
  · rw [ProcessTable.state_eq, hslot]
  · rw [hslot]
    rfl

end Kernel
end PagedKernel
