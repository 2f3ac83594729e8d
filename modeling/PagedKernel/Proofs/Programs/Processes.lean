import PagedKernel.Proofs.Kernel.Calls
import PagedKernel.Proofs.Programs.Steps

/-!
# Processes that keep to their outlines

If every process keeps to the outline of its program, none of them halts the kernel, and none is
broken. It is so for the process that runs, whatever the kernel answers to its call: a page that it
is given is one of its pages from then on, and a page that it is not given takes nothing from it. It
is so for a child, which has copies of the pages of its parent. And no other process is concerned by
the run at all. So the processes keep to their outlines for ever, and one that lives can run for
ever.

Key definitions: `Kernel.Stands`, `Kernel.Tame`.
Key theorems: `Outline.At.given`, `Outline.At.forked`, `Kernel.Stands.run`, `Kernel.Tame.run`.
-/

namespace PagedKernel

/-! ### Spaces -/

section
variable {n : Nat} {g g' : Shape} {f f' : Frames n} {r v : Nat} {o : Outline} {s : Stage}
  {regs : Registers} {data : List UInt8}

/-- The text of a process is not written to. -/
theorem Spaces.fixed {kr : Nat} {P : Nat → Prop} {m : Memory n} (h : Spaces kr P g m)
    (hr : g.IsRoot r) (htext : m.HasText r v data) : m.Fixed r v := by
  obtain ⟨-, c, hc, hall, hm, -⟩ := htext
  rintro e he ⟨v', e', hm', hw, hu, hpage⟩
  have haddr : e.addr = e'.addr := by rw [e.addr_eq_pageAt, e'.addr_eq_pageAt, hpage]
  obtain rfl : Entry.link (pageAt c) Permission.userText.toFlags = e :=
    Option.some.inj (hm.symm.trans he)
  rw [Entry.addr_link hc] at haddr
  have hne : e'.addr ≠ pageAt consolePage := by
    rw [← haddr]
    exact fun heq => hall.ne_console (pageAt_injective hc (by decide) heq)
  obtain ⟨-, rfl⟩ := h.isPrivate ⟨hr, hm'⟩ ⟨hr, he⟩ hw hu (by rw [Entry.addr_link hc, haddr]) hne
  obtain rfl := Option.some.inj (hm.symm.trans hm')
  rw [Entry.writable_link hc] at hw
  cases hw

namespace Outline.At

theorem kept (h : o.At s f.memory r regs) (hr : g.IsRoot r) (hk : Kept (fun _ => True) g f g' f') :
    o.At s f'.memory r regs :=
  h.moved
    (h.text.congr (congrFun (hk.mapped trivial hr) _) fun _ hm _ => hk.byte trivial hr hm)
    fun q hq => hq.congr (congrFun (hk.mapped trivial hr) q)

/-- **A page is given to a process**, or it is not. -/
theorem given (h : o.At s f.memory r regs) {addr : UInt64} {res : Except PageAllocError Unit}
    (hgiven : PageGiven r addr res f f') (hne : o.page ≠ addr.toNat / pageSize) :
    o.At s f'.memory r regs ∧ (res = .ok () → f'.memory.HasData r (addr.toNat / pageSize)) := by
  have hdata : res = .ok () → f'.memory.HasData r (addr.toNat / pageSize) := fun hok => by
    obtain ⟨hlt, c, hc, hm⟩ := hgiven.granted hok
    exact ⟨hlt, c, hc, by rw [hm, Function.update_self]⟩
  refine ⟨h.moved (h.text.congr (hgiven.mapped hne) fun e he _ => hgiven.byte _ e hne he)
    fun q hq => ?_, hdata⟩
  by_cases heq : q = addr.toNat / pageSize
  · cases res with
    | ok _ => exact heq ▸ hdata rfl
    | error cause => exact hq.congr (congrFun (hgiven.refused cause rfl) q)
  · exact hq.congr (hgiven.mapped heq)

end Outline.At
end

section
variable {n : Nat} {kernel : PageTable} {g : Shape} {s s' : Userland n} {parent child : Pid}
  {t : PageTable} {o : Outline} {stage : Stage} {regs : Registers}

/-- **A child** is at the stage of its parent. -/
theorem Outline.At.forked (h : o.At stage s.frames.memory t.root.number regs)
    (hs : s.Sound kernel g) (ht : s.procs.table? parent = some t)
    (hforked : Userland.Forked parent child s s') : ∃ t', s'.procs.slot child =
      ⟨.runnable, { (s.procs.slot parent).regs with rax := 0 }, some t'⟩ ∧
      o.At stage s'.frames.memory t'.root.number regs := by
  have hlt := o.lt_stack
  obtain ⟨t', hslot, htext⟩ := hforked.text hs ht h.text o.first_le (lt_trans hlt (by decide))
  obtain ⟨t1, t2, ht1, hslot2, hmapped, -⟩ := hforked.space
  obtain rfl : t1 = t := Option.some.inj (ht1.symm.trans ht)
  rw [hslot, ProcessSlot.mk.injEq, Option.some.injEq] at hslot2
  obtain rfl : t' = t2 := hslot2.2.2
  refine ⟨t', hslot, h.moved htext fun q hq => ?_⟩
  obtain ⟨hpast, p, hp, hm⟩ := hq
  have hcase := hmapped q
  rw [hm] at hcase
  obtain ⟨_, hm', ⟨c, hc, rfl, -⟩, -⟩ := hcase
  rw [Entry.flags_link hp, Permission.ofFlags_toFlags] at hm'
  exact ⟨hpast, c, hc, hm'⟩

theorem pid_ne_zero {q : Nat} (hpos : 1 ≤ q) (hlt : q < procCount) : UInt64.ofNat q ≠ 0 := by
  intro hzero
  have hnat := congrArg UInt64.toNat hzero
  rw [UInt64.toNat_ofNat', UInt64.toNat_zero] at hnat
  unfold procCount at hlt
  omega

/-- **A fork** takes nothing from the parent. It is answered with a word that is not zero, and a
slot that was free is as it was or has a child at the stage of the parent. -/
theorem Userland.fork_standsAt [Addressable n] {res : Except ForkError Pid}
    (hs : s.Sound kernel g) (hn : 1 + n * 512 < maxCount) (hlt : parent < procCount)
    (hslot : s.procs.slot parent = ⟨.runnable, regs, some t⟩)
    (h : o.At stage s.frames.memory t.root.number regs)
    (hok : Userland.fork parent s = .ok res s') :
    o.At stage s'.frames.memory t.root.number regs ∧ resultWord (res.map UInt64.ofNat) ≠ 0 ∧
      ∀ q, s.procs.state q = .free → s'.procs.slot q = s.procs.slot q ∨
        ∃ t', s'.procs.slot q = ⟨.runnable, { regs with rax := 0 }, some t'⟩ ∧
          o.At stage s'.frames.memory t'.root.number regs := by
  have ht : s.procs.table? parent = some t := by rw [ProcessTable.table?_eq, hslot]
  have hr := hs.owns.isRoot ht
  obtain ⟨-, -, hres⟩ := (Userland.fork_ends (E := fun _ => True) hs hlt hn fun _ =>
    trivial).eq_ok hok
  have hkept : (∀ a, s.frames.count (a / pageSize) ≠ 0 →
      s'.frames.memory.byte a = s.frames.memory.byte a) →
      o.At stage s'.frames.memory t.root.number regs := fun hbyte =>
    h.kept hr (.of_in_use hs.accounted hbyte)
  cases res with
  | error cause =>
    obtain ⟨hprocs, hsame, -⟩ := hres
    exact ⟨hkept hsame.byte, by unfold resultWord; exact nofun, fun q _ => .inl (by rw [hprocs])⟩
  | ok child =>
    have hforked : Userland.Forked parent child s s' := hres
    obtain ⟨hpos, hchild, -⟩ := ProcessTable.firstFree_spec hforked.first
    obtain ⟨_, _, -, -, -, -, hbyte⟩ := hforked.space
    refine ⟨hkept hbyte, pid_ne_zero hpos hchild, fun q _ => ?_⟩
    by_cases hq : q = child
    · subst hq
      have hchild := h.forked hs ht hforked
      rw [hslot] at hchild
      exact .inr hchild
    · exact .inl (hforked.other q hq)

end

namespace Kernel

variable {k k' kt : Kernel} {pid : Pid} {lives : Bool} {o : Outline} {s : Stage} {t : PageTable}
  {regs : Registers} {E : Halt → Prop}

/-- Process `pid` can run and is at a stage of an outline. -/
def Stands (k : Kernel) (pid : Pid) (lives : Bool) : Prop :=
  ∃ (o : Outline) (s : Stage) (regs : Registers) (t : PageTable), s ∈ o.stages ∧ s.lives = lives ∧
    k.procs.slot pid = ⟨.runnable, regs, some t⟩ ∧
    o.At s k.frames.memory t.root.number regs

namespace Stands

theorem state (h : Stands k pid lives) : k.procs.state pid = .runnable := by
  obtain ⟨o, s, regs, t, -, -, hslot, -⟩ := h
  rw [ProcessTable.state_eq, hslot]

theorem spared (h : Stands k pid lives)
    (hspares : Userland.Spares pid k.toUserland k'.toUserland) : Stands k' pid lives := by
  obtain ⟨o, s, regs, t, hs, hlives, hslot, hat⟩ := h
  have ht : k.procs.table? pid = some t := by rw [ProcessTable.table?_eq, hslot]
  refine ⟨o, s, regs, t, hs, hlives, hspares.slot.trans hslot, hat.moved ?_ fun q hq => ?_⟩
  · exact hspares.text ht hat.text
  · exact hq.congr (congrFun (hspares.mapped ht) q)

end Stands

/-- A process that stands runs on its core at the stage. -/
theorem Sound.runs (h : Sound k) (hslot : k.procs.slot pid = ⟨.runnable, regs, some t⟩)
    (hat : o.At s k.frames.memory t.root.number regs) :
    ∃ g, o.Runs s g k.frames t.root.number (k.core pid t) := by
  obtain ⟨g, hg⟩ := h.userland
  have ht : k.procs.table? pid = some t := by rw [ProcessTable.table?_eq, hslot]
  have hr := hg.owns.isRoot ht
  have hregs : (k.core pid t).regs = regs := congrArg ProcessSlot.regs hslot
  obtain ⟨c, hc, -, hm⟩ := hg.spaces.mapped_console trivial hr (hg.owns.ne ht)
  exact ⟨g, hg.runsIn ht _ _, hat.text, hg.spaces.fixed hr hat.text, ⟨by decide, c, hc, hm⟩,
    hregs ▸ hat.rip, hregs ▸ hat.facts⟩

/-- Process `pid`, which ran last, has been stopped with the registers `regs` at the stage `s`. -/
structure StopsAt (o : Outline) (s : Stage) (t : PageTable) (regs : Registers) (k : Kernel) :
    Prop where
  sound : Sound k
  state : k.procs.state k.current = .runnable
  table? : k.procs.table? k.current = some t
  standsAt : o.At s k.frames.memory t.root.number regs

/-- **A process that stands runs** up to a stage of its outline, or behind a call at one. -/
theorem Stands.runToTrap (h : Stands k pid lives) (hk : Sound k) :
    ∃ o s t trap regs kt, runToTrap pid k = .ok (trap, regs) kt ∧ Traps k pid t trap regs kt ∧
      s ∈ o.stages ∧ s.lives = lives ∧
      (trap = .timer ∧ StopsAt o s t regs kt ∨
        trap = .syscall ∧ StopsAt o s.skip t regs kt ∧
          ∃ l, s.AfterCall o.page l ∧ ∀ s' ∈ l, s'.Covered o.page o.stages) := by
  obtain ⟨o, s, regs, t, hs, hlives, hslot, hat⟩ := h
  obtain ⟨g, hruns⟩ := hk.runs hslot hat
  obtain ⟨trap, c, timer, hrun, s', hs', hlives', hstops⟩ := hruns.run hs k.timer
  have hrunnable : k.procs.state pid = .runnable := by rw [ProcessTable.state_eq, hslot]
  have ht : k.procs.table? pid = some t := by rw [ProcessTable.table?_eq, hslot]
  obtain ⟨kt, hok, htraps, hframes, hprocs, -⟩ := runToTrap_of_run hk hrunnable ht hrun
  have hcurrent : kt.current = pid := htraps.follows.current
  have stopped : ∀ {s}, o.At s c.memory t.root.number c.regs → StopsAt o s t c.regs kt := fun h =>
    ⟨htraps.follows.sound, by rw [hcurrent, hprocs, hrunnable], by rw [hcurrent, hprocs, ht],
      by rw [hframes]; exact h⟩
  refine ⟨o, s', t, trap, c.regs, kt, hok, htraps, hs', hlives'.trans hlives, ?_⟩
  rcases hstops with ⟨htrap, h'⟩ | ⟨htrap, h', hl⟩
  · exact .inl ⟨htrap, stopped h'.standsAt⟩
  · exact .inr ⟨htrap, stopped h'.standsAt, hl⟩

/-! ### Answers -/

/-- What becomes of the process that ran last, and of slots that were free. -/
structure Goes (lives : Bool) (k k' : Kernel) : Prop where
  self : Stands k' k.current lives ∨ lives = false ∧ k'.procs.state k.current = .free
  fresh : ∀ q, q ≠ k.current → k.procs.state q = .free → k'.procs.state q = .free ∨
    ∃ lives, Stands k' q lives

namespace StopsAt

/-- The registers of the process change, and no other slot does. -/
theorem goes (h : StopsAt o s t regs k) {s' : Stage} {regs' : Registers} (hs' : s' ∈ o.stages)
    (hprocs : k'.procs = k.procs.modify k.current fun p => { p with regs := regs' })
    (hat : o.At s' k'.frames.memory t.root.number regs') : Goes s'.lives k k' := by
  have hlt := h.sound.current
  rw [ProcessTable.modify_eq _ hlt] at hprocs
  refine ⟨.inl ⟨o, s', regs', t, hs', rfl, ?_, hat⟩, fun q hq hfree => .inl ?_⟩
  · rw [hprocs, ProcessTable.slot_set hlt, if_pos rfl, ← ProcessTable.state_eq,
      ← ProcessTable.table?_eq, h.state, h.table?]
  · rw [hprocs, ProcessTable.state_set hlt, if_neg hq, hfree]

/-- A call is answered, and the program goes on at the stage after it. -/
theorem goes_answered (h : StopsAt o s.skip t regs k) {fact : Fact} {x : UInt64}
    (hcovered : (s.set .rax fact).Covered o.page o.stages)
    (hanswered : Answered regs x k k') (hat : o.At s.skip k'.frames.memory t.root.number regs)
    (hx : fact.Holds o.page (k'.frames.memory.HasData t.root.number) regs.rbx x) :
    Goes s.lives k k' := by
  obtain ⟨s'', hs'', himp⟩ := hcovered
  have hgoes := h.goes hs'' hanswered ((hat.answered hx).implies himp)
  rwa [← (Stage.implies_iff.mp himp).2.1] at hgoes

theorem timer_ends (h : StopsAt o s t regs k) (hs : s ∈ o.stages)
    (htrap : regs.trap? = some .timer) (hclock : k.ticks + 1 < 2 ^ 64) :
    Ends (exception regs) k (fun _ k' => Goes s.lives k k') E := by
  refine (exception_timer_ends h.sound htrap fun hle => absurd hclock (Nat.not_lt.mpr hle)).imp ?_
  rintro turn k' ⟨hframes, hprocs, -⟩
  exact h.goes hs hprocs (hframes ▸ h.standsAt)

theorem rax_eq (h : StopsAt o s.skip t regs k) {w : UInt64} (hrax : s.facts .rax = .word w) :
    regs.rax = w := by
  have hfact : (s.facts .rax).Holds o.page _ regs.rbx regs.rax := h.standsAt.facts .rax
  rwa [hrax] at hfact

/-- **A call for the identifier, or for a yield.** -/
theorem plain_ends (h : StopsAt o s.skip t regs k)
    (hrax : s.facts .rax = .word SystemCall.getpid.number ∨
      s.facts .rax = .word SystemCall.yield.number)
    (hcovered : (s.set .rax .any).Covered o.page o.stages) :
    Ends (syscall regs) k (fun _ k' => Goes s.lives k k') E := by
  have hanswers : ∃ x call, SystemCall.ofRegisters? regs = some call ∧
      (call = .getpid ∧ x = UInt64.ofNat k.current ∨ call = .yield ∧ x = 0) := by
    unfold SystemCall.ofRegisters?
    rcases hrax with hrax | hrax
    · rw [h.rax_eq hrax]
      exact ⟨_, .getpid, rfl, .inl ⟨rfl, rfl⟩⟩
    · rw [h.rax_eq hrax]
      exact ⟨_, .yield, rfl, .inr ⟨rfl, rfl⟩⟩
  obtain ⟨x, call, hcall, hx⟩ := hanswers
  refine (syscall_answers h.sound hcall hx).imp ?_
  rintro turn k' ⟨hanswered, hframes⟩
  exact h.goes_answered hcovered hanswered (hframes ▸ h.standsAt) trivial

/-- **A call for a page** at the address in `rbx`, which is no page of text. If it is answered with
zero, the process has that page. -/
theorem page_ends (h : StopsAt o s.skip t regs k) {fact : Fact}
    (hrax : s.facts .rax = .word (SystemCall.pageAlloc 0).number) (hrdi : s.facts .rdi = .next)
    (hne : o.page ≠ regs.rbx.toNat / pageSize)
    (hcovered : (s.set .rax fact).Covered o.page o.stages)
    (hfact : ∀ {owns : Nat → Prop} {x : UInt64}, (x = 0 → owns (regs.rbx.toNat / pageSize)) →
      fact.Holds o.page owns regs.rbx x) :
    Ends (syscall regs) k (fun _ k' => Goes s.lives k k') E := by
  have hcall : SystemCall.ofRegisters? regs = some (.pageAlloc regs.rbx) := by
    have hnext : (s.facts .rdi).Holds o.page _ regs.rbx regs.rdi := h.standsAt.facts .rdi
    rw [hrdi] at hnext
    unfold SystemCall.ofRegisters?
    rw [h.rax_eq hrax, show regs.rdi = regs.rbx from hnext]
    rfl
  obtain ⟨g, hg⟩ := h.sound.userland
  have hr := hg.owns.isRoot h.table?
  refine (syscall_pageAlloc_ends h.sound h.table? hcall
    (pageAlloc_ends hg.accounted hg.spaces hr (hg.owns.ne h.table?))).imp ?_
  rintro turn k' ⟨res, ⟨hgiven, -⟩, hanswered⟩
  obtain ⟨hat, hdata⟩ := h.standsAt.given hgiven hne
  refine h.goes_answered hcovered hanswered hat (hfact fun hx => hdata ?_)
  cases res with
  | ok _ => rfl
  | error cause => cases hx

theorem fork_ends (h : StopsAt o s.skip t regs k)
    (hrax : s.facts .rax = .word SystemCall.fork.number)
    (hparent : (s.set .rax .nonzero).Covered o.page o.stages)
    (hchild : s.child.Covered o.page o.stages) :
    Ends (syscall regs) k (fun _ k' => Goes s.lives k k') E := by
  have hcall : SystemCall.ofRegisters? regs = some .fork := by
    unfold SystemCall.ofRegisters?
    rw [h.rax_eq hrax]
    rfl
  have hlt := h.sound.current
  refine (syscall_fork_ends h.sound hcall (by rw [h.table?]; exact nofun)).imp ?_
  rintro turn k' ⟨-, g, s0, res, s1, hs0, hframes0, hprocs0, hfork, hframes', hprocs'⟩
  rw [ProcessTable.modify_eq _ hlt] at hprocs0 hprocs'
  have hslot0 : s0.procs.slot k.current = ⟨.runnable, regs, some t⟩ := by
    rw [hprocs0, ProcessTable.slot_set hlt, if_pos rfl, ← ProcessTable.state_eq,
      ← ProcessTable.table?_eq, h.state, h.table?]
  have hslot1 : s1.procs.slot k.current = ⟨.runnable, regs, some t⟩ := by
    rw [fork_slot_parent hs0 hlt (by rw [ProcessTable.state_eq, hslot0]; exact nofun) hfork, hslot0]
  obtain ⟨hat, hx, hfree⟩ := Userland.fork_standsAt hs0 (by decide) hlt hslot0
    (hframes0 ▸ h.standsAt) hfork
  rw [← hframes'] at hat hfree
  refine ⟨.inl ?_, fun q hq hfreeq => ?_⟩
  · obtain ⟨s'', hs'', himp⟩ := hparent
    refine ⟨o, s'', _, t, hs'', (Stage.implies_iff.mp himp).2.1.symm, ?_,
      (hat.answered (f := .nonzero) hx).implies himp⟩
    rw [hprocs', ProcessTable.slot_set hlt, if_pos rfl, hslot1]
  · have hslot' : k'.procs.slot q = s1.procs.slot q := by
      rw [hprocs', ProcessTable.slot_set hlt, if_neg hq]
    have hsame : s0.procs.state q = .free := by
      rw [hprocs0, ProcessTable.state_set hlt, if_neg hq, hfreeq]
    rcases hfree q hsame with hq0 | ⟨t', hslotq, hatq⟩
    · rw [ProcessTable.state_eq, hslot', hq0, ← ProcessTable.state_eq]
      exact .inl hsame
    · obtain ⟨s'', hs'', himp⟩ := hchild
      have hanswered := hatq.answered (x := 0) (f := .word 0) rfl
      have hat' : o.At s.child k'.frames.memory t'.root.number { regs with rax := 0 } :=
        ⟨hanswered.text, hanswered.rip, hanswered.facts⟩
      exact .inr ⟨_, o, s'', _, t', hs'', rfl, hslot'.trans hslotq, hat'.implies himp⟩

theorem exit_ends (h : StopsAt o s.skip t regs k)
    (hrax : s.facts .rax = .word SystemCall.exit.number) (hlives : s.lives = false) :
    Ends (syscall regs) k (fun _ k' => Goes s.lives k k') E := by
  have hcall : SystemCall.ofRegisters? regs = some .exit := by
    unfold SystemCall.ofRegisters?
    rw [h.rax_eq hrax]
    rfl
  refine (syscall_ends h.sound regs (fun hnone => nomatch hcall.symm.trans hnone)
    (fun hpanic => nomatch hcall.symm.trans hpanic) fun hnone =>
      nomatch h.table?.symm.trans hnone).imp ?_
  rintro turn k' ⟨hanswers, -⟩
  refine ⟨.inr ⟨hlives, ?_⟩, fun q hq hfree => .inl ?_⟩
  · rw [ProcessTable.state_eq, hanswers.exit hcall]
    rfl
  · rw [ProcessTable.state_eq, hanswers.slot (by rw [hcall]; nofun) q hq, ← ProcessTable.state_eq,
      hfree]

/-- **A call that the outline knows.** -/
theorem call_ends (h : StopsAt o s.skip t regs k) {l : List Stage} (hcall : s.AfterCall o.page l)
    (hcovered : ∀ s' ∈ l, s'.Covered o.page o.stages) :
    Ends (syscall regs) k (fun _ k' => Goes s.lives k k') E := by
  have hrbx : (s.facts .rbx).Holds o.page _ regs.rbx regs.rbx := h.standsAt.facts .rbx
  cases hcall with
  | plain hrax => exact h.plain_ends hrax (hcovered _ (List.mem_singleton_self _))
  | page hrax hrdi hpage =>
    have hafter : PageAfter o.page regs.rbx := hrbx.implies hpage
    exact h.page_ends hrax hrdi (Nat.ne_of_lt hafter.2) (hcovered _ (List.mem_singleton_self _))
      fun hx hzero => ⟨hafter, hx hzero⟩
  | console hrax hrdi hconsole =>
    rw [hconsole] at hrbx
    have hne : o.page ≠ regs.rbx.toNat / pageSize := by
      rw [show regs.rbx = UInt64.ofNat consoleAddr from hrbx]
      exact Nat.ne_of_gt (lt_of_lt_of_le (by decide) o.first_le)
    exact h.page_ends hrax hrdi hne (hcovered _ (List.mem_singleton_self _)) fun _ => trivial
  | fork hrax =>
    exact h.fork_ends hrax (hcovered _ List.mem_cons_self)
      (hcovered _ (List.mem_cons_of_mem _ (List.mem_singleton_self _)))
  | exit hrax hlives => exact h.exit_ends hrax hlives

end StopsAt

/-! ### Runs -/

/-- **A process that stands is run**, and the kernel does not halt. It stands still, or it has
ended, which it does not if it lives. -/
theorem Stands.run (h : Stands k pid lives) (hk : Sound k) (hclock : k.ticks + 1 < 2 ^ 64) :
    ∃ turn k', run pid k = .ok turn k' ∧
      (Stands k' pid lives ∨ lives = false ∧ k'.procs.state pid = .free) ∧
      ∀ q, q ≠ pid → k.procs.state q = .free →
        k'.procs.state q = .free ∨ ∃ lives, Stands k' q lives := by
  obtain ⟨o, s, t, trap, regs, kt, htrap, htraps, hs, rfl, hstops⟩ := h.runToTrap hk
  have hcurrent : kt.current = pid := htraps.follows.current
  have hends : Ends (handle trap regs) kt (fun _ k' => Goes s.lives kt k') fun _ => False := by
    unfold handle
    rcases hstops with ⟨rfl, hstops⟩ | ⟨rfl, hstops, l, hcall, hcovered⟩
    · rw [if_neg nofun]
      exact hstops.timer_ends hs htraps.trap? (htraps.follows.ticks ▸ hclock)
    · rw [if_pos rfl]
      exact hstops.call_ends hcall hcovered
  obtain ⟨turn, k', hok, hself, hfresh⟩ := hends.ok
  rw [hcurrent] at hself hfresh
  refine ⟨turn, k', (run_of_trap htrap).trans hok, hself, fun q hq hfree => hfresh q hq ?_⟩
  rw [htraps.procs, hfree]

/-- Every process keeps to an outline, and one of them lives. -/
structure Tame (k : Kernel) : Prop where
  sound : Sound k
  stands : ∀ pid, k.procs.state pid = .free ∨ ∃ lives, Stands k pid lives
  lives : ∃ pid, Stands k pid true

/-- **A run of a tame kernel** does not halt it, and leaves it tame. -/
theorem Tame.run (h : Tame k) (hrun : k.procs.state pid = .runnable)
    (hclock : k.ticks + 1 < 2 ^ 64) : ∃ turn k', Kernel.run pid k = .ok turn k' ∧ Tame k' := by
  obtain ⟨p, hlives⟩ := h.lives
  obtain ⟨lives, hstands, hpid⟩ : ∃ lives, Stands k pid lives ∧ (p = pid → lives = true) := by
    by_cases hp : p = pid
    · exact ⟨true, hp ▸ hlives, fun _ => rfl⟩
    · obtain hfree | ⟨lives, hstands⟩ := h.stands pid
      · exact nomatch hrun.symm.trans hfree
      · exact ⟨lives, hstands, fun heq => absurd heq hp⟩
  obtain ⟨turn, k', hok, hself, hfresh⟩ := hstands.run h.sound hclock
  obtain ⟨⟨hsound, -⟩, hconcerns⟩ := run_ok h.sound hok
  have hspared : ∀ {q lives}, q ≠ pid → Stands k q lives → Stands k' q lives := fun hq hstands =>
    hstands.spared (hconcerns _ hq (by rw [hstands.state]; exact nofun))
  refine ⟨turn, k', hok, hsound, fun q => ?_, p, ?_⟩
  · by_cases hq : q = pid
    · subst hq
      exact hself.symm.imp And.right fun hself => ⟨lives, hself⟩
    · rcases h.stands q with hfree | ⟨lives, hstands⟩
      · exact hfresh q hq hfree
      · exact .inr ⟨lives, hspared hq hstands⟩
  · by_cases hp : p = pid
    · obtain rfl := hpid hp
      obtain hstands' | ⟨hfalse, -⟩ := hself
      · exact hp ▸ hstands'
      · cases hfalse
    · exact hspared hp hlives

end Kernel
end PagedKernel
