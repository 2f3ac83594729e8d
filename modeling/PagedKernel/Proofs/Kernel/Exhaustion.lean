import PagedKernel.Proofs.Kernel.Text

/-!
# Running out of memory

A process asks for 128 pages, one next to the other. A child needs a page of its own for each of
them, and there are 256 pages to hand out. So before long fewer pages are free than a fork takes,
whether the process gets all of them or is refused one.

Key definitions: `askForPages`, `Kernel.Asked`.
Key theorems: `Kernel.Asked.succ`, `Kernel.exists_few_free`.
-/

namespace PagedKernel

/-- Ask for the 128 pages after the page of the text. -/
def askForPages : List Instruction :=
  (List.range 384).map fun j =>
    match j % 3 with
    | 0 => ⟨.movi, .rdi, .rax, Int32.ofNat ((userFirst + 1 + j / 3) * pageSize)⟩
    | 1 => ⟨.movi, .rax, .rax, 4⟩
    | _ => ⟨.syscall, .rax, .rax, 0⟩

theorem askForPages_get {i : Nat} (hi : i < 128) :
    askForPages[3 * i]? =
      some ⟨.movi, .rdi, .rax, Int32.ofNat ((userFirst + (i + 1)) * pageSize)⟩ ∧
    askForPages[3 * i + 1]? = some ⟨.movi, .rax, .rax, 4⟩ ∧
    askForPages[3 * i + 2]? = some ⟨.syscall, .rax, .rax, 0⟩ := by
  unfold askForPages
  refine ⟨?_, ?_, ?_⟩
  · rw [List.getElem?_map, List.getElem?_range (by omega), Option.map_some,
      Nat.mul_mod_right, Nat.mul_div_cancel_left i (by decide), Nat.add_right_comm, Nat.add_assoc]
    rfl
  · rw [List.getElem?_map, List.getElem?_range (by omega), Option.map_some, Nat.mul_add_mod]
    rfl
  · rw [List.getElem?_map, List.getElem?_range (by omega), Option.map_some, Nat.mul_add_mod]
    rfl

theorem signExtend_ofNat {x : Nat} (hx : x < 2 ^ 31) :
    signExtend (Int32.ofNat x) = UInt64.ofNat x := by
  have hlong : (Int32.ofNat x).toInt64 = Int64.ofNat x := by
    rw [← Int64.toInt_inj, Int32.toInt_toInt64, Int32.toInt_ofNat_of_lt hx,
      Int64.toInt_ofNat_of_lt (by omega)]
  unfold signExtend
  rw [hlong, Int64.toUInt64_ofNat']

/-- **A system call with an argument** is three instructions. -/
theorem Core.Placed.run_ask {n : Nat} [Addressable n] {g : Shape} {f : Frames n} {r v j : Nat}
    {c : Core n} {text : List Instruction} (h : Placed g f r v text j c)
    {a b b1 b2 : Reg} {imm imm1 imm2 : Int32} (hmovi : text[j]? = some ⟨.movi, .rdi, b, imm⟩)
    (hnumber : text[j + 1]? = some ⟨.movi, .rax, b1, imm1⟩)
    (hcall : text[j + 2]? = some ⟨.syscall, a, b2, imm2⟩) {timer : Timer}
    (hcount : 3 ≤ timer.count) :
    ∃ c', c.run timer = .ok (.syscall, c', { timer with count := timer.count - 3 }) ∧
      c'.memory = c.memory ∧ c'.regs.rdi = signExtend imm ∧ c'.regs.rax = signExtend imm1 ∧
      Placed g f r v text (j + 3) c' := by
  have h1 := h.setReg .rdi (signExtend imm)
  have h2 := h1.setReg .rax (signExtend imm1)
  have hleads : Leads 2 c _ := .trans (.of_complete (h.fetch hmovi) nofun rfl)
    (.of_complete (h1.fetch hnumber) nofun rfl)
  obtain ⟨d, hrun, hmemory, hregs, hplaced⟩ := hleads.run_call h2 hcall hcount
  exact ⟨d, hrun, hmemory, hregs .rdi, hregs .rax, hplaced⟩

namespace Kernel

variable {k : Kernel} {t : PageTable} {i : Nat}

/-- Process 1 has the page table `t`. It has asked for `i` pages, and has them. -/
structure Asked (k : Kernel) (t : PageTable) (i : Nat) : Prop where
  reachable : Reachable (textLoader askForPages) k
  place : At k 1 askForPages (3 * i)
  table? : k.procs.table? 1 = some t
  count : k.timer.count + 3 * i = 1000
  free : k.procs.state 5 = .free
  freePages : k.frames.freePages + i ≤ 256
  unmapped : ∀ v, userFirst + i < v → v < stackPage / pageSize →
    k.frames.memory.mapped t.root.number v = none
  granted : ∀ v, userFirst < v → v ≤ userFirst + i → ∃ c, c < 2 ^ 40 ∧
    k.frames.memory.mapped t.root.number v = some (.link (pageAt c) Permission.userData.toFlags)

theorem boot_askForPages : ∃ k t, Asked k t 0 := by
  obtain ⟨k, hboot, -, htimer, -, hfree, -, hall⟩ := boot_text askForPages (by
    unfold askForPages
    rw [List.length_map, List.length_range]
    decide)
  obtain ⟨hat, t, ht, hbut⟩ := hall 1 le_rfl (by decide)
  refine ⟨k, t, .boot hboot, hat, ht, congrArg Timer.count htimer, hfree 5 (.inr le_rfl),
    (Nat.add_zero _).trans_le (k.frames.freePages_le.trans (by decide)), fun v hv hlt => ?_,
    fun v hv hle => absurd hle (Nat.not_le.mpr hv)⟩
  rw [hbut v (Nat.ne_of_lt hlt) (Nat.ne_of_gt hv)]
  exact if_neg fun hlow => absurd hlow.2 (Nat.not_lt_of_lt hv)

/-- The process comes to its next call. No memory has changed by then. -/
theorem Asked.calls (h : Asked k t i) (hi : i < 128) : ∃ regs kt,
    Calls k 1 (.pageAlloc (VirtAddr.ofPage (userFirst + (i + 1))).val) regs kt ∧
    Traps k 1 t .syscall regs kt ∧
    regs.rip = UInt64.ofNat (userFirst * pageSize + instructionSize * (3 * (i + 1))) ∧
    kt.frames = k.frames ∧ kt.procs = k.procs ∧ kt.timer.count + 3 * (i + 1) = 1000 := by
  obtain ⟨t', g, ht, hplaced⟩ := h.place.placed h.reachable.sound
  obtain rfl : t' = t := Option.some.inj (ht.symm.trans h.table?)
  obtain ⟨hmovi, hnumber, hcall⟩ := askForPages_get hi
  have hcount := h.count
  have henough : 3 ≤ k.timer.count := by omega
  obtain ⟨c, hrun, hmemory, hrdi, hrax, hplaced'⟩ :=
    hplaced.run_ask hmovi hnumber hcall henough
  obtain ⟨kt, hok, htraps, hframes, hprocs, htimer⟩ :=
    runToTrap_of_run h.reachable.sound h.place.state ht hrun
  refine ⟨c.regs, kt, ⟨hok, ?_⟩, htraps, hplaced'.rip, ?_, hprocs, ?_⟩
  · unfold SystemCall.ofRegisters?
    rw [hrax, hrdi, signExtend_ofNat (by rw [userFirst_eq]; unfold pageSize; omega)]
    rfl
  · rw [hframes, hmemory]
    rfl
  · rw [htimer]
    show k.timer.count - 3 + 3 * (i + 1) = 1000
    omega

/-- The call is answered, and the process is behind it. Its space has the page, or none was free. -/
theorem Asked.answered (h : Asked k t i) (hi : i < 128) : ∃ turn k' regs res,
    run 1 k = .ok turn k' ∧ k'.procs = k.procs.set 1 { k.procs.slot 1 with regs } ∧
    regs.rip = UInt64.ofNat (userFirst * pageSize + instructionSize * (3 * (i + 1))) ∧
    k'.timer.count + 3 * (i + 1) = 1000 ∧
    PageGiven t.root.number (VirtAddr.ofPage (userFirst + (i + 1))).val res k.frames k'.frames ∧
    ((res = .error .outOfMemory ∧ k.frames.freePages = 0) ∨
      res = .ok () ∧ k.frames.freePages = k'.frames.freePages + 1) := by
  obtain ⟨regs, kt, hcalls, htraps, hrip, hframes, hprocs, hcount⟩ := h.calls hi
  have hkt := htraps.follows.sound
  have hcurrent : kt.current = 1 := htraps.follows.current
  have ht : kt.procs.table? kt.current = some t := by
    rw [hcurrent, hprocs]
    exact h.table?
  obtain ⟨g, hg⟩ := hkt.userland
  have hr := hg.owns.isRoot ht
  obtain ⟨t', ht', htext⟩ := h.place.text
  obtain rfl : t' = t := Option.some.inj (ht'.symm.trans h.table?)
  obtain ⟨c, -, -, hm, -⟩ := htext.2
  have hnone := h.unmapped (userFirst + (i + 1)) (by omega) (by
    rw [userFirst_eq]
    unfold stackPage virtualSize pageSize
    omega)
  rw [← hframes] at hm hnone ⊢
  -- the page of the text is in the same leaf table
  have hcost : Ends (pageAlloc t' (VirtAddr.ofPage (userFirst + (i + 1))).val) kt.frames _
      fun _ => False :=
    pageAlloc_beside hg.accounted hr hm (by rw [userFirst_eq]; omega) (Nat.le_add_right ..)
      (by rw [userFirst_eq, userPast_eq]; omega) hnone
  have hgiven : Ends (pageAlloc t' (VirtAddr.ofPage (userFirst + (i + 1))).val) kt.frames _
      fun _ => False :=
    pageAlloc_ends hg.accounted hg.spaces hr (hg.owns.ne ht)
  obtain ⟨turn, k', hok, res, ⟨⟨hgiven, -⟩, hcost⟩, hanswered⟩ :=
    (syscall_pageAlloc_ends hkt ht hcalls.2 (hgiven.and hcost)).ok
  refine ⟨turn, k', { regs with rax := resultWord (res.map fun _ => 0) }, res,
    (run_of_trap hcalls.1).trans hok, ?_, hrip, ?_, hgiven, hcost⟩
  · rw [hanswered, ProcessTable.modify_eq _ hkt.current, hcurrent, hprocs]
  · rw [(syscall_keepsClock regs _ _ _ hok).2, hcount]

/-- **The process asks for the next page.** It gets the page unless there is none. -/
theorem Asked.succ (h : Asked k t i) (hi : i < 128) :
    k.frames.freePages = 0 ∨ ∃ k', Asked k' t (i + 1) := by
  obtain ⟨turn, k', regs, res, hrun, hprocs, hrip, hcount, hgiven, hend⟩ := h.answered hi
  obtain ⟨-, hnone⟩ | ⟨rfl, hpages⟩ := hend
  · exact .inl hnone
  obtain ⟨v, hv⟩ : ∃ v, v = userFirst + (i + 1) := ⟨_, rfl⟩
  rw [← hv] at hgiven
  have hpage : (VirtAddr.ofPage v).val.toNat / pageSize = v := by
    rw [show (VirtAddr.ofPage v).val.toNat = v * pageSize from
      VirtAddr.toNat_ofPage (by rw [hv, userFirst_eq]; omega), Nat.mul_div_cancel v (by decide)]
  obtain ⟨-, d, hd, hmapped⟩ := hgiven.granted rfl
  have hother : ∀ w, w ≠ v → k'.frames.memory.mapped t.root.number w =
      k.frames.memory.mapped t.root.number w := fun w hne =>
    hgiven.mapped (hpage.symm ▸ hne)
  have hslot : k'.procs.slot 1 = { k.procs.slot 1 with regs } := by
    rw [hprocs, ProcessTable.slot_set (by decide), if_pos rfl]
  obtain ⟨t', ht', htext⟩ := h.place.text
  obtain rfl : t' = t := Option.some.inj (ht'.symm.trans h.table?)
  have htext' : k'.frames.memory.HasText t'.root.number userFirst _ :=
    htext.congr (hother _ (by omega)) fun e he _ =>
      hgiven.byte userFirst e (by rw [hpage]; omega) he
  refine .inr ⟨k', h.reachable.call (.run hrun), h.place.moved ht' hslot hrip htext', ?_, hcount,
    ?_, ?_, fun w hw hlt => ?_, fun w hw hle => ?_⟩
  · rw [ProcessTable.table?_eq, hslot, ← ProcessTable.table?_eq, ht']
  · rw [hprocs, ProcessTable.state_set (by decide), if_neg (by decide)]
    exact h.free
  · have hle := h.freePages
    omega
  · rw [hother w (by omega)]
    exact h.unmapped w (by omega) hlt
  · rcases Nat.lt_or_eq_of_le hle with hlt | rfl
    · rw [hother w (by omega)]
      exact h.granted w hw (by omega)
    · exact ⟨d, hd, by rw [hmapped, hpage, ← hv, Function.update_self]⟩

/-- The process asks on until it has 128 pages or there is none. -/
theorem exists_asked : ∀ i ≤ 128, ∃ k t j, Asked k t j ∧ (j = i ∨ k.frames.freePages = 0)
  | 0, _ => by
    obtain ⟨k, t, h⟩ := boot_askForPages
    exact ⟨k, t, 0, h, .inl rfl⟩
  | i + 1, hi => by
    obtain ⟨k, t, j, h, rfl | hnone⟩ := exists_asked i (Nat.le_of_succ_le hi)
    · obtain hnone | ⟨k', h'⟩ := h.succ hi
      · exact ⟨k, t, j, h, .inr hnone⟩
      · exact ⟨k', t, j + 1, h', .inl rfl⟩
    · exact ⟨k, t, j, h, .inr hnone⟩

/-- A child needs a copy of each of the pages, and a table. -/
theorem Asked.lt_forkCost (h : Asked k t i) : i < forkCost t k.frames.memory := by
  have hcopies : (List.range' (userFirst + 1) i).length ≤ _ :=
    le_countP_copied (t := t) (m := k.frames.memory) List.nodup_range' fun v hv => by
      obtain ⟨hlow, hlt⟩ := List.mem_range'_1.mp hv
      have hfew := h.freePages
      obtain ⟨c, hc, hm⟩ := h.granted v hlow (by omega)
      refine ⟨_, hm, (isCopiedLeaf_iff (by rw [userFirst_eq] at hlt; omega)
        (Entry.present_link hc _)).mpr (.inl ?_)⟩
      rw [Entry.writable_link hc, Entry.user_link hc]
      exact ⟨rfl, rfl⟩
  rw [List.length_range'] at hcopies
  have htables : 1 ≤ (k.frames.memory.tablesBelow 3 t.root.number).length := Nat.succ_pos _
  unfold forkCost
  omega

/-- **There is a time at which fewer pages are free than a fork takes.** -/
theorem exists_few_free : ∃ k t, Reachable (textLoader askForPages) k ∧
    k.procs.table? 1 = some t ∧ k.procs.state 5 = .free ∧
    k.frames.freePages < forkCost t k.frames.memory := by
  obtain ⟨k, t, j, h, hend⟩ := exists_asked 128 le_rfl
  have hcost := h.lt_forkCost
  have hle := h.freePages
  refine ⟨k, t, h.reachable, h.table?, h.free, ?_⟩
  rcases hend with rfl | hnone
  · omega
  · omega

end Kernel
end PagedKernel
