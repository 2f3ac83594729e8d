import PagedKernel.AddressSpace.Cursor
import PagedKernel.Proofs.Kernel.Safety

/-!
# What a fetch needs

An access that the memory management unit grants is granted by the permission of the address over
all levels too, as far as reading, writing and user mode go. Execution is different: the unit grants
a fetch wherever it grants a read, whatever the entries on the way say of execution. So a process
may execute its own stack.

Key theorems: `Memory.locate_execute`, `Memory.permission_of_locate`, `Core.fetch_eq_read`.
-/

namespace PagedKernel

variable {n : Nat}

/-- **A fetch needs no more than a read does**, and it fails in the same way. -/
theorem Memory.locate_execute (m : Memory n) (root : PhysAddr) (va : VirtAddr) (user : Bool) :
    m.locate root va .execute user = m.locate root va .read user := rfl

theorem Core.readBytes_execute (c : Core n) : ∀ (k : Nat) (addr : UInt64),
    c.readBytes .execute addr k = c.readBytes .read addr k
  | 0, _ => rfl
  | k + 1, addr => by
    simp only [readBytes, locate, Memory.locate_execute, c.readBytes_execute k (addr + 1)]

/-- **What is fetched** is whatever the program could read there. -/
theorem Core.fetch_eq_read (c : Core n) :
    c.fetch = (do
      match Instruction.decode (← c.readBytes .read c.regs.rip instructionSize) with
      | some i => return i
      | none => throw .undefined) := by
  have hbytes := c.readBytes_execute instructionSize c.regs.rip
  exact congrArg (· >>= fun bytes => match Instruction.decode bytes with
    | some i => pure i
    | none => throw .undefined) hbytes

theorem Memory.permissionBelow_of_resolve {m : Memory n} {va : VirtAddr} :
    ∀ {k : Nat} {r r' : Reached} (execute : Bool), m.resolve va k r = .ok (some r') →
      ∃ execute', m.permissionBelow va k r.base ⟨true, r.writable, execute, r.user⟩ =
        .ok ⟨true, r'.writable, execute', r'.user⟩
  | 0, _, _, execute, h => by
    cases h
    exact ⟨execute, rfl⟩
  | k + 1, r, r', execute, h => by
    rw [resolve] at h
    rw [permissionBelow]
    cases he : m.readEntry r.base (va.index k) with
    | error e =>
      rw [he] at h
      cases h
    | ok e =>
      rw [he] at h
      dsimp only [bind, Except.bind] at h ⊢
      cases ha : e.addr? with
      | none =>
        rw [ha] at h
        cases h
      | some next =>
        rw [ha] at h
        dsimp only at h ⊢
        by_cases hlarge : e.large = true
        · rw [if_pos hlarge] at h
          cases h
        · rw [if_neg hlarge] at h
          exact permissionBelow_of_resolve (execute && !e.noExecute) h

/-- **What the unit grants, the permission grants**, but for execution: whatever access the unit
grants, it grants a fetch too. -/
theorem Memory.permission_of_locate {m : Memory n} {root : PhysAddr} {va : VirtAddr}
    {access : Access} {user : Bool} {pa : PhysAddr}
    (h : m.locate root va access user = .ok (.ok pa)) :
    m.locate root va .execute user = .ok (.ok pa) ∧
      ∃ perm, (Cursor.mk root va).permission m = .ok perm ∧ perm.read = true ∧
        (access = .write → perm.write = true) ∧ (user = true → perm.user = true) := by
  unfold locate at h ⊢
  cases hr : m.resolve va levels ⟨root, true, true⟩ with
  | error e =>
    rw [hr] at h
    cases h
  | ok found =>
    rw [hr] at h
    dsimp only [bind, Except.bind] at h ⊢
    cases found with
    | none => cases h
    | some r =>
      dsimp only at h ⊢
      split at h
      · cases h
      · next hallowed =>
        cases h
        obtain ⟨execute, hperm⟩ := permissionBelow_of_resolve true hr
        rw [Bool.or_eq_true, not_or, Bool.and_eq_true, Bool.and_eq_true, not_and, not_and,
          Bool.not_eq_true', Bool.not_eq_true', Bool.not_eq_false, Bool.not_eq_false,
          decide_eq_true_eq] at hallowed
        refine ⟨?_, _, hperm, rfl, hallowed.1, hallowed.2⟩
        by_cases huser : user = true
        · rw [huser, hallowed.2 huser]
          rfl
        · rw [Bool.not_eq_true] at huser
          rw [huser]
          rfl

namespace Kernel

/-- The unit grants a process every access to its stack, where the permission is that of data. -/
theorem boot_stack : ∃ k t pa, boot bareLoader (some "idle") = .ok k ∧
    k.procs.table? 1 = some t ∧
    (∀ access, k.frames.memory.locate t.pa (.ofPage (stackPage / pageSize)) access true =
      .ok (.ok pa)) ∧
    (t.cursor (.ofPage (stackPage / pageSize))).permission k.frames.memory = .ok .userData := by
  obtain ⟨k, hboot, -, ⟨t, ht, c, hc, -, hm⟩, -⟩ := boot_bare
  have hreach : Reachable bareLoader k := .boot hboot
  obtain ⟨g, hg⟩ := hreach.sound.userland
  have hr := hg.owns.isRoot ht
  have hpage : (VirtAddr.ofPage (stackPage / pageSize)).page = stackPage / pageSize :=
    VirtAddr.page_ofPage (by decide)
  refine ⟨k, t, (pageAt c).inPage (VirtAddr.ofPage (stackPage / pageSize)).pageOffset, hboot, ht,
    fun access => ?_, ?_⟩
  · have hlocate := hg.accounted.fits.locate_eq hg.spaces.linked
      (.ofPage (stackPage / pageSize)) hr access true
    rw [hpage, hm, ← FrameRef.pa_eq_pageAt] at hlocate
    dsimp only at hlocate
    rw [Entry.large_link hc, Entry.writable_link hc, Entry.user_link hc,
      Entry.addr_link hc] at hlocate
    refine hlocate.trans ?_
    simp [Permission.toFlags, Flags.empty, Permission.userData]
  · have hperm := hg.accounted.fits.permission_eq hg.spaces.linked
      (.ofPage (stackPage / pageSize)) hr
    rw [hpage, hm, Option.map_some, Option.getD_some, Entry.flags_link hc,
      Permission.ofFlags_toFlags] at hperm
    exact hperm

theorem permission_of_locate_stack : ∃ k t pa perm, boot bareLoader (some "idle") = .ok k ∧
    k.procs.table? 1 = some t ∧
    k.frames.memory.locate t.pa (.ofPage (stackPage / pageSize)) .write true = .ok (.ok pa) ∧
    k.frames.memory.locate t.pa (.ofPage (stackPage / pageSize)) .execute true = .ok (.ok pa) ∧
    (t.cursor (.ofPage (stackPage / pageSize))).permission k.frames.memory = .ok perm ∧
    perm.write = true := by
  obtain ⟨k, t, pa, hboot, ht, hlocate, -⟩ := boot_stack
  obtain ⟨hfetch, perm, hperm, -, hwrite, -⟩ := Memory.permission_of_locate (hlocate .write)
  exact ⟨k, t, pa, perm, hboot, ht, hlocate .write, hfetch, hperm, hwrite rfl⟩

/-- The unit lets the program of a process execute its stack, though no entry of the stack allows
that. -/
theorem stack_executable : ∃ k t pa perm, boot bareLoader (some "idle") = .ok k ∧
    k.procs.table? 1 = some t ∧
    k.frames.memory.locate t.pa (.ofPage (stackPage / pageSize)) .execute true = .ok (.ok pa) ∧
    (t.cursor (.ofPage (stackPage / pageSize))).permission k.frames.memory = .ok perm ∧
    perm.execute = false := by
  obtain ⟨k, t, pa, hboot, ht, hlocate, hperm⟩ := boot_stack
  exact ⟨k, t, pa, _, hboot, ht, hlocate .execute, hperm, rfl⟩

end Kernel

end PagedKernel
