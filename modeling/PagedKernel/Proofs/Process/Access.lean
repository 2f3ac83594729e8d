import PagedKernel.Proofs.Process.Userland

/-!
# What a process can access

In a sound userland what a process maps for the user is the console at its address, or a page that
was handed out, in the user region or in place of the console. Neither holds a table. A page that it
can write is mapped nowhere else, so its count is one; the console's own page alone is mapped by
many, but at one address only.

Key theorems: `Userland.Sound.user_leaf`, `Userland.Sound.sole`, `Userland.Sound.console_page`,
`Accounted.count_sole`.
-/

namespace PagedKernel

variable {n : Nat} {g : Shape} {r v : Nat} {e : Entry}

/-! ### Addresses -/

def InConsole (addr : Nat) : Prop :=
  consoleAddr ≤ addr ∧ addr < consoleAddr + pageSize

theorem inConsole_iff {addr : Nat} : InConsole addr ↔ addr / pageSize = consolePage := by
  unfold InConsole consoleAddr pageSize
  rw [consolePage_eq]
  omega

theorem VirtAddr.toNat_div {a : UInt64} {va : VirtAddr} (hva : VirtAddr.ofWord? a = some va)
    (hlow : va.page < userPast) : va.toNat / pageSize = va.page := by
  unfold VirtAddr.ofWord? at hva
  split at hva
  · next hcanonical =>
    cases hva
    have hword := a.toNat_lt
    unfold VirtAddr.page pagesPerSpace VirtAddr.toNat pageSize UInt64.size at *
    rw [userPast_eq] at hlow
    dsimp only at *
    omega
  · cases hva

/-! ### Leaves -/

theorem Shape.Sole.leafRefs {m : Memory n} (h : g.Sole m r v e) (hf : g.Fits m)
    (hmaps : g.Maps m r v e) : g.leafRefs m e.addr.pageNumber = 1 := by
  obtain ⟨q, hq, heq, hp⟩ := (hf.mapped_iff hmaps.1).mp hmaps.2
  have hpage := hf.mapped_page? hmaps.1 hmaps.2
  refine Finset.card_eq_one.mpr ⟨(q, v % 512), Finset.eq_singleton_iff_unique_mem.mpr ⟨?_, ?_⟩⟩
  · refine Shape.mem_leafSlots.mpr ⟨hf.installed hq, mod_slots_lt v,
      Shape.isLeafTable_iff.mpr ⟨r, _, hq⟩, ?_⟩
    rwa [heq]
  · rintro ⟨q1, s1⟩ hmem
    obtain ⟨-, hs1, hleaf, hp1⟩ := Shape.mem_leafSlots.mp hmem
    obtain ⟨r1, i1, hq1⟩ := Shape.isLeafTable_iff.mp hleaf
    have hm1 := hf.mapped_of_slot hq1 hs1 (Entry.present_of_page? hp1)
    have hr1 := hf.isRoot hq1
    have haddr : (m.slot q1 s1).addr = e.addr := by
      rw [hf.mapped_page? hr1 hm1, Option.some.injEq] at hp1
      rw [(m.slot q1 s1).addr_eq_pageAt, hp1, ← e.addr_eq_pageAt]
    obtain ⟨rfl, hv⟩ := h ⟨hr1, hm1⟩ haddr
    obtain rfl : s1 = v % 512 := by omega
    obtain rfl : i1 = v / 512 := by omega
    rw [hf.injective hq1 hq]

/-- **The count of a page that one leaf alone points to** is one. -/
theorem Accounted.count_sole {f : Frames n} (h : Accounted g [] f) (hsole : g.Sole f.memory r v e)
    (hmaps : g.Maps f.memory r v e) : f.count e.addr.pageNumber = 1 := by
  obtain ⟨hnone, hlt⟩ := h.fits.mapped_target hmaps.1 hmaps.2
  rw [h.count _ hlt, hnone, hsole.leafRefs h.fits hmaps]
  rfl

namespace Userland.Sound

variable {kernel : PageTable} {s : Userland n}

/-- **What the user can access in a process** is the console, or a page that was handed out. -/
theorem user_leaf (h : Sound kernel g s) (hmaps : g.Maps s.frames.memory r v e)
    (hr : r ≠ kernel.root.number) (hu : e.user = true) :
    (v = consolePage ∧ e.addr.pageNumber = consolePage) ∨
      (Allocatable e.addr.pageNumber ∧ (v = consolePage ∨ userFirst ≤ v ∧ v < userPast)) := by
  obtain ⟨c, perm, hc, rfl, hleaf⟩ := h.spaces.leaf hr hmaps
  rw [Entry.user_link hc] at hu
  rw [Entry.addr_link hc, pageAt_pageNumber (by omega)]
  cases hleaf with
  | kernel _ _ _ => cases hu
  | console hor =>
    rcases hor with rfl | hall
    · exact .inl ⟨rfl, rfl⟩
    · exact .inr ⟨hall, .inl rfl⟩
  | user hfirst hpast _ hall => exact .inr ⟨hall, .inr ⟨hfirst, hpast⟩⟩

/-- **A page that a user can write** has one mapping, but for the console. -/
theorem sole (h : Sound kernel g s) (hmaps : g.Maps s.frames.memory r v e)
    (hw : e.writable = true) (hu : e.user = true) (hc : e.addr.pageNumber ≠ consolePage) :
    g.Sole s.frames.memory r v e := by
  intro r' v' e' hmaps' haddr
  refine h.spaces.isPrivate hmaps hmaps' hw hu haddr fun hconsole => hc ?_
  rw [hconsole, pageAt_pageNumber (by decide)]

/-- **The page of the console** is mapped at its own address only. -/
theorem console_page (h : Sound kernel g s) (hmaps : g.Maps s.frames.memory r v e)
    (hc : e.addr.pageNumber = consolePage) : v = consolePage := by
  have hallowed : v = consolePage ∨ LeafAllowed v e := by
    by_cases hr : r = kernel.root.number
    · subst hr
      have hm := hmaps.2
      rw [h.spaces.kernelMapped] at hm
      exact .inr (LeafAllowed.of_kernelLeaf hm).2.2.2
    · exact .inr (h.spaces.leaf hr hmaps)
  rcases hallowed with hv | ⟨c, perm, hlt, rfl, hleaf⟩
  · exact hv
  · rw [Entry.addr_link hlt, pageAt_pageNumber (by omega)] at hc
    subst hc
    generalize hconsole : consolePage = c at hleaf ⊢
    cases hleaf with
    | kernel _ _ _ => rfl
    | console _ => exact hconsole
    | user _ _ _ hall => exact absurd (allocatable_iff.mp hall) (hconsole ▸ by decide)

end Userland.Sound

end PagedKernel
