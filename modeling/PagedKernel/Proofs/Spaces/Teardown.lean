import PagedKernel.Proofs.Spaces.Mapping

/-!
# Taking a page table apart

`PageTable.releaseTable` empties a table slot by slot: below an inner table it first empties the
table the slot points to, then takes that out and releases it. `Emptied` is what holds on the way,
and all that a loop over the slots of a table needs to know about what happens below it: the tables
at higher levels of the space stay as they are. Once the root is vacant the space has no other
table.

Key definitions: `Emptied`, `PageTable.releaseSlot`.
Key theorems: `PageTable.releaseTable_ends`, `PageTable.destroy_ends`.
-/

namespace PagedKernel

variable {n : Nat} {g : Shape} {held : List Nat} {f : Frames n} {E : Halt → Prop}

/-- The table of level `l` in page `q` of the space with root `r` has lost what its first `k` slots
pointed to, and nothing else has changed at this level or above, or in another space. -/
structure Emptied (r l q k : Nat) (g : Shape) (f : Frames n) (g' : Shape) (f' : Frames n) :
    Prop where
  kept : Kept (· ≠ r) g f g' f'
  table : g' q = g q
  done : ∀ s < k, s < 512 → (f'.memory.slot q s).page? = none
  todo : ∀ s, k ≤ s → s < 512 → f'.memory.slot q s = f.memory.slot q s
  above : ∀ {q1 l1 i1}, g q1 = some ⟨r, l1, i1⟩ → l < l1 →
    g' q1 = g q1 ∧ ∀ s < 512, f'.memory.slot q1 s = f.memory.slot q1 s

namespace Emptied

variable {r l q k : Nat} {g' : Shape} {f' : Frames n}

theorem refl (r l q : Nat) (g : Shape) (f : Frames n) : Emptied r l q 0 g f g f :=
  ⟨.refl _ _ _, rfl, fun _ h _ => absurd h (Nat.not_lt_zero _), fun _ _ _ => rfl,
    fun _ _ => ⟨rfl, fun _ _ => rfl⟩⟩

theorem vacant (h : Emptied r l q 512 g f g' f') : f'.memory.Vacant q :=
  fun s hs => h.done s hs hs

theorem skip (h : Emptied r l q k g f g' f') (hk : (f'.memory.slot q k).page? = none) :
    Emptied r l q (k + 1) g f g' f' where
  kept := h.kept
  table := h.table
  done s hs hs1 := by
    rcases Nat.lt_succ_iff_lt_or_eq.mp hs with hs | rfl
    · exact h.done s hs hs1
    · exact hk
  todo s hs hs1 := h.todo s (by omega) hs1
  above := h.above

/-- A slot has been emptied by changes that leave the other slots and the higher levels alone. -/
theorem next {g'' : Shape} {f'' : Frames n} (h : Emptied r l q k g f g' f')
    (hkept : Kept (· ≠ r) g' f' g'' f'') (htable : g'' q = g' q)
    (hdone : (f''.memory.slot q k).page? = none)
    (hrest : ∀ s < 512, s ≠ k → f''.memory.slot q s = f'.memory.slot q s)
    (habove : ∀ {q1 l1 i1}, g' q1 = some ⟨r, l1, i1⟩ → l < l1 →
      g'' q1 = g' q1 ∧ ∀ s < 512, f''.memory.slot q1 s = f'.memory.slot q1 s) :
    Emptied r l q (k + 1) g f g'' f'' where
  kept := h.kept.trans hkept
  table := htable.trans h.table
  done s hs hs1 := by
    by_cases hsk : s = k
    · rw [hsk]
      exact hdone
    · rw [hrest s hs1 hsk]
      exact h.done s (by omega) hs1
  todo s hs hs1 := by
    rw [hrest s hs1 (by omega), h.todo s (by omega) hs1]
  above hq hl := by
    obtain ⟨hg, hs⟩ := h.above hq hl
    obtain ⟨hg', hs'⟩ := habove (hg.trans hq) hl
    exact ⟨hg'.trans hg, fun s hs1 => (hs' s hs1).trans (hs s hs1)⟩

end Emptied

namespace PageTable

variable [Addressable n]

/-- One turn of a loop of `releaseTable`, which first does `below` to the table below. -/
def releaseSlot (below : PhysAddr → FramesM n Unit) (table : PhysAddr) (slot : Nat) :
    FramesM n Unit := do
  match (← Frames.readEntry table slot).frame? with
  | none => return ()
  | some page =>
    below page.pa
    Frames.writeEntry table slot .empty
    Frames.release page

omit [Addressable n] in
theorem releaseTable_zero (table : PhysAddr) :
    (releaseTable 0 table : FramesM n Unit) =
      (List.range' 0 512).forM (releaseSlot (fun _ => return ()) table) := by
  rw [← List.range_eq_range']
  rfl

omit [Addressable n] in
theorem releaseTable_succ (level : Nat) (table : PhysAddr) :
    (releaseTable (level + 1) table : FramesM n Unit) =
      (List.range' 0 512).forM (releaseSlot (releaseTable level) table) := by
  rw [← List.range_eq_range']
  rfl

/-- A slot of a table of leaves is emptied. -/
theorem releaseLeafSlot_ends {r q i k : Nat} {f1 : Frames n} (hq : g q = some ⟨r, 0, i⟩)
    (hk : k < 512) (h1 : Accounted g held f1) (he : Emptied r 0 q k g f g f1) :
    Ends (releaseSlot (fun _ => return ()) (pageAt q) k) f1 (fun _ f' => Accounted g held f' ∧
      Emptied r 0 q (k + 1) g f g f') E := by
  have hn := h1.fits.installed hq
  refine .step (Frames.readEntry_pageAt hn hk) ?_
  cases hp : (f1.memory.slot q k).page? with
  | none =>
    rw [Entry.frame?_of_page?_none hp]
    exact .pure ⟨h1, he.skip hp⟩
  | some c =>
    have hc := lt_trans (Entry.page?_lt hp) (by decide : (2 : Nat) ^ 40 < 2 ^ 52)
    rw [Entry.frame?_of_page? hp hc]
    have hset := h1.clearLeaf hq hk hp
    refine .step rfl (.step (Frames.writeEntry_pageAt hn hk) ?_)
    refine .release (hset.handle c List.mem_cons_self).1 (hset.count_handle List.mem_cons_self)
      ⟨hset.release _, ?_⟩
    refine he.next (.trans (.setLeaf h1.fits hq hk _) (.of_memory_eq hset.fits rfl)) rfl ?_
      (fun s hs hne => ?_) fun {q1 l1 i1} hq1 hl1 => ⟨rfl, fun s hs => ?_⟩
    · rw [Frames.memory_setCount, Frames.memory_setSlot, Memory.slot_setSlot_self hn hk]
      exact Entry.page?_empty
    · exact Memory.slot_setSlot_ne hk hs fun heq => hne heq.2
    · refine Memory.slot_setSlot_ne hk hs fun heq => ?_
      rw [heq.1, hq] at hq1
      cases hq1
      exact absurd hl1 (Nat.lt_irrefl _)

/-- A slot of an inner table is emptied, if what `below` does empties the table that it points to.
-/
theorem releaseInnerSlot_ends {below : PhysAddr → FramesM n Unit} {r l q i k : Nat} {g1 : Shape}
    {f1 : Frames n} (hq : g q = some ⟨r, l + 1, i⟩) (hk : k < 512) (h1 : Accounted g1 held f1)
    (he : Emptied r (l + 1) q k g f g1 f1)
    (hbelow : ∀ c, g1 c = some ⟨r, l, 512 * i + k⟩ → Ends (below (pageAt c)) f1 (fun _ f' =>
      ∃ g', Accounted g' held f' ∧ Emptied r l c 512 g1 f1 g' f') E) :
    Ends (releaseSlot below (pageAt q) k) f1 (fun _ f' => ∃ g', Accounted g' held f' ∧
      Emptied r (l + 1) q (k + 1) g f g' f') E := by
  have hq1 : g1 q = some ⟨r, l + 1, i⟩ := he.table.trans hq
  have hn := h1.fits.installed hq1
  refine .step (Frames.readEntry_pageAt hn hk) ?_
  cases hp : (f1.memory.slot q k).page? with
  | none =>
    rw [Entry.frame?_of_page?_none hp]
    exact .pure ⟨g1, h1, he.skip hp⟩
  | some c =>
    have hc := lt_trans (Entry.page?_lt hp) (by decide : (2 : Nat) ^ 40 < 2 ^ 52)
    rw [Entry.frame?_of_page? hp hc]
    have hchild := h1.fits.child hq1 hk hp
    refine .bind (hbelow c hchild) ?_
    intro _ f2 hpost
    obtain ⟨g2, h2, he2⟩ := hpost
    obtain ⟨htable, hslots⟩ := he2.above hq1 (Nat.lt_succ_self l)
    have hq2 : g2 q = some ⟨r, l + 1, i⟩ := htable.trans hq1
    have hc2 := he2.table.trans hchild
    have hout := h2.unhang hq2 hk hc2 he2.vacant Entry.page?_empty
    have hkept := Kept.unhang h2 hq2 hk hc2 he2.vacant Entry.page?_empty
    have hkeep : ∀ {q1 l1 i1 : Nat}, g2 q1 = some ⟨r, l1, i1⟩ → l < l1 →
        Function.update g2 c none q1 = g2 q1 := fun hq1 hl1 => by
      rw [Function.update_of_ne]
      intro hqc
      simp only [hqc, hc2, Option.some.injEq, Place.mk.injEq] at hq1
      omega
    refine .step (Frames.writeEntry_pageAt hn hk) ?_
    refine .release (hout.handle c List.mem_cons_self).1 (hout.count_handle List.mem_cons_self)
      ⟨_, hout.release _, ?_⟩
    refine he.next (he2.kept.trans (hkept.trans (.of_memory_eq hout.fits rfl))) ?_ ?_
      (fun s hs hne => ?_) fun {q3 l3 i3} hq3 hl3 => ?_
    · rw [hkeep hq2 (Nat.lt_succ_self l), htable]
    · rw [Frames.memory_setCount, Frames.memory_setSlot, Memory.slot_setSlot_self hn hk]
      exact Entry.page?_empty
    · rw [← hslots s hs]
      exact Memory.slot_setSlot_ne hk hs fun heq => hne heq.2
    · obtain ⟨hg3, hs3⟩ := he2.above hq3 (by omega)
      refine ⟨?_, fun s hs => ?_⟩
      · rw [hkeep (hg3.trans hq3) (by omega), hg3]
      · rw [← hs3 s hs]
        refine Memory.slot_setSlot_ne hk hs fun heq => ?_
        rw [heq.1, hq1, Option.some.injEq, Place.mk.injEq] at hq3
        omega

/-- A table is emptied, whatever its level. -/
theorem releaseTable_ends {r l : Nat} : ∀ {q i : Nat} {g : Shape} {f : Frames n},
    Accounted g held f → g q = some ⟨r, l, i⟩ →
    Ends (releaseTable l (pageAt q)) f (fun _ f' => ∃ g', Accounted g' held f' ∧
      Emptied r l q 512 g f g' f') E := by
  induction l with
  | zero =>
    intro q i g f h hq
    rw [releaseTable_zero]
    refine Ends.imp (.forM_range (I := fun k f' => Accounted g held f' ∧ Emptied r 0 q k g f g f')
      512 0 f ⟨h, .refl _ _ _ _ _⟩ fun k f1 hk hI => ?_) fun _ f' hI => ⟨g, hI⟩
    exact releaseLeafSlot_ends hq (Nat.zero_add 512 ▸ hk) hI.1 hI.2
  | succ l ih =>
    intro q i g f h hq
    rw [releaseTable_succ]
    refine .forM_range (I := fun k f' => ∃ g', Accounted g' held f' ∧
      Emptied r (l + 1) q k g f g' f') 512 0 f ⟨g, h, .refl _ _ _ _ _⟩ fun k f1 hk hI => ?_
    obtain ⟨g1, h1, he⟩ := hI
    exact releaseInnerSlot_ends hq (Nat.zero_add 512 ▸ hk) h1 he fun c hc => ih h1 hc

/-- **Destroying a page table** gives back all it holds, and changes no other space. -/
theorem destroy_ends {t : PageTable} (h : Accounted g held f) (hr : g.IsRoot t.root.number) :
    Ends t.destroy f (fun _ f' => ∃ g', Accounted g' held f' ∧
      Kept (· ≠ t.root.number) g f g' f' ∧ ¬ g'.IsRoot t.root.number) E := by
  unfold destroy
  rw [show levels - 1 = 3 from rfl, show t.pa = pageAt t.root.number from rfl]
  refine .bind (releaseTable_ends h hr) ?_
  intro _ f1 hpost
  obtain ⟨g1, h1, he⟩ := hpost
  have hr1 : g1.IsRoot t.root.number := he.table.trans hr
  have hout := h1.dropRoot hr1 he.vacant
  refine .release (hout.handle _ List.mem_cons_self).1 (hout.count_handle List.mem_cons_self)
    ⟨_, hout.release _, ?_, ?_⟩
  · exact he.kept.trans ((Kept.dropRoot hr1).trans (.of_memory_eq hout.fits rfl))
  · unfold Shape.IsRoot
    rw [Function.update_self]
    exact (Option.some_ne_none _).symm

end PageTable

end PagedKernel
