import PagedKernel.Proofs.Spaces.Listing

/-!
# Spaces that are left alone

Two memories have the same space at a root if all its tables have the same slots. Then all that can
be read off the tables is the same: which tables there are, what is mapped and what is listed.

Key definitions: `Memory.SameBelow`, `Memory.SameSpace`.
Key theorems: `Memory.SameBelow.tablesBelow`, `Memory.SameSpace.mapped`, `Kept.sameSpace`.
-/

namespace PagedKernel

variable {n : Nat} {g g' : Shape} {m m' m'' : Memory n} {f f' : Frames n} {held : List Nat}

namespace Memory

/-- The table of level `l` in page `q` and all tables below it have the same slots in `m'` as in
`m`. -/
def SameBelow (l q : Nat) (m m' : Memory n) : Prop :=
  ∀ c ∈ m.tablesBelow l q, ∀ s < 512, m'.slot c s = m.slot c s

/-- All tables of the space with root `r` have the same slots in `m'` as in `m`. -/
def SameSpace (r : Nat) (m m' : Memory n) : Prop :=
  SameBelow 3 r m m'

namespace SameBelow

variable {l q : Nat}

theorem self (h : SameBelow l q m m') {s : Nat} (hs : s < 512) : m'.slot q s = m.slot q s :=
  h q (m.mem_tablesBelow_self l q) s hs

theorem child (h : SameBelow (l + 1) q m m') {s c : Nat} (hs : s < 512)
    (hc : (m.slot q s).page? = some c) : SameBelow l c m m' :=
  fun c' hc' => h c' (tablesBelow_child hs hc hc')

theorem tablesBelow (h : SameBelow l q m m') : m'.tablesBelow l q = m.tablesBelow l q := by
  induction l generalizing q with
  | zero => rw [Memory.tablesBelow, Memory.tablesBelow]
  | succ l ih =>
    rw [Memory.tablesBelow, Memory.tablesBelow]
    refine congrArg (List.cons q) (List.flatMap_congr fun s hs => ?_)
    have hs := mem_tableSlots.mp hs
    rw [h.self hs]
    cases hc : (m.slot q s).page? with
    | none => rfl
    | some c => exact ih (h.child hs hc)

theorem leavesBelow {i : Nat} (h : SameBelow l q m m') :
    m'.leavesBelow l q i = m.leavesBelow l q i := by
  induction l generalizing q i with
  | zero =>
    rw [Memory.leavesBelow, Memory.leavesBelow]
    exact List.filterMap_congr fun s hs => by rw [h.self (mem_tableSlots.mp hs)]
  | succ l ih =>
    rw [Memory.leavesBelow, Memory.leavesBelow]
    refine List.flatMap_congr fun s hs => ?_
    have hs := mem_tableSlots.mp hs
    rw [h.self hs]
    cases hc : (m.slot q s).page? with
    | none => rfl
    | some c => exact ih (h.child hs hc)

theorem reach {v : Nat} (h : SameBelow l q m m') : m'.reach v l q = m.reach v l q := by
  induction l generalizing q with
  | zero => rfl
  | succ l ih =>
    have hs := mod_slots_lt (v / 512 ^ (l + 1))
    rw [Memory.reach, Memory.reach, h.self hs]
    cases hc : (m.slot q (v / 512 ^ (l + 1) % 512)).page? with
    | none => rfl
    | some c => exact ih (h.child hs hc)

theorem tableUnder {v : Nat} (h : SameBelow l q m m') :
    m'.tableUnder v l q = m.tableUnder v l q := by
  induction l generalizing q with
  | zero => rw [Memory.tableUnder, Memory.tableUnder]
  | succ l ih =>
    have hs := mod_slots_lt (v / 512 ^ (l + 1))
    rw [Memory.tableUnder, Memory.tableUnder, h.self hs]
    cases hc : (m.slot q (v / 512 ^ (l + 1) % 512)).page? with
    | none => rw [Option.bind_none, Option.bind_none]
    | some c => rw [Option.bind_some, Option.bind_some, ih (h.child hs hc)]

theorem slot_tableUnder {v c s : Nat} (h : SameBelow l q m m') (hc : m.tableUnder v l q = some c)
    (hs : s < 512) : m'.slot c s = m.slot c s := by
  induction l generalizing q with
  | zero =>
    rw [Memory.tableUnder, Option.some.injEq] at hc
    exact hc ▸ h.self hs
  | succ l ih =>
    rw [Memory.tableUnder, Option.bind_eq_some_iff] at hc
    obtain ⟨d, hd, hc⟩ := hc
    exact ih (h.child (mod_slots_lt _) hd) hc

end SameBelow

namespace SameSpace

variable {r : Nat}

theorem refl (r : Nat) (m : Memory n) : SameSpace r m m :=
  fun _ _ _ _ => rfl

theorem tablesBelow (h : SameSpace r m m') : m'.tablesBelow 3 r = m.tablesBelow 3 r :=
  SameBelow.tablesBelow h

theorem trans (h : SameSpace r m m') (h' : SameSpace r m' m'') : SameSpace r m m'' :=
  fun q hq s hs => (h' q (h.tablesBelow.symm ▸ hq) s hs).trans (h q hq s hs)

/-- A space whose tables have the same slots maps the same. -/
theorem mapped (h : SameSpace r m m') : m'.mapped r = m.mapped r := by
  funext v
  unfold Memory.mapped
  rw [SameBelow.tableUnder h]
  cases hc : m.tableUnder v 3 r with
  | none => rw [Option.bind_none, Option.bind_none]
  | some c =>
    rw [Option.bind_some, Option.bind_some, SameBelow.slot_tableUnder h hc (mod_slots_lt v)]

theorem leaves {t : PageTable} (h : SameSpace t.root.number m m') : t.leaves m' = t.leaves m :=
  SameBelow.leavesBelow h

theorem references {t : PageTable} (h : SameSpace t.root.number m m') :
    t.references m' = t.references m := by
  unfold PageTable.references
  rw [h.tablesBelow, h.leaves]

theorem walk [Addressable n] {t : PageTable} (h : SameSpace t.root.number m m') (hf : g.Fits m)
    (hf' : g'.Fits m') (hr : g.IsRoot t.root.number) (hr' : g'.IsRoot t.root.number)
    (va : VirtAddr) :
    t.walk m' va = t.walk m va := by
  rw [hf'.walk_eq t va hr', hf.walk_eq t va hr, h.mapped]

theorem tableNumbers [Addressable n] {t : PageTable} (h : SameSpace t.root.number m m')
    (hf : g.Fits m) (hf' : g'.Fits m') (hr : g.IsRoot t.root.number)
    (hr' : g'.IsRoot t.root.number) : t.tableNumbers m' = t.tableNumbers m := by
  rw [hf'.tableNumbers_eq hr', hf.tableNumbers_eq hr, h.tablesBelow]

end SameSpace

end Memory

/-- A space that is not changed has the same tables. -/
theorem Kept.sameSpace {P : Nat → Prop} (h : Kept P g f g' f') (hf : g.Fits f.memory) {r : Nat}
    (hP : P r) (hr : g.IsRoot r) : Memory.SameSpace r f.memory f'.memory := by
  intro q hq s hs
  obtain ⟨l, i, hq⟩ := (hf.mem_tables hr).mp hq
  exact Memory.slot_congr hs fun a ha => h.table hP hq a ha

theorem Wrote.sameSpace {S : Nat → Prop} (h : Wrote S f f') (hS : ∀ q, S q → g q = none)
    (hf : g.Fits f.memory) {r : Nat} (hr : g.IsRoot r) : Memory.SameSpace r f.memory f'.memory := by
  intro q hq s hs
  obtain ⟨l, i, hq⟩ := (hf.mem_tables hr).mp hq
  exact Accounted.slot_congr (h.byte_table hS) q (hq ▸ Option.some_ne_none _) s hs

/-- All spaces stay as they are if the pages in use do. -/
theorem Accounted.sameSpace (h : Accounted g held f)
    (hb : ∀ a, f.count (a / pageSize) ≠ 0 → f'.memory.byte a = f.memory.byte a) {r : Nat}
    (hr : g.IsRoot r) : Memory.SameSpace r f.memory f'.memory :=
  (Kept.of_in_use (P := fun _ => True) h hb).sameSpace h.fits trivial hr

end PagedKernel
