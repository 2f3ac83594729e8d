import Mathlib.Data.Set.Basic
import PagedKernel.Proofs.Spaces.Planting

/-!
# Separate page tables

Which pages hold the tables of some page tables can be read off the memory, beginning with their
roots (`Memory.TableAt`). If there is one reference to each of these pages and none of them is in
two places, then the tables are planted, with the places as their shape. The other references, and
what the leaves point to, do not matter.

Key definitions: `Memory.TableAt`, `Frames.Separate`, `PlantedAt`.
Key theorems: `Frames.Separate.planted`, `PlantedAt.separate`.
-/

namespace PagedKernel

variable {n : Nat} {f : Frames n} {g g' : Shape} {tables : Set PageTable}

/-! ### The tables of page tables -/

/-- Page number `q` holds the table of place `p` of one of the page tables: the root, or a table
that an entry of an inner table points to. -/
inductive Memory.TableAt (m : Memory n) (tables : Set PageTable) : Nat → Place → Prop
  | root {t : PageTable} (ht : t ∈ tables) :
      TableAt m tables t.root.number ⟨t.root.number, 3, 0⟩
  | child {q r l i s c : Nat} (hq : TableAt m tables q ⟨r, l + 1, i⟩) (hs : s < 512)
      (hc : (m.slot q s).page? = some c) : TableAt m tables c ⟨r, l, 512 * i + s⟩

def Memory.HoldsTable (m : Memory n) (tables : Set PageTable) (q : Nat) : Prop :=
  ∃ p, m.TableAt tables q p

/-- All tables are in pages that there are, each in one of its own and referred to once. -/
structure Frames.Separate (f : Frames n) (tables : Set PageTable) : Prop where
  installed : ∀ {q p}, f.memory.TableAt tables q p → q < n
  count : ∀ {q p}, f.memory.TableAt tables q p → f.count q = 1
  distinct : ∀ {q p p'}, f.memory.TableAt tables q p → f.memory.TableAt tables q p' → p' = p

namespace Memory.TableAt

variable {m : Memory n} {q r l i : Nat} {p : Place}

theorem level_le (h : m.TableAt tables q p) : p.level ≤ 3 := by
  induction h with
  | root ht => exact le_rfl
  | child hq hs hc ih => exact Nat.le_of_lt ih

theorem mono {tables' : Set PageTable} (h : m.TableAt tables q p) (hsub : tables ⊆ tables') :
    m.TableAt tables' q p := by
  induction h with
  | root ht => exact .root (hsub ht)
  | child _ hs hc ih => exact .child ih hs hc

theorem top (h : m.TableAt tables q ⟨r, 3, i⟩) : q = r ∧ i = 0 ∧ ⟨⟨r⟩⟩ ∈ tables := by
  cases h with
  | root ht => exact ⟨rfl, rfl, ht⟩
  | child hq hs hc => exact absurd hq.level_le (Nat.not_succ_le_self 3)

theorem parent (h : m.TableAt tables q ⟨r, l, i⟩) (hl : l < 3) :
    ∃ q', m.TableAt tables q' ⟨r, l + 1, i / 512⟩ ∧ (m.slot q' (i % 512)).page? = some q := by
  cases h with
  | root ht => exact absurd hl (lt_irrefl 3)
  | @child q' r l i s c hq hs hc =>
    refine ⟨q', ?_, ?_⟩
    · rwa [show (512 * i + s) / 512 = i by omega]
    · rwa [show (512 * i + s) % 512 = s by omega]

end Memory.TableAt

open Classical in
/-- The shape of the page tables. -/
noncomputable def Memory.shape (m : Memory n) (tables : Set PageTable) : Shape :=
  fun q => if h : ∃ p, m.TableAt tables q p then some h.choose else none

namespace Memory

variable {m : Memory n} {q : Nat} {p : Place}

theorem shape_iff
    (hd : ∀ {q p p'}, m.TableAt tables q p → m.TableAt tables q p' → p' = p) :
    m.shape tables q = some p ↔ m.TableAt tables q p := by
  unfold Memory.shape
  by_cases hq : ∃ p, m.TableAt tables q p
  · rw [dif_pos hq, Option.some.injEq]
    constructor
    · rintro rfl
      exact hq.choose_spec
    · exact fun hp => hd hp hq.choose_spec
  · rw [dif_neg hq]
    exact iff_of_false nofun fun hp => hq ⟨p, hp⟩

theorem isRoot_shape
    (hd : ∀ {q p p'}, m.TableAt tables q p → m.TableAt tables q p' → p' = p) {r : Nat} :
    (m.shape tables).IsRoot r ↔ ⟨⟨r⟩⟩ ∈ tables := by
  unfold Shape.IsRoot
  rw [shape_iff hd]
  exact ⟨fun hr => hr.top.2.2, fun hr => TableAt.root hr⟩

/-- Tables in pages that there are, each in one of its own, are trees. -/
theorem trees_shape (hn : ∀ {q p}, m.TableAt tables q p → q < n)
    (hd : ∀ {q p p'}, m.TableAt tables q p → m.TableAt tables q p' → p' = p) :
    (m.shape tables).Trees m where
  installed hq := hn ((shape_iff hd).mp hq)
  level_le hq := ((shape_iff hd).mp hq).level_le
  top hq := ⟨((shape_iff hd).mp hq).top.1, ((shape_iff hd).mp hq).top.2.1⟩
  child hq hs hc := (shape_iff hd).mpr (.child ((shape_iff hd).mp hq) hs hc)
  parent := by
    intro q r l i hq hl
    obtain ⟨q', hq', hc⟩ := ((shape_iff hd).mp hq).parent hl
    exact ⟨q', (shape_iff hd).mpr hq', hc⟩

end Memory

/-- The tables of trees are those of the roots. -/
theorem Shape.Trees.tableAt_iff {m : Memory n} (h : g.Trees m)
    (hroot : ∀ {r}, g.IsRoot r ↔ ⟨⟨r⟩⟩ ∈ tables) {q : Nat} {p : Place} :
    m.TableAt tables q p ↔ g q = some p := by
  constructor
  · intro hq
    induction hq with
    | root ht => exact hroot.mpr ht
    | child hq hs hc ih => exact h.child ih hs hc
  · -- on the number of levels above the table
    have key : ∀ k q r l i, l + k = 3 → g q = some ⟨r, l, i⟩ → m.TableAt tables q ⟨r, l, i⟩ := by
      intro k
      induction k with
      | zero =>
        intro q r l i hl hq
        obtain rfl : l = 3 := hl
        obtain ⟨rfl, rfl⟩ := h.top hq
        exact .root (t := ⟨⟨q⟩⟩) (hroot.mp hq)
      | succ k ih =>
        intro q r l i hl hq
        obtain ⟨q', hq', hc⟩ := h.parent hq (by omega)
        have hchild := Memory.TableAt.child (ih q' r (l + 1) (i / 512) (by omega) hq')
          (mod_slots_lt i) hc
        rwa [Nat.div_add_mod] at hchild
    intro hq
    have hl : p.level ≤ 3 := h.level_le hq
    exact key (3 - p.level) q p.root p.level p.index (by omega) hq

/-- The page tables of `tables` are those that `g` has planted in `f`. -/
structure PlantedAt (tables : Set PageTable) (g : Shape) (f : Frames n) : Prop
    extends Planted g f where
  isRoot : ∀ {r}, g.IsRoot r ↔ ⟨⟨r⟩⟩ ∈ tables

/-- Separate page tables are planted. -/
theorem Frames.Separate.planted (h : f.Separate tables) :
    PlantedAt tables (f.memory.shape tables) f where
  trees := Memory.trees_shape h.installed h.distinct
  count hq := h.count ((Memory.shape_iff h.distinct).mp hq)
  isRoot := Memory.isRoot_shape h.distinct

namespace PlantedAt

variable {f' : Frames n} {q : Nat} {p : Place}

theorem tableAt_iff (h : PlantedAt tables g f) :
    f.memory.TableAt tables q p ↔ g q = some p :=
  h.trees.tableAt_iff h.isRoot

theorem holdsTable (h : PlantedAt tables g f) : f.memory.HoldsTable tables = (g · ≠ none) := by
  funext q
  unfold Memory.HoldsTable
  simp only [h.tableAt_iff, ← Option.ne_none_iff_exists']

theorem separate (h : PlantedAt tables g f) : f.Separate tables where
  installed hq := h.trees.installed (h.tableAt_iff.mp hq)
  count hq := h.count (h.tableAt_iff.mp hq)
  distinct hq hq' := by
    rw [h.tableAt_iff] at hq hq'
    rw [hq] at hq'
    exact (Option.some.inj hq').symm

theorem replanted {M : Nat → Nat → Option Entry} (h : PlantedAt tables g f)
    (h' : Replanted g M g' f') : PlantedAt tables g' f' :=
  ⟨h'.planted, h'.isRoot.trans h.isRoot⟩

end PlantedAt

end PagedKernel
