import Mathlib.Data.Nat.Basic
import PagedKernel.Proofs.Machine.Slots

/-!
# The shape of the page tables

A `Shape` says of each page which table of which address space it holds, if any. That it describes
the `Trees` of a memory is all that makes page tables trees that share nothing: an entry of an inner
table points to the table of its own place and every table below a root hangs in the slot of its
place. Since each page has one place at most, no two address spaces, and no two places of one, share
a table. It `Fits` the memory if a leaf never points to a table besides.

`Memory.mapped` is what an address space maps: the leaf of each page number of the space. A shape
tells where that leaf is kept (`Shape.Trees.mapped_iff`), so it does not change unless the slot of
the leaf does.

Key definitions: `Shape`, `Shape.Trees`, `Shape.Fits`, `Memory.mapped`.
Key theorems: `Shape.Trees.injective`, `Shape.Trees.tableUnder_iff`, `Shape.Trees.mapped_iff`.
-/

namespace PagedKernel

/-- The place of a table. -/
structure Place where
  /-- The page number of the root of the address space. -/
  root : Nat
  /-- The level of the table; that of the root is 3. -/
  level : Nat
  /-- The number of the table among those of its level, in the order of the addresses. -/
  index : Nat
deriving DecidableEq

/-- For each page, the place of the table it holds, if it holds one. -/
abbrev Shape := Nat → Option Place

/-- Page number `r` holds the root of an address space. -/
def Shape.IsRoot (g : Shape) (r : Nat) : Prop :=
  g r = some ⟨r, 3, 0⟩

/-- The page numbers of an address space are those below this one. -/
@[irreducible]
def pagesPerSpace : Nat := 512 ^ 4

/-- A page number lies in the slot of its own. -/
theorem slot_step (v l : Nat) : 512 * (v / 512 ^ (l + 1)) + v / 512 ^ l % 512 = v / 512 ^ l := by
  rw [Nat.pow_succ, ← Nat.div_div_eq_div_mul]
  exact Nat.div_add_mod _ _

namespace Memory

variable {n : Nat}

/-- The table for the leaf of page number `v` at or below the table of level `l` in page `q`, if no
level is missing. -/
def tableUnder (m : Memory n) (v : Nat) : Nat → Nat → Option Nat
  | 0, q => some q
  | l + 1, q => (m.slot q (v / 512 ^ (l + 1) % 512)).page?.bind (m.tableUnder v l)

/-- The leaf that maps page number `v` of the address space with root `r`, if there is one. -/
def mapped (m : Memory n) (r v : Nat) : Option Entry :=
  if v < pagesPerSpace then
    (m.tableUnder v 3 r).bind fun q =>
      if (m.slot q (v % 512)).present then some (m.slot q (v % 512)) else none
  else none

end Memory

variable {n : Nat} {g : Shape} {m m' : Memory n}

/-- The page tables in the memory `m` are those of the shape, and each of them hangs in its place.
-/
structure Shape.Trees (g : Shape) (m : Memory n) : Prop where
  installed : ∀ {q p}, g q = some p → q < n
  level_le : ∀ {q p}, g q = some p → p.level ≤ 3
  top : ∀ {q r i}, g q = some ⟨r, 3, i⟩ → q = r ∧ i = 0
  child : ∀ {q r l i s c}, g q = some ⟨r, l + 1, i⟩ → s < 512 → (m.slot q s).page? = some c →
    g c = some ⟨r, l, 512 * i + s⟩
  parent : ∀ {q r l i}, g q = some ⟨r, l, i⟩ → l < 3 →
    ∃ q', g q' = some ⟨r, l + 1, i / 512⟩ ∧ (m.slot q' (i % 512)).page? = some q

/-- The trees of the shape, every leaf of which points to an installed page that holds no table. -/
structure Shape.Fits (g : Shape) (m : Memory n) : Prop extends Shape.Trees g m where
  leaf : ∀ {q r i s c}, g q = some ⟨r, 0, i⟩ → s < 512 → (m.slot q s).page? = some c →
    g c = none ∧ c < n

namespace Shape.Trees

theorem congr (h : g.Trees m) (hs : ∀ q, g q ≠ none → ∀ s < 512, m'.slot q s = m.slot q s) :
    g.Trees m' where
  installed := h.installed
  level_le := h.level_le
  top := h.top
  child hq hlt hc := h.child hq hlt (hs _ (hq ▸ Option.some_ne_none _) _ hlt ▸ hc)
  parent hq hl := by
    obtain ⟨q', hq', hc⟩ := h.parent hq hl
    exact ⟨q', hq', by rwa [hs q' (hq' ▸ Option.some_ne_none _) _ (mod_slots_lt _)]⟩

/-- Above a table there is one of every level. -/
theorem ancestor (h : g.Trees m) {q r l i : Nat} (hq : g q = some ⟨r, l, i⟩) :
    ∀ {k : Nat}, l + k ≤ 3 → ∃ c, g c = some ⟨r, l + k, i / 512 ^ k⟩
  | 0, _ => ⟨q, by simpa using hq⟩
  | k + 1, hk => by
    obtain ⟨c, hc⟩ := h.ancestor hq (k := k) (by omega)
    obtain ⟨c', hc', -⟩ := h.parent hc (by omega)
    rw [Nat.div_div_eq_div_mul, ← Nat.pow_succ, Nat.add_assoc] at hc'
    exact ⟨c', hc'⟩

theorem isRoot (h : g.Trees m) {q r l i : Nat} (hq : g q = some ⟨r, l, i⟩) : g.IsRoot r := by
  have hl : l ≤ 3 := h.level_le hq
  obtain ⟨c, hc⟩ := h.ancestor hq (k := 3 - l) (by omega)
  rw [show l + (3 - l) = 3 by omega] at hc
  obtain ⟨rfl, hi⟩ := h.top hc
  rwa [hi] at hc

theorem index_lt (h : g.Trees m) {q r l i : Nat} (hq : g q = some ⟨r, l, i⟩) :
    i < 512 ^ (3 - l) := by
  have hl : l ≤ 3 := h.level_le hq
  obtain ⟨c, hc⟩ := h.ancestor hq (k := 3 - l) (by omega)
  rw [show l + (3 - l) = 3 by omega] at hc
  exact (Nat.div_eq_zero_iff_lt (Nat.pow_pos (by decide))).mp (h.top hc).2

/-- No two pages hold the table of one place. -/
theorem injective (h : g.Trees m) {q q' r l i : Nat} (hq : g q = some ⟨r, l, i⟩)
    (hq' : g q' = some ⟨r, l, i⟩) : q = q' := by
  -- on the number of levels above: the tables hang in one slot of one parent
  have key : ∀ k l i q q', l + k = 3 → g q = some ⟨r, l, i⟩ → g q' = some ⟨r, l, i⟩ → q = q' := by
    intro k
    induction k with
    | zero =>
      intro l i q q' hl hq hq'
      obtain rfl : l = 3 := by omega
      rw [(h.top hq).1, (h.top hq').1]
    | succ k ih =>
      intro l i q q' hl hq hq'
      obtain ⟨p, hp, hpq⟩ := h.parent hq (by omega)
      obtain ⟨p', hp', hpq'⟩ := h.parent hq' (by omega)
      obtain rfl := ih (l + 1) (i / 512) p p' (by omega) hp hp'
      rw [hpq] at hpq'
      exact Option.some.inj hpq'
  have hl : l ≤ 3 := h.level_le hq
  exact key (3 - l) l i q q' (by omega) hq hq'

/-! ### What an address space maps -/

/-- Where the walk of a page number meets an empty slot, there is no table on its way below. -/
theorem no_table_below (h : g.Trees m) {q r l v : Nat}
    (hq : g q = some ⟨r, l + 1, v / 512 ^ (l + 2)⟩)
    (hs : (m.slot q (v / 512 ^ (l + 1) % 512)).page? = none) {k : Nat} (hk : k ≤ l) {q0 : Nat} :
    g q0 ≠ some ⟨r, k, v / 512 ^ (k + 1)⟩ := by
  intro h0
  have hl : l + 1 ≤ 3 := h.level_le hq
  obtain ⟨c, hc⟩ := h.ancestor h0 (k := l - k) (by omega)
  rw [Nat.div_div_eq_div_mul, ← Nat.pow_add, show k + 1 + (l - k) = l + 1 by omega,
    Nat.add_sub_cancel' hk] at hc
  obtain ⟨q', hq', hcq⟩ := h.parent hc (by omega)
  rw [Nat.div_div_eq_div_mul, ← Nat.pow_succ] at hq'
  obtain rfl := h.injective hq hq'
  rw [hs] at hcq
  cases hcq

theorem tableUnder_iff (h : g.Trees m) {r v q0 : Nat} : ∀ {l q : Nat},
    g q = some ⟨r, l, v / 512 ^ (l + 1)⟩ →
      (m.tableUnder v l q = some q0 ↔ g q0 = some ⟨r, 0, v / 512⟩)
  | 0, q, hq => by
    rw [Nat.zero_add, Nat.pow_one] at hq
    rw [Memory.tableUnder, Option.some.injEq]
    constructor
    · rintro rfl
      exact hq
    · exact h.injective hq
  | l + 1, q, hq => by
    rw [Memory.tableUnder]
    cases hs : (m.slot q (v / 512 ^ (l + 1) % 512)).page? with
    | none =>
      rw [Option.bind_none]
      have hbelow : g q0 ≠ some ⟨r, 0, v / 512 ^ (0 + 1)⟩ := h.no_table_below hq hs (Nat.zero_le l)
      rw [Nat.zero_add, Nat.pow_one] at hbelow
      exact ⟨nofun, fun h0 => absurd h0 hbelow⟩
    | some c =>
      have hc := h.child hq (mod_slots_lt _) hs
      rw [slot_step] at hc
      rw [Option.bind_some]
      exact h.tableUnder_iff hc

theorem lt_pagesPerSpace_iff {v : Nat} : v < pagesPerSpace ↔ v / 512 ^ (3 + 1) = 0 := by
  rw [pagesPerSpace, Nat.div_eq_zero_iff_lt (by decide)]

/-- **A space maps a page by the slot of its place.** -/
theorem mapped_iff (h : g.Trees m) {r : Nat} (hr : g.IsRoot r) {v : Nat} {e : Entry} :
    m.mapped r v = some e ↔
      ∃ q, g q = some ⟨r, 0, v / 512⟩ ∧ m.slot q (v % 512) = e ∧ e.present = true := by
  have hunder : v < pagesPerSpace → ∀ q,
      m.tableUnder v 3 r = some q ↔ g q = some ⟨r, 0, v / 512⟩ := by
    intro hv q
    refine h.tableUnder_iff (q := r) (l := 3) ?_
    rw [lt_pagesPerSpace_iff.mp hv]
    exact hr
  unfold Memory.mapped
  constructor
  · intro hm
    by_cases hv : v < pagesPerSpace
    · rw [if_pos hv] at hm
      obtain ⟨q, hq, hm⟩ := Option.bind_eq_some_iff.mp hm
      split at hm
      · next hp =>
        have he := Option.some.inj hm
        exact ⟨q, (hunder hv q).mp hq, he, he ▸ hp⟩
      · exact nomatch hm
    · rw [if_neg hv] at hm
      exact nomatch hm
  · intro hx
    obtain ⟨q, hq, rfl, hp⟩ := hx
    have hv : v < pagesPerSpace := by
      rw [lt_pagesPerSpace_iff, Nat.pow_succ', ← Nat.div_div_eq_div_mul]
      exact Nat.div_eq_of_lt (h.index_lt hq)
    rw [if_pos hv, (hunder hv q).mpr hq, Option.bind_some, if_pos hp]

/-- What a space maps at a page that it has a leaf table for. -/
theorem mapped_eq_slot (h : g.Trees m) {q r v : Nat} (hq : g q = some ⟨r, 0, v / 512⟩) :
    m.mapped r v =
      if (m.slot q (v % 512)).present then some (m.slot q (v % 512)) else none := by
  split
  · next hp => exact (h.mapped_iff (h.isRoot hq)).mpr ⟨q, hq, rfl, hp⟩
  · next hp =>
    refine Option.eq_none_iff_forall_ne_some.mpr fun e hm => ?_
    obtain ⟨q1, hq1, rfl, hp1⟩ := (h.mapped_iff (h.isRoot hq)).mp hm
    exact hp (h.injective hq hq1 ▸ hp1)

theorem mapped_of_slot (h : g.Trees m) {q r i s : Nat} (hq : g q = some ⟨r, 0, i⟩) (hs : s < 512)
    (hp : (m.slot q s).present = true) : m.mapped r (512 * i + s) = some (m.slot q s) := by
  refine (h.mapped_iff (h.isRoot hq)).mpr ⟨q, ?_, ?_, hp⟩
  · rwa [show (512 * i + s) / 512 = i by omega]
  · rw [show (512 * i + s) % 512 = s by omega]

theorem mapped_none (h : g.Trees m) {r v : Nat} (hr : g.IsRoot r)
    (hq : ∀ q, g q = some ⟨r, 0, v / 512⟩ → (m.slot q (v % 512)).present = false) :
    m.mapped r v = none := by
  cases hm : m.mapped r v with
  | none => rfl
  | some e =>
    obtain ⟨q, hg, rfl, hp⟩ := (h.mapped_iff hr).mp hm
    rw [hq q hg] at hp
    cases hp

/-- What a space maps is kept by whatever keeps its leaf tables. -/
theorem mapped_congr {g' : Shape} (h : g.Trees m) (h' : g'.Trees m') {r : Nat} (hr : g.IsRoot r)
    (hr' : g'.IsRoot r) (hg : ∀ q i, g' q = some ⟨r, 0, i⟩ ↔ g q = some ⟨r, 0, i⟩)
    (hs : ∀ q i, g q = some ⟨r, 0, i⟩ → ∀ s < 512, m'.slot q s = m.slot q s) :
    m'.mapped r = m.mapped r := by
  funext v
  refine Option.ext fun e => ?_
  rw [h'.mapped_iff hr', h.mapped_iff hr]
  constructor
  · intro hx
    obtain ⟨q, hq, rfl, hp⟩ := hx
    have hq := (hg _ _).mp hq
    rw [hs q _ hq _ (mod_slots_lt _)] at hp ⊢
    exact ⟨q, hq, rfl, hp⟩
  · intro hx
    obtain ⟨q, hq, rfl, hp⟩ := hx
    refine ⟨q, (hg _ _).mpr hq, hs q _ hq _ (mod_slots_lt _), hp⟩

theorem mapped_lt {r v : Nat} {e : Entry} (hm : m.mapped r v = some e) : v < pagesPerSpace := by
  unfold Memory.mapped at hm
  split at hm
  · assumption
  · cases hm

theorem mapped_present (h : g.Trees m) {r v : Nat} {e : Entry} (hr : g.IsRoot r)
    (hm : m.mapped r v = some e) : e.present = true := by
  obtain ⟨_, _, _, hp⟩ := (h.mapped_iff hr).mp hm
  exact hp

theorem mapped_page? (h : g.Trees m) {r v : Nat} {e : Entry} (hr : g.IsRoot r)
    (hm : m.mapped r v = some e) : e.page? = some e.addr.pageNumber := by
  rw [Entry.page?, if_pos (h.mapped_present hr hm)]

end Shape.Trees

namespace Shape.Fits

theorem congr (h : g.Fits m) (hs : ∀ q, g q ≠ none → ∀ s < 512, m'.slot q s = m.slot q s) :
    g.Fits m' where
  toTrees := h.toTrees.congr hs
  leaf hq hlt hc := h.leaf hq hlt (hs _ (hq ▸ Option.some_ne_none _) _ hlt ▸ hc)

/-- A mapped page is installed, and holds no table. -/
theorem mapped_page (h : g.Fits m) {r v c : Nat} {e : Entry} (hr : g.IsRoot r)
    (hm : m.mapped r v = some e) (hc : e.page? = some c) : g c = none ∧ c < n := by
  obtain ⟨q, hq, rfl, -⟩ := (h.mapped_iff hr).mp hm
  exact h.leaf hq (mod_slots_lt _) hc

/-- A leaf points to an installed page that is no table. -/
theorem mapped_target (h : g.Fits m) {r v : Nat} {e : Entry} (hr : g.IsRoot r)
    (hm : m.mapped r v = some e) : g e.addr.pageNumber = none ∧ e.addr.pageNumber < n :=
  h.mapped_page hr hm (h.mapped_page? hr hm)

end Shape.Fits

end PagedKernel
