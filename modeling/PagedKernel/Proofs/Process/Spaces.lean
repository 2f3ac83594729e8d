import PagedKernel.Proofs.Spaces.Teardown
import PagedKernel.Proofs.Spaces.Trim

/-!
# What the spaces map

The kernel maps every page below the user region but the null page at its own address, for itself
alone but for the console. A process maps the same pages the same way, except that it may have
another page at the address of the console; whatever else it maps lies in the user region, is for
the user and was handed out. `UserLeaf` lists these three kinds of leaves.

A page that a process can write has no other mapping in any space, with the console's own page as
the only exception (`Shape.Private`). `Spaces` is all this together, for the spaces of a shape. A
space in the making need not map the whole kernel yet: `P` picks out those that do. It gets its
leaves one after the other, and `Pending` is what holds as long as some are left to do.

Key definitions: `kernelLeaf`, `UserLeaf`, `Shape.Private`, `Spaces`, `Pending`.
Key theorems: `Shape.Private.install`, `Spaces.installed`, `Spaces.dropped`, `Pending.next`.
-/

namespace PagedKernel

/-- The page number of the console. -/
def consolePage : Nat := consoleAddr / pageSize

/-- The first page number of the user region. -/
def userFirst : Nat := procStart / pageSize

/-- The page number after the last one of the user region. -/
def userPast : Nat := virtualSize / pageSize

theorem consolePage_eq : consolePage = 0xb8 := rfl

theorem userFirst_eq : userFirst = 0x100 := rfl

theorem userPast_eq : userPast = 0x300 := rfl

theorem pageMeets_procStart {v : Nat} : pageMeets 0 procStart v = true ↔ v < userFirst :=
  pageMeets_first (k := userFirst)

theorem pageMeets_virtualSize {v : Nat} : pageMeets 0 virtualSize v = true ↔ v < userPast :=
  pageMeets_first (k := userPast)

def Allocatable (c : Nat) : Prop :=
  allocatableStart ≤ c * pageSize

theorem allocatable_iff {c : Nat} : Allocatable c ↔ 0x100 ≤ c := by
  unfold Allocatable allocatableStart pageSize
  omega

theorem Allocatable.ne_console {c : Nat} (h : Allocatable c) : c ≠ consolePage := fun hc =>
  absurd (allocatable_iff.mp h) (hc ▸ by decide)

/-- What the kernel allows at page number `v` of its own space. -/
def kernelPermission (v : Nat) : Permission :=
  if v = consolePage then .userData else .kernel

/-- What the kernel maps at page number `v`. -/
def kernelLeaf (v : Nat) : Option Entry :=
  if 1 ≤ v ∧ v < userFirst then some (.link (pageAt v) (kernelPermission v).toFlags) else none

/-- A process may map page `c` at page number `v` with the permission `perm`. -/
inductive UserLeaf : Nat → Nat → Permission → Prop
  /-- A page of the kernel, as the kernel maps it. -/
  | kernel {v : Nat} : 1 ≤ v → v < userFirst → v ≠ consolePage → UserLeaf v v .kernel
  /-- The console, or a page in its place. -/
  | console {c : Nat} : c = consolePage ∨ Allocatable c → UserLeaf consolePage c .userData
  /-- A page of the user region. -/
  | user {v c : Nat} {perm : Permission} : userFirst ≤ v → v < userPast → perm.user = true →
    Allocatable c → UserLeaf v c perm

/-- The entry `e` is a leaf that a process may have at page number `v`. -/
def LeafAllowed (v : Nat) (e : Entry) : Prop :=
  ∃ c perm, c < 2 ^ 40 ∧ e = .link (pageAt c) perm.toFlags ∧ UserLeaf v c perm

variable {n : Nat} {g g' : Shape} {m : Memory n} {f f' : Frames n}

/-- The space with root `r` maps page number `v` by the leaf `e`. -/
def Shape.Maps (g : Shape) (m : Memory n) (r v : Nat) (e : Entry) : Prop :=
  g.IsRoot r ∧ m.mapped r v = some e

/-- A page that a user can write, but for the console's, is mapped once. -/
def Shape.Private (g : Shape) (m : Memory n) : Prop :=
  ∀ ⦃r v e r' v' e'⦄, g.Maps m r v e → g.Maps m r' v' e' → e.writable = true → e.user = true →
    e'.addr = e.addr → e.addr ≠ pageAt consolePage → r' = r ∧ v' = v

/-- The page that `e` points to is mapped at page number `v` of the space with root `r` at most. -/
def Shape.Sole (g : Shape) (m : Memory n) (r v : Nat) (e : Entry) : Prop :=
  ∀ ⦃r' v' e'⦄, g.Maps m r' v' e' → e'.addr = e.addr → r' = r ∧ v' = v

/-! ### Permissions of leaves -/

theorem LeafAllowed.page_lt {v : Nat} {e : Entry} (h : LeafAllowed v e) : v < userPast := by
  obtain ⟨c, perm, -, -, hleaf⟩ := h
  cases hleaf with
  | kernel _ hv _ =>
    rw [userFirst_eq] at hv
    rw [userPast_eq]
    omega
  | console _ => decide
  | user _ hv _ _ => exact hv

theorem LeafAllowed.page_pos {v : Nat} {e : Entry} (h : LeafAllowed v e) : 1 ≤ v := by
  obtain ⟨c, perm, -, -, hleaf⟩ := h
  cases hleaf with
  | kernel hv _ _ => exact hv
  | console _ => decide
  | user hv _ _ _ =>
    rw [userFirst_eq] at hv
    omega

theorem pageAt_injective {c d : Nat} (hc : c < 2 ^ 40) (hd : d < 2 ^ 40) (h : pageAt c = pageAt d) :
    c = d := by
  rw [← pageAt_pageNumber (q := c) (by omega), h, pageAt_pageNumber (by omega)]

theorem relink {c : Nat} (hc : c < 2 ^ 40) (perm : Permission) :
    Entry.link (pageAt c) (Permission.ofFlags (Entry.link (pageAt c) perm.toFlags).flags).toFlags =
      .link (pageAt c) perm.toFlags := by
  rw [Entry.flags_link hc, Permission.ofFlags_toFlags]
  rfl

/-! ### Mappings after a change -/

namespace Shape

theorem Maps.of_kept {P : Nat → Prop} {r v : Nat} {e : Entry} (h : Kept P g f g' f') (hr : P r) :
    g'.Maps f'.memory r v e ↔ g.Maps f.memory r v e := by
  unfold Maps
  rw [h.isRoot hr]
  refine and_congr_right fun hg => ?_
  rw [h.mapped hr hg]

theorem Maps.of_remapped {r r' v : Nat} {F : Nat → Option Entry} {e : Entry}
    (h : Remapped r F g f g' f') :
    g'.Maps f'.memory r' v e ↔ if r' = r then F v = some e else g.Maps f.memory r' v e := by
  split
  · next heq =>
    subst heq
    unfold Maps
    rw [h.mapped, and_iff_right h.isRoot]
  · next hne => exact Maps.of_kept h.kept hne

theorem Private.of_sub (h : g.Private m) {m' : Memory n}
    (hs : ∀ r v e, g'.Maps m' r v e → g.Maps m r v e) : g'.Private m' :=
  fun _ _ _ _ _ _ h1 h2 => h (hs _ _ _ h1) (hs _ _ _ h2)

/-- **A new leaf leaves the writable pages private** if it shares its page with no writable one, and
is not writable itself if the page is mapped elsewhere. -/
theorem Private.install (h : g.Private f.memory) {r v : Nat} {e : Entry} (hr : g.IsRoot r)
    (hm : Remapped r (Function.update (f.memory.mapped r) v (some e)) g f g' f')
    (hne : ∀ r' v' e', g.Maps f.memory r' v' e' → ¬ (r' = r ∧ v' = v) → e'.addr = e.addr →
      e.addr ≠ pageAt consolePage →
        ¬ (e.writable = true ∧ e.user = true) ∧ ¬ (e'.writable = true ∧ e'.user = true)) :
    g'.Private f'.memory := by
  have hmaps : ∀ {r' v' e'}, g'.Maps f'.memory r' v' e' →
      r' = r ∧ v' = v ∧ e' = e ∨ ¬ (r' = r ∧ v' = v) ∧ g.Maps f.memory r' v' e' := by
    intro r' v' e' h'
    rw [Maps.of_remapped hm] at h'
    by_cases hrr : r' = r
    · rw [if_pos hrr] at h'
      subst hrr
      by_cases hvv : v' = v
      · subst hvv
        rw [Function.update_self] at h'
        exact .inl ⟨rfl, rfl, (Option.some.inj h').symm⟩
      · rw [Function.update_of_ne hvv] at h'
        exact .inr ⟨fun heq => hvv heq.2, hr, h'⟩
    · rw [if_neg hrr] at h'
      exact .inr ⟨fun heq => hrr heq.1, h'⟩
  intro r1 v1 e1 r2 v2 e2 h1 h2 hw hu ha hcons
  rcases hmaps h1 with ⟨rfl, rfl, rfl⟩ | ⟨hne1, hm1⟩
  · rcases hmaps h2 with ⟨rfl, rfl, rfl⟩ | ⟨hne2, hm2⟩
    · exact ⟨rfl, rfl⟩
    · exact absurd ⟨hw, hu⟩ (hne r2 v2 e2 hm2 hne2 ha hcons).1
  · rcases hmaps h2 with ⟨rfl, rfl, rfl⟩ | ⟨hne2, hm2⟩
    · exact absurd ⟨hw, hu⟩ (hne r1 v1 e1 hm1 hne1 ha.symm (ha ▸ hcons)).2
    · exact h hm1 hm2 hw hu ha hcons

/-- A page that nobody else maps can be mapped in any way. -/
theorem Private.install_sole (h : g.Private f.memory) {r v : Nat} {e : Entry} (hr : g.IsRoot r)
    (hm : Remapped r (Function.update (f.memory.mapped r) v (some e)) g f g' f')
    (hsole : g.Sole f.memory r v e) : g'.Private f'.memory :=
  h.install hr hm fun _ _ _ hmaps hne ha _ => absurd (hsole hmaps ha) hne

theorem Sole.of_sub {r v : Nat} {e : Entry} (h : g.Sole m r v e) {m' : Memory n}
    (hs : ∀ r v e, g'.Maps m' r v e → g.Maps m r v e) : g'.Sole m' r v e :=
  fun _ _ _ hmaps ha => h (hs _ _ _ hmaps) ha

theorem Sole.install {r v r1 v1 : Nat} {e e1 : Entry} (h : g.Sole f.memory r1 v1 e1)
    (hr : g.IsRoot r) (hm : Remapped r (Function.update (f.memory.mapped r) v (some e)) g f g' f')
    (hne : e.addr = e1.addr → r = r1 ∧ v = v1) : g'.Sole f'.memory r1 v1 e1 := by
  intro r' v' e' hmaps ha
  rw [Maps.of_remapped hm] at hmaps
  by_cases hrr : r' = r
  · rw [if_pos hrr] at hmaps
    subst hrr
    by_cases hvv : v' = v
    · subst hvv
      rw [Function.update_self, Option.some.injEq] at hmaps
      exact hne (hmaps ▸ ha)
    · rw [Function.update_of_ne hvv] at hmaps
      exact h ⟨hr, hmaps⟩ ha
  · rw [if_neg hrr] at hmaps
    exact h hmaps ha

theorem Unmapped.sole {c r v : Nat} {flags : Flags} (h : g.Unmapped m c) (hf : g.Fits m)
    (hc : c < 2 ^ 40) : g.Sole m r v (.link (pageAt c) flags) := by
  intro r' v' e' hmaps ha
  rw [Entry.addr_link hc] at ha
  refine absurd ?_ (h.mapped_ne hf hmaps.1 hmaps.2)
  rw [hf.mapped_page? hmaps.1 hmaps.2, ha, pageAt_pageNumber (by omega)]

end Shape

/-- A page just handed out is mapped nowhere. -/
theorem sole_of_handedOut {held : List Nat} {c r v : Nat} {flags : Flags}
    (h : Accounted g held f) (ho : Frames.HandedOut f c f') (hc : c < 2 ^ 40) :
    g.Sole f'.memory r v (.link (pageAt c) flags) :=
  ((h.of_count_zero ho.lt ho.count_zero).2.1.sole h.fits hc).of_sub fun _ _ _ hmaps =>
    (Shape.Maps.of_kept (.of_in_use (P := fun _ => True) h ho.byte_in_use) trivial).mp hmaps

/-! ### All spaces -/

/-- Every space of the shape maps what it may, the kernel's has root `kr`, those that `P` picks out
map the whole kernel, and what users can write is private. No process has a table for nothing. -/
structure Spaces (kr : Nat) (P : Nat → Prop) (g : Shape) (m : Memory n) : Prop where
  linked : g.Linked m
  high : ∀ {q p}, g q = some p → Allocatable q
  kernelRoot : g.IsRoot kr
  kernelMapped : m.mapped kr = kernelLeaf
  leaf : ∀ {r v e}, r ≠ kr → g.Maps m r v e → LeafAllowed v e
  complete : ∀ {r v}, P r → g.IsRoot r → r ≠ kr → 1 ≤ v → v < userFirst → m.mapped r v ≠ none
  isPrivate : g.Private m
  trim : ∀ {r}, r ≠ kr → g.IsRoot r → g.Trim m r

namespace Spaces

variable {kr : Nat} {P : Nat → Prop}

theorem mono (h : Spaces kr P g m) {P' : Nat → Prop} (hP : ∀ r, P' r → P r) : Spaces kr P' g m :=
  { h with complete := fun hr => h.complete (hP _ hr) }

/-- Every space of processes changes to what it may be, and the kernel's stays as it is. -/
theorem remapped (h : Spaces kr P g f.memory) {t : Nat} {F : Nat → Option Entry}
    (hm : Remapped t F g f g' f') (ht : t ≠ kr) (hleaf : ∀ {v e}, F v = some e → LeafAllowed v e)
    (hcomplete : P t → ∀ v, 1 ≤ v → v < userFirst → F v ≠ none) (hp : g'.Private f'.memory)
    (htrim : g'.Trim f'.memory t) : Spaces kr P g' f'.memory where
  linked := hm.kept.linked h.linked
  high := hm.kept.tables_high h.high
  kernelRoot := (hm.kept.isRoot (Ne.symm ht)).mpr h.kernelRoot
  kernelMapped := (hm.kept.mapped (Ne.symm ht) h.kernelRoot).trans h.kernelMapped
  leaf := by
    intro r v e hr hmaps
    rw [Shape.Maps.of_remapped hm] at hmaps
    split at hmaps
    · exact hleaf hmaps
    · exact h.leaf hr hmaps
  complete := by
    intro r v hP hr hrk hv1 hv2
    by_cases hrt : r = t
    · subst hrt
      rw [hm.mapped]
      exact hcomplete hP v hv1 hv2
    · have hr := (hm.kept.isRoot hrt).mp hr
      rw [hm.kept.mapped hrt hr]
      exact h.complete hP hr hrk hv1 hv2
  isPrivate := hp
  trim := by
    intro r hrk hr
    by_cases hrt : r = t
    · exact hrt ▸ htrim
    · have hr := (hm.kept.isRoot hrt).mp hr
      exact (h.trim hrk hr).kept hm.kept hrt hr

/-- A space of a process has one more leaf, or another in the place of one. -/
theorem installed (h : Spaces kr P g f.memory) {t v : Nat} {e : Entry} (hr : g.IsRoot t)
    (hm : Remapped t (Function.update (f.memory.mapped t) v (some e)) g f g' f') (ht : t ≠ kr)
    (he : LeafAllowed v e) (hp : g'.Private f'.memory) : Spaces kr P g' f'.memory := by
  refine h.remapped hm ht (fun {v' e'} he' => ?_) (fun hP v' hv1 hv2 => ?_) hp
    ((h.trim ht hr).remapped hm fun v' hv' => ?_)
  · by_cases hv : v' = v
    · subst hv
      rw [Function.update_self, Option.some.injEq] at he'
      exact he' ▸ he
    · rw [Function.update_of_ne hv] at he'
      exact h.leaf ht ⟨hr, he'⟩
  · by_cases hv : v' = v
    · subst hv
      rw [Function.update_self]
      exact Option.some_ne_none _
    · rw [Function.update_of_ne hv]
      exact h.complete hP hr ht hv1 hv2
  · by_cases hv : v' = v
    · subst hv
      rw [Function.update_self]
      exact Option.some_ne_none _
    · rwa [Function.update_of_ne hv]

theorem kept (h : Spaces kr P g f.memory) (hk : Kept (fun _ => True) g f g' f') :
    Spaces kr P g' f'.memory where
  linked := hk.linked h.linked
  high := hk.tables_high h.high
  kernelRoot := (hk.isRoot trivial).mpr h.kernelRoot
  kernelMapped := (hk.mapped trivial h.kernelRoot).trans h.kernelMapped
  leaf hr hmaps := h.leaf hr ((Shape.Maps.of_kept hk trivial).mp hmaps)
  complete hP hr hrk hv1 hv2 := by
    have hr := (hk.isRoot trivial).mp hr
    rw [hk.mapped trivial hr]
    exact h.complete hP hr hrk hv1 hv2
  isPrivate := h.isPrivate.of_sub fun _ _ _ hmaps => (Shape.Maps.of_kept hk trivial).mp hmaps
  trim hrk hr := by
    have hr := (hk.isRoot trivial).mp hr
    exact (h.trim hrk hr).kept hk trivial hr

/-- Bytes change in pages that hold no table. -/
theorem wrote (h : Spaces kr P g f.memory) {S : Nat → Prop} (hw : Wrote S f f')
    (hS : ∀ q, S q → g q = none) (hf : g.Fits f.memory) : Spaces kr P g f'.memory where
  linked := hw.linked hS hf h.linked
  high := h.high
  kernelRoot := h.kernelRoot
  kernelMapped := (hw.mapped hS hf h.kernelRoot).trans h.kernelMapped
  leaf hr hmaps := h.leaf hr ⟨hmaps.1, hw.mapped hS hf hmaps.1 ▸ hmaps.2⟩
  complete hP hr hrk hv1 hv2 := by
    rw [hw.mapped hS hf hr]
    exact h.complete hP hr hrk hv1 hv2
  isPrivate := h.isPrivate.of_sub fun _ _ _ hmaps => ⟨hmaps.1, hw.mapped hS hf hmaps.1 ▸ hmaps.2⟩
  trim hrk hr := fun q l i hq hl => by
    rw [hw.mapped hS hf hr]
    exact h.trim hrk hr hq hl

/-- One space is gone, and no other changes. It may have been in the making. -/
theorem dropped {t : Nat} (h : Spaces kr (· ≠ t) g f.memory) (hk : Kept (· ≠ t) g f g' f')
    (ht : t ≠ kr) (hgone : ¬ g'.IsRoot t) : Spaces kr (fun _ => True) g' f'.memory := by
  have hne : ∀ {r}, g'.IsRoot r → r ≠ t := fun hr hrt => hgone (hrt ▸ hr)
  have hmaps : ∀ {r v e}, g'.Maps f'.memory r v e → g.Maps f.memory r v e := fun h' =>
    (Shape.Maps.of_kept hk (hne h'.1)).mp h'
  exact {
    linked := hk.linked h.linked
    high := hk.tables_high h.high
    kernelRoot := (hk.isRoot (Ne.symm ht)).mpr h.kernelRoot
    kernelMapped := (hk.mapped (Ne.symm ht) h.kernelRoot).trans h.kernelMapped
    leaf := fun hr h' => h.leaf hr (hmaps h')
    complete := fun {r v} _ hr hrk hv1 hv2 => by
      have hrt := hne hr
      have hr := (hk.isRoot hrt).mp hr
      rw [hk.mapped hrt hr]
      exact h.complete hrt hr hrk hv1 hv2
    isPrivate := h.isPrivate.of_sub fun _ _ _ h' => hmaps h'
    trim := fun hrk hr => by
      have hrt := hne hr
      have hr := (hk.isRoot hrt).mp hr
      exact (h.trim hrk hr).kept hk hrt hr }

theorem new {t : Nat} (h : Spaces kr (· ≠ t) g f.memory) (hf : g.Fits f.memory)
    (hm : Remapped t (fun _ => none) g f g' f') (hfresh : ¬ g.IsRoot t) (ht : t ≠ kr) :
    Spaces kr (· ≠ t) g' f'.memory := by
  refine h.remapped hm ht (fun he => nomatch he) (fun hP => absurd rfl hP)
    (h.isPrivate.of_sub fun r v e hmaps => ?_) (.of_new hf hfresh hm)
  rw [Shape.Maps.of_remapped hm] at hmaps
  split at hmaps
  · cases hmaps
  · exact hmaps

/-- A space in the making is done once it maps the whole kernel. -/
theorem finished {t : Nat} (h : Spaces kr (· ≠ t) g m)
    (hcomplete : ∀ v, 1 ≤ v → v < userFirst → m.mapped t v ≠ none) :
    Spaces kr (fun _ => True) g m :=
  { h with
    complete := fun {r v} _ hr hrk hv1 hv2 => by
      by_cases hrt : r = t
      · exact hrt ▸ hcomplete v hv1 hv2
      · exact h.complete hrt hr hrk hv1 hv2 }

/-- Below the user region a complete space maps what the kernel does, but for the console. -/
theorem mapped_low (h : Spaces kr P g m) {r v : Nat} (hP : P r) (hr : g.IsRoot r) (hrk : r ≠ kr)
    (hv : v < userFirst) (hne : v ≠ consolePage) : m.mapped r v = kernelLeaf v := by
  unfold kernelLeaf
  cases hm : m.mapped r v with
  | none =>
    rw [if_neg]
    intro hx
    obtain ⟨hv1, hv2⟩ := hx
    exact h.complete hP hr hrk hv1 hv2 hm
  | some e =>
    obtain ⟨c, perm, -, rfl, hleaf⟩ := h.leaf hrk ⟨hr, hm⟩
    cases hleaf with
    | kernel hv1 hv2 _ =>
      rw [if_pos ⟨hv1, hv2⟩, kernelPermission, if_neg hne]
    | console _ => exact absurd rfl hne
    | user hv1 _ _ _ => exact absurd hv (Nat.not_lt.mpr hv1)

/-- A complete space maps some page at the console's address, which the user can write. -/
theorem mapped_console (h : Spaces kr P g m) {r : Nat} (hP : P r) (hr : g.IsRoot r)
    (hrk : r ≠ kr) :
    ∃ c, c < 2 ^ 40 ∧ (c = consolePage ∨ Allocatable c) ∧
      m.mapped r consolePage = some (.link (pageAt c) Permission.userData.toFlags) := by
  obtain ⟨e, hm⟩ := Option.ne_none_iff_exists'.mp
    (h.complete (v := consolePage) hP hr hrk (by decide) (by decide))
  obtain ⟨c, perm, hc, rfl, hleaf⟩ := h.leaf hrk ⟨hr, hm⟩
  generalize hv : consolePage = v at hleaf
  cases hleaf with
  | kernel _ _ hne => exact absurd hv.symm hne
  | console hor => exact ⟨c, hc, hor, hm⟩
  | user hv1 _ _ _ =>
    rw [← hv] at hv1
    exact absurd hv1 (by decide)

/-- The space of a process has five tables at most: it lies in two blocks of addresses. -/
theorem length_tables_le (h : Spaces kr P g m) (hf : g.Fits m) {t : PageTable}
    (hr : g.IsRoot t.root.number) (hne : t.root.number ≠ kr) :
    (m.tablesBelow 3 t.root.number).length ≤ 5 := by
  have hD := t.mem_leafPages (m := m)
  rw [(h.trim hne hr).length_tables hf hr hD]
  generalize leafPages (t.leaves m) = D at hD
  have hsub : placesFor D ⊆ {(0, 0), (0, 1), (1, 0), (2, 0)} := by
    rintro ⟨l, i⟩ hmem
    obtain ⟨hl, v, hv, rfl⟩ := mem_placesFor.mp hmem
    obtain ⟨e, hm⟩ := Option.ne_none_iff_exists'.mp ((hD v).mp hv)
    have hpast := (h.leaf hne ⟨hr, hm⟩).page_lt
    rw [userPast_eq] at hpast
    simp only [Finset.mem_insert, Finset.mem_singleton, Prod.mk.injEq]
    interval_cases l <;> omega
  exact Nat.succ_le_succ (Finset.card_le_card hsub)

end Spaces

/-! ### A space in the making -/

/-- The space with root `t` is to get a counterpart of each of the leaves `rest` of the space with
root `r`, and has none of them yet. -/
structure Pending {n : Nat} (held : List Nat) (r t : Nat) (rest : List (Nat × Entry)) (g : Shape)
    (f : Frames n) : Prop where
  accounted : Accounted g held f
  source : g.IsRoot r
  target : g.IsRoot t
  ne : r ≠ t
  mapped : ∀ p ∈ rest, f.memory.mapped r p.1 = some p.2
  sorted : rest.Pairwise fun a b => a.1 < b.1
  fresh : ∀ p ∈ rest, f.memory.mapped t p.1 = none

namespace Pending

variable {n : Nat} {held : List Nat} {r t v : Nat} {e : Entry} {rest : List (Nat × Entry)}
  {g g' : Shape} {f f' : Frames n} {source : PageTable}

theorem of_empty (h : Accounted g held f) (hs : g.IsRoot source.root.number) (ht : g.IsRoot t)
    (hne : source.root.number ≠ t) (hempty : ∀ v, f.memory.mapped t v = none)
    (p : Nat × Entry → Bool) :
    Pending held source.root.number t ((source.leaves f.memory).filter p) g f where
  accounted := h
  source := hs
  target := ht
  ne := hne
  mapped _ hq := PageTable.mem_leaves.mp (List.mem_filter.mp hq).1
  sorted := (Memory.leavesBelow_sorted ..).filter _
  fresh q _ := hempty q.1

/-- A space that is new may get all the leaves that another had before. -/
theorem of_new (hs : g.IsRoot source.root.number)
    (hne : source.root.number ≠ t) (h' : Accounted g' held f')
    (hm : Remapped t (fun _ => none) g f g' f') :
    Pending held source.root.number t (source.leaves f.memory) g' f' where
  accounted := h'
  source := (hm.kept.isRoot hne).mpr hs
  target := hm.isRoot
  ne := hne
  mapped _ hq := by
    rw [hm.kept.mapped hne hs]
    exact PageTable.mem_leaves.mp hq
  sorted := Memory.leavesBelow_sorted ..
  fresh q _ := by rw [hm.mapped]

theorem lt (h : Pending held r t ((v, e) :: rest) g f) : ∀ p ∈ rest, v < p.1 :=
  (List.pairwise_cons.mp h.sorted).1

theorem next (h : Pending held r t ((v, e) :: rest) g f) (h' : Accounted g' held f')
    (hk : Kept (· ≠ t) g f g' f') (ht : g'.IsRoot t)
    (hother : ∀ w, w ≠ v → f'.memory.mapped t w = f.memory.mapped t w) :
    Pending held r t rest g' f' where
  accounted := h'
  source := (hk.isRoot h.ne).mpr h.source
  target := ht
  ne := h.ne
  mapped p hp := by
    rw [hk.mapped h.ne h.source]
    exact h.mapped p (List.mem_cons_of_mem _ hp)
  sorted := (List.pairwise_cons.mp h.sorted).2
  fresh p hp := by
    rw [hother _ (Nat.ne_of_gt (h.lt p hp))]
    exact h.fresh p (List.mem_cons_of_mem _ hp)

end Pending

end PagedKernel
