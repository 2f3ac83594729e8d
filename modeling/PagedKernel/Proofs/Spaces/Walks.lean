import PagedKernel.AddressSpace.Contents
import PagedKernel.Proofs.Spaces.Ways

/-!
# Walks of trees

Where the tables are trees no walk leaves the installed memory, so none of them halts. Every walk of
a page table, the kernel's and that of the memory management unit, ends at the leaf that
`Memory.mapped` speaks of; since the entries of the inner tables allow everything, the leaf alone
decides what is allowed. A walk of the kernel that finds a level missing stops at the table above
it, which `Memory.reach` gives.

Key definitions: `VirtAddr.Canonical`, `Shape.Linked`.
Key theorems: `Shape.Trees.reach_place`, `Shape.Trees.walk_eq_of_le`, `Shape.Trees.locate_eq`.
-/

namespace PagedKernel

/-! ### Canonical addresses -/

/-- Bits 47 to 63 of the address are all equal. -/
def VirtAddr.Canonical (va : VirtAddr) : Prop :=
  VirtAddr.ofWord? va.val = some va

theorem VirtAddr.canonical_iff {va : VirtAddr} :
    va.Canonical ↔ va.toNat < 2 ^ 47 ∨ 2 ^ 64 - 2 ^ 47 ≤ va.toNat := by
  unfold Canonical VirtAddr.ofWord?
  by_cases h : va.val.toNat < 1 <<< 47 ∨ UInt64.size - 1 <<< 47 ≤ va.val.toNat
  · rw [if_pos h]
    exact iff_of_true rfl h
  · rw [if_neg h]
    exact iff_of_false nofun h

theorem VirtAddr.canonical_of_ofWord? {a : UInt64} {va : VirtAddr}
    (h : VirtAddr.ofWord? a = some va) : va.Canonical := by
  have hva : va = ⟨a⟩ := by
    unfold VirtAddr.ofWord? at h
    split at h
    · exact (Option.some.inj h).symm
    · cases h
  subst hva
  exact h

theorem VirtAddr.Canonical.pageDown {va : VirtAddr} (h : va.Canonical) : va.pageDown.Canonical := by
  rw [VirtAddr.canonical_iff] at h ⊢
  rw [va.toNat_pageDown]
  unfold pageSize
  omega

/-- Canonical addresses with the same page number are in one page. -/
theorem VirtAddr.Canonical.div_eq {va va' : VirtAddr} (h : va.Canonical) (h' : va'.Canonical)
    (hpage : va'.page = va.page) : va'.toNat / pageSize = va.toNat / pageSize := by
  have hlt : va.toNat < 2 ^ 64 := va.val.toNat_lt
  have hlt' : va'.toNat < 2 ^ 64 := va'.val.toNat_lt
  rw [VirtAddr.canonical_iff] at h h'
  unfold VirtAddr.page pagesPerSpace pageSize at hpage
  unfold pageSize
  omega

variable {n : Nat} {g : Shape} {m : Memory n}

/-- The entries of all inner tables allow everything. -/
def Shape.Linked (g : Shape) (m : Memory n) : Prop :=
  ∀ ⦃q r l i s c⦄, g q = some ⟨r, l + 1, i⟩ → s < 512 → (m.slot q s).page? = some c →
    m.slot q s = .link (pageAt c) .table

namespace Shape.Trees

/-! ### Down to the last table -/

/-- What the way of a page number ends at: a table of the space, and above a missing level an empty
slot. -/
theorem reach_place (h : g.Trees m) {r v : Nat} : ∀ {l q : Nat},
    g q = some ⟨r, l, v / 512 ^ (l + 1)⟩ →
      g (m.reach v l q).1 = some ⟨r, (m.reach v l q).2, v / 512 ^ ((m.reach v l q).2 + 1)⟩ ∧
      ((m.reach v l q).2 ≠ 0 →
        (m.slot (m.reach v l q).1 (v / 512 ^ (m.reach v l q).2 % 512)).page? = none)
  | 0, q, hq => ⟨hq, fun h0 => absurd rfl h0⟩
  | l + 1, q, hq => by
    rw [Memory.reach]
    cases hs : (m.slot q (v / 512 ^ (l + 1) % 512)).page? with
    | none => exact ⟨hq, fun _ => hs⟩
    | some c =>
      have hc := h.child hq (mod_slots_lt _) hs
      rw [slot_step] at hc
      exact h.reach_place hc

theorem root_place {r v : Nat} (hr : g.IsRoot r) (hv : v < pagesPerSpace) :
    g r = some ⟨r, 3, v / 512 ^ (3 + 1)⟩ := by
  rw [lt_pagesPerSpace_iff.mp hv]
  exact hr

/-- The levels that are missing are those without a table on the way. -/
theorem reach_le_iff (h : g.Trees m) {r v l : Nat} (hr : g.IsRoot r) (hv : v < pagesPerSpace)
    (hl : l ≤ 3) : (m.reach v 3 r).2 ≤ l ↔ ∃ q, g q = some ⟨r, l, v / 512 ^ (l + 1)⟩ := by
  have hplace := h.reach_place (root_place hr hv)
  constructor
  · intro hle
    obtain ⟨c, hc⟩ := h.ancestor hplace.1 (k := l - (m.reach v 3 r).2) (by omega)
    rw [Nat.div_div_eq_div_mul, ← Nat.pow_add, Nat.add_sub_cancel' hle] at hc
    rw [show (m.reach v 3 r).2 + 1 + (l - (m.reach v 3 r).2) = l + 1 by omega] at hc
    exact ⟨c, hc⟩
  · intro hx
    obtain ⟨q, hq⟩ := hx
    by_contra hgt
    obtain ⟨l', hl'⟩ := Nat.exists_eq_succ_of_ne_zero (n := (m.reach v 3 r).2) (by omega)
    have hnone := hplace.2 (by omega)
    rw [hl'] at hplace hnone
    exact h.no_table_below hplace.1 hnone (by omega) hq

/-- No level is missing just if there is a leaf table for the page. -/
theorem reach_eq_zero_iff (h : g.Trees m) {r v : Nat} (hr : g.IsRoot r) (hv : v < pagesPerSpace) :
    (m.reach v 3 r).2 = 0 ↔ ∃ q, g q = some ⟨r, 0, v / 512⟩ := by
  have hle := h.reach_le_iff hr hv (Nat.zero_le 3)
  rwa [Nat.le_zero, Nat.zero_add, Nat.pow_one] at hle

theorem reach_of_mapped (h : g.Trees m) {r v : Nat} {e : Entry} (hr : g.IsRoot r)
    (hm : m.mapped r v = some e) : (m.reach v 3 r).2 = 0 := by
  obtain ⟨q, hq, -⟩ := (h.mapped_iff hr).mp hm
  exact (h.reach_eq_zero_iff hr (mapped_lt hm)).mpr ⟨q, hq⟩

theorem reach_congr {v v' : Nat} (h : v / 512 = v' / 512) : ∀ l q, m.reach v l q = m.reach v' l q
  | 0, _ => rfl
  | l + 1, q => by
    rw [Memory.reach, Memory.reach, Nat.pow_succ', ← Nat.div_div_eq_div_mul,
      ← Nat.div_div_eq_div_mul, h]
    split
    · exact reach_congr h l _
    · rfl

theorem reach_le (m : Memory n) (v : Nat) : ∀ l q, (m.reach v l q).2 ≤ l
  | 0, _ => le_rfl
  | l + 1, q => by
    rw [Memory.reach]
    split
    · exact Nat.le_succ_of_le (reach_le m v l _)
    · exact le_rfl

/-- The mapping of a page is that of its slot in the leaf table, if there is one. -/
theorem mapped_eq_reach (h : g.Trees m) {r v : Nat} (hr : g.IsRoot r) (hv : v < pagesPerSpace) :
    m.mapped r v =
      if (m.reach v 3 r).2 = 0 ∧ (m.slot (m.reach v 3 r).1 (v % 512)).present = true then
        some (m.slot (m.reach v 3 r).1 (v % 512))
      else none := by
  have hplace := (h.reach_place (root_place hr hv)).1
  by_cases h0 : (m.reach v 3 r).2 = 0
  · rw [h0, Nat.zero_add, Nat.pow_one] at hplace
    rw [h.mapped_eq_slot hplace]
    simp only [h0, true_and]
  · rw [if_neg fun hc => h0 hc.1]
    exact h.mapped_none hr fun q hq => absurd ((h.reach_eq_zero_iff hr hv).mpr ⟨q, hq⟩) h0

theorem inside (h : g.Trees m) (v : Nat) {r : Nat} : ∀ {l q i : Nat}, g q = some ⟨r, l, i⟩ →
    m.WayInside v l q
  | 0, q, _, hq, p, hp => by
    obtain rfl := List.mem_singleton.mp hp
    exact h.installed hq
  | l + 1, q, i, hq, p, hp => by
    cases hs : (m.slot q (v / 512 ^ (l + 1) % 512)).page? with
    | none =>
      rw [Memory.way_of_missing hs] at hp
      obtain rfl := List.mem_singleton.mp hp
      exact h.installed hq
    | some c =>
      rw [Memory.way_of_child hs] at hp
      rcases List.mem_cons.mp hp with rfl | hp
      · exact h.installed hq
      · exact h.inside v (h.child hq (mod_slots_lt _) hs) p hp

/-- What the entries of all inner tables allow, the entries on a way allow if the leaf does. -/
theorem way_all (h : g.Trees m) (hk : g.Linked m) {p : Entry → Bool}
    (hp : ∀ c < 2 ^ 40, p (.link (pageAt c) .table) = true) {v r q0 : Nat} : ∀ {l q i : Nat},
    g q = some ⟨r, l, i⟩ → m.tableUnder v l q = some q0 →
      ((m.way v l q).all fun x => p x.2) = p (m.slot q0 (v % 512))
  | 0, q, _, _, hu => by
    obtain rfl := Option.some.inj hu
    exact Bool.and_true _
  | l + 1, q, i, hq, hu => by
    obtain ⟨c, hc, hu⟩ := Option.bind_eq_some_iff.mp hu
    rw [Memory.way_of_child hc, List.all_cons, hk hq (mod_slots_lt _) hc, hp c (Entry.page?_lt hc),
      Bool.true_and]
    exact h.way_all hk hp (h.child hq (mod_slots_lt _) hc) hu

/-- **The kernel's walk finds what the space maps.** -/
theorem walk_eq_of_le (h : g.Trees m) (hn : n ≤ 2 ^ 52) (t : PageTable) (va : VirtAddr)
    (hr : g.IsRoot t.root.number) : t.walk m va = .ok (m.mapped t.root.number va.page) := by
  have hpa : t.pa.pageNumber = t.root.number :=
    pageAt_pageNumber (lt_of_lt_of_le (h.installed hr) hn)
  rw [t.walk_eq va (hpa.symm ▸ h.inside va.page hr), hpa]

theorem byteAddr?_eq_of_le (h : g.Trees m) (hn : n ≤ 2 ^ 52) (t : PageTable) (va : VirtAddr)
    (hr : g.IsRoot t.root.number) :
    t.byteAddr? m va =
      .ok ((m.mapped t.root.number va.page).map (·.addr.inPage va.pageOffset)) := by
  unfold PageTable.byteAddr?
  rw [h.walk_eq_of_le hn t _ hr, va.page_pageDown]
  cases m.mapped t.root.number va.page <;> rfl

section
variable [Addressable n]

theorem descend_eq (h : g.Trees m) (va : VirtAddr) {r l q i : Nat} (hq : g q = some ⟨r, l, i⟩) :
    m.descend va l (pageAt q) =
      .ok (pageAt (m.reach va.page l q).1, (m.reach va.page l q).2) :=
  Memory.descend_eq va (h.level_le hq) (Memory.lt_of_installed (h.installed hq)) (h.inside _ hq)

theorem leafTable?_eq (h : g.Trees m) (va : VirtAddr) {r : Nat} (hr : g.IsRoot r) :
    m.leafTable? (pageAt r) va =
      .ok (if (m.reach va.page 3 r).2 = 0 then some (pageAt (m.reach va.page 3 r).1)
        else none) := by
  unfold Memory.leafTable? levels
  rw [h.descend_eq va hr]
  cases (m.reach va.page 3 r).2 <;> rfl

theorem pa_pageNumber (h : g.Trees m) (t : PageTable) (hr : g.IsRoot t.root.number) :
    t.pa.pageNumber = t.root.number :=
  pageAt_pageNumber (Memory.lt_of_installed (h.installed hr))

theorem walk_eq (h : g.Trees m) (t : PageTable) (va : VirtAddr) (hr : g.IsRoot t.root.number) :
    t.walk m va = .ok (m.mapped t.root.number va.page) :=
  h.walk_eq_of_le (Addressable.le.trans (by decide)) t va hr

theorem byteAddr?_eq (h : g.Trees m) (t : PageTable) (va : VirtAddr) (hr : g.IsRoot t.root.number) :
    t.byteAddr? m va =
      .ok ((m.mapped t.root.number va.page).map (·.addr.inPage va.pageOffset)) :=
  h.byteAddr?_eq_of_le (Addressable.le.trans (by decide)) t va hr

/-! ### The walk of the memory management unit -/

/-- The unit reaches the leaf from any table on the way, unless a level is missing. -/
theorem resolve_eq (h : g.Trees m) (hk : g.Linked m) (va : VirtAddr) {r l q i : Nat} (w u : Bool)
    (hq : g q = some ⟨r, l, i⟩) :
    m.resolve va (l + 1) ⟨pageAt q, w, u⟩ =
      .ok ((m.tableUnder va.page l q).bind fun q0 =>
        if (m.slot q0 (va.page % 512)).present && !(m.slot q0 (va.page % 512)).large then
          some ⟨(m.slot q0 (va.page % 512)).addr, w && (m.slot q0 (va.page % 512)).writable,
            u && (m.slot q0 (va.page % 512)).user⟩
        else none) := by
  rw [Memory.resolve_eq va w u (h.level_le hq) (Memory.lt_of_installed (h.installed hq))
    (h.inside _ hq)]
  refine congrArg Except.ok (Option.bind_congr fun q0 hu => ?_)
  rw [h.way_all hk (p := fun e => e.present && !e.large) (fun c hc => by
      rw [Entry.present_link hc, Entry.large_link hc]; rfl) hq hu,
    h.way_all hk (p := Entry.writable) (fun c hc => Entry.writable_link hc _) hq hu,
    h.way_all hk (p := Entry.user) (fun c hc => Entry.user_link hc _) hq hu]

/-- **The unit allows what the leaf allows.** -/
theorem locate_eq (h : g.Trees m) (hk : g.Linked m) (va : VirtAddr) {r : Nat} (hr : g.IsRoot r)
    (access : Access) (user : Bool) :
    m.locate (pageAt r) va access user =
      .ok (match m.mapped r va.page with
        | none => .error (missingPageCode access user)
        | some e =>
          if e.large then .error (missingPageCode access user)
          else if (access = .write && !e.writable) || (user && !e.user) then
            .error (missingPageCode access user ||| faultPresent)
          else .ok (e.addr.inPage va.pageOffset)) := by
  unfold Memory.locate levels
  rw [h.resolve_eq hk va true true hr, Memory.mapped, if_pos va.page_lt]
  cases m.tableUnder va.page 3 r with
  | none => rfl
  | some q0 =>
    rw [Option.bind_some, Option.bind_some]
    generalize m.slot q0 (va.page % 512) = e
    cases e.present with
    | false => rfl
    | true =>
      show _ = Except.ok (if e.large = true then _ else _)
      cases e.large with
      | true => rfl
      | false =>
        simp only [Bool.not_false, Bool.and_true, if_true, Bool.true_and, Bool.false_eq_true,
          if_false]
        show (if _ then _ else _ : Except Halt (Except UInt64 PhysAddr)) = _
        split <;> rfl

/-- A cursor gathers what the leaf allows, unless a level is missing. -/
theorem permissionBelow_eq (h : g.Trees m) (hk : g.Linked m) (va : VirtAddr) {r l q i : Nat}
    (hq : g q = some ⟨r, l, i⟩) :
    m.permissionBelow va (l + 1) (pageAt q) ⟨true, true, true, true⟩ =
      .ok (((m.tableUnder va.page l q).map fun q0 =>
        Permission.ofFlags (m.slot q0 (va.page % 512)).flags).getD .none) := by
  rw [Memory.permissionBelow_eq va _ (h.level_le hq) (Memory.lt_of_installed (h.installed hq))
    (h.inside _ hq), Memory.way_present]
  refine congrArg Except.ok ?_
  cases hu : m.tableUnder va.page l q with
  | none => rfl
  | some q0 =>
    rw [h.way_all hk (p := Entry.writable) (fun c hc => Entry.writable_link hc _) hq hu,
      h.way_all hk (p := Entry.user) (fun c hc => Entry.user_link hc _) hq hu,
      h.way_all hk (p := fun e => !e.noExecute) (fun c hc => by
        rw [Entry.noExecute_link hc]; rfl) hq hu]
    rfl

/-- **A cursor gathers what the leaf allows.** -/
theorem permission_eq (h : g.Trees m) (hk : g.Linked m) (va : VirtAddr) {r : Nat}
    (hr : g.IsRoot r) : (Cursor.mk (pageAt r) va).permission m =
      .ok (((m.mapped r va.page).map fun e => Permission.ofFlags e.flags).getD .none) := by
  unfold Cursor.permission levels
  rw [h.permissionBelow_eq hk va hr, Memory.mapped, if_pos va.page_lt]
  cases m.tableUnder va.page 3 r with
  | none => rfl
  | some q0 =>
    rw [Option.map_some, Option.bind_some, Option.getD_some]
    by_cases hp : (m.slot q0 (va.page % 512)).present = true
    · rw [if_pos hp, Option.map_some, Option.getD_some]
    · have hflag : ¬ (m.slot q0 (va.page % 512)).flags.present = true := hp
      rw [if_neg hp, Permission.ofFlags, if_neg hflag]
      rfl

/-- An access that the unit allows to the user, the leaf allows. -/
theorem locate_ok (h : g.Trees m) (hk : g.Linked m) {va : VirtAddr} {r : Nat} (hr : g.IsRoot r)
    {access : Access} {pa : PhysAddr} (hok : m.locate (pageAt r) va access true = .ok (.ok pa)) :
    ∃ e, m.mapped r va.page = some e ∧ e.user = true ∧ (access = .write → e.writable = true) ∧
      pa = e.addr.inPage va.pageOffset := by
  rw [h.locate_eq hk va hr, Except.ok.injEq] at hok
  split at hok
  · cases hok
  · next e hm =>
    split at hok
    · cases hok
    · split at hok
      · cases hok
      · next hallowed =>
        cases hok
        rw [Bool.true_and, Bool.or_eq_true, not_or, Bool.not_eq_true',
          Bool.not_eq_false] at hallowed
        refine ⟨e, hm, hallowed.2, fun hwrite => ?_, rfl⟩
        simpa [hwrite] using hallowed.1

/-- The code of a fault of the user says that a page is missing, or that it is there. -/
theorem locate_error (h : g.Trees m) (hk : g.Linked m) {va : VirtAddr} {r : Nat} (hr : g.IsRoot r)
    {access : Access} {user : Bool} {code : UInt64}
    (hok : m.locate (pageAt r) va access user = .ok (.error code)) :
    code = missingPageCode access user ∨ code = missingPageCode access user ||| faultPresent := by
  rw [h.locate_eq hk va hr, Except.ok.injEq] at hok
  split at hok
  · exact .inl (Except.error.inj hok).symm
  · split at hok
    · exact .inl (Except.error.inj hok).symm
    · split at hok
      · exact .inr (Except.error.inj hok).symm
      · cases hok

end

end Shape.Trees

end PagedKernel
