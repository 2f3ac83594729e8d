import Mathlib.Tactic.IntervalCases
import PagedKernel.AddressSpace.Cursor
import PagedKernel.Proofs.Spaces.Shape

/-!
# The way down a page table

`Memory.way` lists the tables that a walk goes through, each with the entry that it finds there; it
ends at the leaf, or at the first entry that is not present. Nothing is asked of the tables: they
may share tables, or point back to those above them, and their entries may be any words. If only
the tables on the way are installed, every reader of a page table goes this way and none of them
halts: the kernel's walk stops at the leaf that `Memory.mapped` speaks of, the memory management
unit and a cursor's permission gather what the entries on the way allow together.

Key definitions: `VirtAddr.page`, `Memory.reach`, `Memory.way`, `Memory.WayInside`.
Key theorems: `Memory.descend_eq`, `Memory.resolve_eq`, `Memory.permissionBelow_eq`,
`PageTable.readers_agree`.
-/

namespace PagedKernel

/-- The number of the page of `va` in an address space. -/
def VirtAddr.page (va : VirtAddr) : Nat :=
  va.toNat / pageSize % pagesPerSpace

theorem VirtAddr.index_eq (va : VirtAddr) {l : Nat} (hl : l ≤ 3) :
    va.index l = va.page / 512 ^ l % 512 := by
  unfold VirtAddr.index VirtAddr.page pageSize pagesPerSpace
  rw [Nat.shiftRight_eq_div_pow]
  interval_cases l <;> omega

theorem VirtAddr.index_zero (va : VirtAddr) : va.index 0 = va.page % 512 := by
  rw [va.index_eq (by decide), Nat.pow_zero, Nat.div_one]

theorem VirtAddr.page_lt (va : VirtAddr) : va.page < pagesPerSpace :=
  Nat.mod_lt _ (by unfold pagesPerSpace; decide)

theorem VirtAddr.toNat_pageDown (va : VirtAddr) :
    va.pageDown.toNat = va.toNat / pageSize * pageSize := by
  have := va.val.toNat_lt
  unfold VirtAddr.pageDown VirtAddr.toNat pageSize
  rw [UInt64.toNat_mul, UInt64.toNat_div]
  have h4096 : (4096 : UInt64).toNat = 4096 := rfl
  rw [h4096, Nat.mod_eq_of_lt (by omega)]

theorem VirtAddr.page_pageDown (va : VirtAddr) : va.pageDown.page = va.page := by
  unfold VirtAddr.page
  rw [va.toNat_pageDown, Nat.mul_div_cancel _ (by decide)]

theorem VirtAddr.isAligned_pageDown (va : VirtAddr) : va.pageDown.isAligned = true := by
  unfold VirtAddr.isAligned
  rw [va.toNat_pageDown, Nat.mul_mod_left]
  rfl

namespace Memory

variable {n : Nat} {m : Memory n}

/-- The last table on the way of page number `v` from the table of level `l` in page `q`, and the
number of levels that are missing below it. -/
def reach (m : Memory n) (v : Nat) : Nat → Nat → Nat × Nat
  | 0, q => (q, 0)
  | l + 1, q =>
    match (m.slot q (v / 512 ^ (l + 1) % 512)).page? with
    | some c => m.reach v l c
    | none => (q, l + 1)

/-- The tables on the way of page number `v` from the table of level `l` in page `q` down, each with
its entry for the page. The way ends at an entry that is not present, or at the leaf. -/
def way (m : Memory n) (v : Nat) : Nat → Nat → List (Nat × Entry)
  | 0, q => [(q, m.slot q (v % 512))]
  | l + 1, q =>
    (q, m.slot q (v / 512 ^ (l + 1) % 512)) ::
      match (m.slot q (v / 512 ^ (l + 1) % 512)).page? with
      | some c => m.way v l c
      | none => []

/-- All tables on the way are installed. -/
def WayInside (m : Memory n) (v l q : Nat) : Prop :=
  ∀ p ∈ m.way v l q, p.1 < n

theorem mem_way_self (m : Memory n) (v l q : Nat) : ∃ e, (q, e) ∈ m.way v l q := by
  cases l <;> exact ⟨_, List.mem_cons_self⟩

theorem way_of_child {v l q c : Nat} (hc : (m.slot q (v / 512 ^ (l + 1) % 512)).page? = some c) :
    m.way v (l + 1) q = (q, m.slot q (v / 512 ^ (l + 1) % 512)) :: m.way v l c := by
  rw [way, hc]

theorem way_of_missing {v l q : Nat} (hs : (m.slot q (v / 512 ^ (l + 1) % 512)).page? = none) :
    m.way v (l + 1) q = [(q, m.slot q (v / 512 ^ (l + 1) % 512))] := by
  rw [way, hs]

theorem WayInside.lt {v l q : Nat} (h : m.WayInside v l q) : q < n := by
  obtain ⟨e, he⟩ := m.mem_way_self v l q
  exact h _ he

theorem WayInside.child {v l q c : Nat} (h : m.WayInside v (l + 1) q)
    (hc : (m.slot q (v / 512 ^ (l + 1) % 512)).page? = some c) : m.WayInside v l c := by
  intro p hp
  refine h p ?_
  rw [way_of_child hc]
  exact List.mem_cons_of_mem _ hp

/-! ### What is present -/

/-- There is a table for the leaf just if no level is missing. -/
theorem tableUnder_eq_reach (m : Memory n) (v : Nat) : ∀ l q,
    m.tableUnder v l q = if (m.reach v l q).2 = 0 then some (m.reach v l q).1 else none
  | 0, _ => rfl
  | l + 1, q => by
    rw [tableUnder, reach]
    cases (m.slot q (v / 512 ^ (l + 1) % 512)).page? with
    | none => rfl
    | some c => exact m.tableUnder_eq_reach v l c

/-- All entries on the way are present just if there is a leaf and it is. -/
theorem way_present (m : Memory n) (v : Nat) : ∀ l q,
    ((m.way v l q).all fun p => p.2.present) =
      (m.tableUnder v l q).any fun q0 => (m.slot q0 (v % 512)).present
  | 0, q => Bool.and_true _
  | l + 1, q => by
    cases hs : (m.slot q (v / 512 ^ (l + 1) % 512)).page? with
    | none =>
      rw [way_of_missing hs, tableUnder, hs, List.all_cons, Entry.page?_eq_none.mp hs]
      rfl
    | some c =>
      rw [way_of_child hs, tableUnder, hs, List.all_cons, Entry.present_of_page? hs, Bool.true_and,
        Option.bind_some]
      exact m.way_present v l c

/-- What a space maps at a page is its leaf, if all entries on the way are present. -/
theorem isSome_mapped (m : Memory n) (r : Nat) {v : Nat} (hv : v < pagesPerSpace) :
    (m.mapped r v).isSome = (m.way v 3 r).all fun p => p.2.present := by
  rw [way_present, mapped, if_pos hv]
  cases m.tableUnder v 3 r with
  | none => rfl
  | some q0 =>
    rw [Option.bind_some, Option.any_some]
    cases (m.slot q0 (v % 512)).present <;> rfl

/-! ### The walk of the kernel -/

/-- The kernel goes down as far as the entries are present. -/
theorem descend_eq (va : VirtAddr) : ∀ {l q : Nat}, l ≤ 3 → q < 2 ^ 52 →
    m.WayInside va.page l q →
      m.descend va l (pageAt q) =
        .ok (pageAt (m.reach va.page l q).1, (m.reach va.page l q).2)
  | 0, _, _, _, _ => rfl
  | l + 1, q, hl, hq, h => by
    rw [descend, va.index_eq hl, m.readEntry_of_lt hq h.lt (mod_slots_lt _), reach]
    cases hs : (m.slot q (va.page / 512 ^ (l + 1) % 512)).page? with
    | none =>
      dsimp only [bind, Except.bind]
      rw [Entry.addr?_of_page?_none hs]
      rfl
    | some c =>
      have hc := Entry.page?_lt hs
      dsimp only [bind, Except.bind]
      rw [Entry.addr?_of_page? hs]
      exact descend_eq va (by omega) (by omega) (h.child hs)

/-- The table that holds the leaf is on the way. -/
theorem tableUnder_mem_way {v q0 : Nat} : ∀ {l q : Nat}, m.tableUnder v l q = some q0 →
    (q0, m.slot q0 (v % 512)) ∈ m.way v l q
  | 0, q, h => by
    obtain rfl := Option.some.inj h
    exact List.mem_cons_self
  | l + 1, q, h => by
    obtain ⟨c, hc, h⟩ := Option.bind_eq_some_iff.mp h
    rw [way_of_child hc]
    exact List.mem_cons_of_mem _ (tableUnder_mem_way h)

theorem tableUnder_lt {v q0 : Nat} : ∀ {l q : Nat}, q < 2 ^ 52 → m.tableUnder v l q = some q0 →
    q0 < 2 ^ 52
  | 0, q, hq, h => by
    obtain rfl := Option.some.inj h
    exact hq
  | l + 1, q, _, h => by
    obtain ⟨c, hc, h⟩ := Option.bind_eq_some_iff.mp h
    have hlt := Entry.page?_lt hc
    exact tableUnder_lt (by omega) h

theorem leafTable?_eq (va : VirtAddr) {r : Nat} (hr : r < 2 ^ 52) (h : m.WayInside va.page 3 r) :
    m.leafTable? (pageAt r) va = .ok ((m.tableUnder va.page 3 r).map pageAt) := by
  unfold leafTable? levels
  rw [descend_eq va le_rfl hr h, tableUnder_eq_reach]
  cases (m.reach va.page 3 r).2 <;> rfl

/-- The leaf, present or not; the empty entry if a level is missing. -/
theorem leaf_eq (va : VirtAddr) {r : Nat} (hr : r < 2 ^ 52) (h : m.WayInside va.page 3 r) :
    m.leaf (pageAt r) va =
      .ok ((m.tableUnder va.page 3 r).elim .empty fun q => m.slot q (va.page % 512)) := by
  unfold leaf
  rw [leafTable?_eq va hr h]
  cases hq : m.tableUnder va.page 3 r with
  | none => rfl
  | some q =>
    show m.readEntry (pageAt q) (va.index 0) = _
    rw [va.index_zero]
    exact m.readEntry_of_lt (tableUnder_lt hr hq) (h _ (tableUnder_mem_way hq)) (mod_slots_lt _)

/-! ### What the entries allow together -/

/-- The memory management unit gathers what the entries on the way allow, unless one of them is not
present or asks for a large page. -/
theorem resolve_eq (va : VirtAddr) : ∀ {l q : Nat} (w u : Bool), l ≤ 3 → q < 2 ^ 52 →
    m.WayInside va.page l q →
      m.resolve va (l + 1) ⟨pageAt q, w, u⟩ =
        .ok ((m.tableUnder va.page l q).bind fun q0 =>
          if (m.way va.page l q).all fun p => p.2.present && !p.2.large then
            some ⟨(m.slot q0 (va.page % 512)).addr,
              w && (m.way va.page l q).all fun p => p.2.writable,
              u && (m.way va.page l q).all fun p => p.2.user⟩
          else none)
  | 0, q, w, u, _, hq, h => by
    rw [resolve, va.index_zero, m.readEntry_of_lt hq h.lt (mod_slots_lt _), tableUnder, way,
      Option.bind_some]
    generalize m.slot q (va.page % 512) = e
    simp only [bind, Except.bind, List.all_cons, List.all_nil, Bool.and_true]
    unfold Entry.addr?
    cases e.present <;> cases e.large <;> rfl
  | l + 1, q, w, u, hl, hq, h => by
    rw [resolve, va.index_eq hl, m.readEntry_of_lt hq h.lt (mod_slots_lt _), tableUnder]
    cases hs : (m.slot q (va.page / 512 ^ (l + 1) % 512)).page? with
    | none =>
      dsimp only [bind, Except.bind]
      rw [Entry.addr?_of_page?_none hs]
      rfl
    | some c =>
      have hc := Entry.page?_lt hs
      dsimp only [bind, Except.bind]
      rw [Entry.addr?_of_page? hs, Option.bind_some, way_of_child hs]
      simp only [List.all_cons, Entry.present_of_page? hs, Bool.true_and, ← Bool.and_assoc]
      cases hlarge : (m.slot q (va.page / 512 ^ (l + 1) % 512)).large with
      | true => cases m.tableUnder va.page l c <;> rfl
      | false => exact resolve_eq va _ _ (by omega) (by omega) (h.child hs)

/-- A cursor gathers what the entries on the way allow, unless one of them is not present. -/
theorem permissionBelow_eq (va : VirtAddr) : ∀ {l q : Nat} (perm : Permission), l ≤ 3 →
    q < 2 ^ 52 → m.WayInside va.page l q →
      m.permissionBelow va (l + 1) (pageAt q) perm =
        .ok (if (m.way va.page l q).all fun p => p.2.present then
          { perm with
            write := perm.write && (m.way va.page l q).all fun p => p.2.writable
            user := perm.user && (m.way va.page l q).all fun p => p.2.user
            execute := perm.execute && (m.way va.page l q).all fun p => !p.2.noExecute }
        else .none)
  | 0, q, perm, _, hq, h => by
    rw [permissionBelow, va.index_zero, m.readEntry_of_lt hq h.lt (mod_slots_lt _), way]
    generalize m.slot q (va.page % 512) = e
    simp only [bind, Except.bind, List.all_cons, List.all_nil, Bool.and_true]
    unfold Entry.addr?
    cases e.present <;> rfl
  | l + 1, q, perm, hl, hq, h => by
    rw [permissionBelow, va.index_eq hl, m.readEntry_of_lt hq h.lt (mod_slots_lt _)]
    cases hs : (m.slot q (va.page / 512 ^ (l + 1) % 512)).page? with
    | none =>
      dsimp only [bind, Except.bind]
      rw [Entry.addr?_of_page?_none hs, way_of_missing hs, List.all_cons,
        Entry.page?_eq_none.mp hs]
      rfl
    | some c =>
      have hc := Entry.page?_lt hs
      dsimp only [bind, Except.bind]
      rw [Entry.addr?_of_page? hs, way_of_child hs]
      simp only [List.all_cons, Entry.present_of_page? hs, Bool.true_and, ← Bool.and_assoc]
      exact permissionBelow_eq va _ (by omega) (by omega) (h.child hs)

/-- **The unit allows what all entries on the way allow**, if none of them asks for a large page. -/
theorem locate_eq (va : VirtAddr) {r : Nat} (hr : r < 2 ^ 52) (h : m.WayInside va.page 3 r)
    (hsmall : ∀ p ∈ m.way va.page 3 r, p.2.large = false) (access : Access) (user : Bool) :
    m.locate (pageAt r) va access user =
      .ok (match m.mapped r va.page with
        | none => .error (missingPageCode access user)
        | some e =>
          if (access = .write && !(m.way va.page 3 r).all fun p => p.2.writable) ||
              (user && !(m.way va.page 3 r).all fun p => p.2.user) then
            .error (missingPageCode access user ||| faultPresent)
          else .ok (e.addr.inPage va.pageOffset)) := by
  have hall : ((m.way va.page 3 r).all fun p => p.2.present && !p.2.large) =
      (m.way va.page 3 r).all fun p => p.2.present := by
    rw [Bool.eq_iff_iff, List.all_eq_true, List.all_eq_true]
    refine forall₂_congr fun p hp => ?_
    rw [hsmall p hp, Bool.not_false, Bool.and_true]
  unfold locate levels
  rw [resolve_eq va true true le_rfl hr h, hall, way_present, mapped, if_pos va.page_lt]
  cases m.tableUnder va.page 3 r with
  | none => rfl
  | some q0 =>
    rw [Option.bind_some, Option.bind_some, Option.any_some]
    cases (m.slot q0 (va.page % 512)).present with
    | false => rfl
    | true =>
      simp only [if_true, Bool.true_and]
      show (if _ then _ else _ : Except Halt (Except UInt64 PhysAddr)) = _
      split <;> rfl

end Memory

/-! ### The readers agree -/

section
variable {n : Nat} {m : Memory n}

theorem PhysAddr.pageNumber_lt (pa : PhysAddr) : pa.pageNumber < 2 ^ 52 := by
  have := pa.val.toNat_lt
  unfold pageNumber toNat pageSize
  omega

theorem PageTable.pa_eq (t : PageTable) : t.pa = pageAt t.pa.pageNumber := by
  refine eq_pageAt_pageNumber ?_
  unfold PageTable.pa FrameRef.pa PhysAddr.ofPageNumber PhysAddr.toNat pageSize
  rw [UInt64.toNat_shiftLeft, Nat.shiftLeft_eq, show (12 : UInt64).toNat % 64 = 12 from rfl]
  omega

theorem PageTable.leaf_eq (t : PageTable) (va : VirtAddr)
    (h : m.WayInside va.page 3 t.pa.pageNumber) :
    m.leaf t.pa va =
      .ok ((m.tableUnder va.page 3 t.pa.pageNumber).elim .empty fun q =>
        m.slot q (va.page % 512)) := by
  have hleaf := Memory.leaf_eq va t.pa.pageNumber_lt h
  rwa [← t.pa_eq] at hleaf

/-- **The kernel's walk finds what the table maps**, if the tables on the way are installed. -/
theorem PageTable.walk_eq (t : PageTable) (va : VirtAddr)
    (h : m.WayInside va.page 3 t.pa.pageNumber) :
    t.walk m va = .ok (m.mapped t.pa.pageNumber va.page) := by
  unfold walk
  rw [t.leaf_eq va h, Memory.mapped, if_pos va.page_lt]
  cases m.tableUnder va.page 3 t.pa.pageNumber with
  | none =>
    show Except.ok (if Entry.empty.present then some Entry.empty else none) = _
    rfl
  | some q => rfl

/-- What a cursor sees at an address is what the table maps there. -/
theorem PageTable.cursor_present (t : PageTable) (va : VirtAddr)
    (h : m.WayInside va.page 3 t.pa.pageNumber) :
    (t.cursor va).present m = .ok (m.mapped t.pa.pageNumber va.page).isSome := by
  unfold Cursor.present Cursor.entry cursor
  rw [t.leaf_eq va h, Memory.isSome_mapped _ _ va.page_lt, Memory.way_present]
  cases m.tableUnder va.page 3 t.pa.pageNumber with
  | none =>
    show Except.ok Entry.empty.present = _
    rfl
  | some q => rfl

theorem PageTable.cursor_addr? (t : PageTable) (va : VirtAddr)
    (h : m.WayInside va.page 3 t.pa.pageNumber) :
    (t.cursor va).addr? m =
      .ok ((m.mapped t.pa.pageNumber va.page).map (·.addr.inPage va.pageOffset)) := by
  unfold Cursor.addr? Cursor.entry cursor
  rw [t.leaf_eq va h, Memory.mapped, if_pos va.page_lt]
  cases m.tableUnder va.page 3 t.pa.pageNumber with
  | none =>
    show Except.ok (Entry.empty.addr?.map _) = _
    rfl
  | some q =>
    dsimp only [Option.elim, Option.bind_some, bind, Except.bind]
    unfold Entry.addr?
    cases (m.slot q (va.page % 512)).present <;> rfl

/-- What a cursor gathers at an address is what all entries on the way allow. -/
theorem PageTable.cursor_permission (t : PageTable) (va : VirtAddr)
    (h : m.WayInside va.page 3 t.pa.pageNumber) :
    (t.cursor va).permission m =
      .ok (if (m.mapped t.pa.pageNumber va.page).isSome then
        ⟨true, (m.way va.page 3 t.pa.pageNumber).all fun p => p.2.writable,
          (m.way va.page 3 t.pa.pageNumber).all fun p => !p.2.noExecute,
          (m.way va.page 3 t.pa.pageNumber).all fun p => p.2.user⟩
      else .none) := by
  have hbelow := Memory.permissionBelow_eq va ⟨true, true, true, true⟩ le_rfl t.pa.pageNumber_lt h
  rw [← t.pa_eq] at hbelow
  unfold Cursor.permission levels cursor
  rw [hbelow, Memory.isSome_mapped _ _ va.page_lt]
  rfl

/-- The bits of a page fault's code: whether the page is there, and which access was tried. -/
structure FaultSays (code : UInt64) (present : Bool) (access : Access) (user : Bool) : Prop where
  present : code &&& faultPresent ≠ 0 ↔ present = true
  write : code &&& faultWrite ≠ 0 ↔ access = .write
  user : code &&& faultUser ≠ 0 ↔ user = true

theorem faultSays_missing (access : Access) (user : Bool) :
    FaultSays (missingPageCode access user) false access user := by
  constructor <;> cases access <;> cases user <;> decide

theorem faultSays_present (access : Access) (user : Bool) :
    FaultSays (missingPageCode access user ||| faultPresent) true access user := by
  constructor <;> cases access <;> cases user <;> decide

/-- What the readers of a page table say of `va`, if the kernel's walk finds the leaf `found` there,
and a cursor the physical address `pa` with the permission `perm`. -/
structure PageTable.Readings (t : PageTable) (m : Memory n) (va : VirtAddr) (found : Option Entry)
    (pa : Option PhysAddr) (perm : Permission) : Prop where
  walk : t.walk m va = .ok found
  present : (t.cursor va).present m = .ok found.isSome
  addr : (t.cursor va).addr? m = .ok pa
  permission : (t.cursor va).permission m = .ok perm
  addr_isSome : pa.isSome = found.isSome
  /-- The memory management unit locates a read of the kernel just where the cursor does. -/
  locate_read : ∀ a, m.locate t.pa va .read false = .ok (.ok a) ↔ pa = some a
  /-- Every other access goes to the same address, if the permission allows it, and raises a fault
  whose code says why if not. -/
  locate : ∀ access user, ∃ answer, m.locate t.pa va access user = .ok answer ∧
    (∀ a, answer = .ok a ↔
      pa = some a ∧ (user = true → perm.user = true) ∧ (access = .write → perm.write = true)) ∧
    ∀ code, answer = .error code → FaultSays code found.isSome access user

/-- **The readers of a page table agree.** Wherever the tables on the way of an address are
installed and no entry there asks for a large page, the kernel's walk, the cursor and the memory
management unit find the same page; and the unit refuses just the accesses that the cursor's
permission does not allow. -/
theorem PageTable.readers_agree (t : PageTable) (va : VirtAddr)
    (hinside : m.WayInside va.page 3 t.pa.pageNumber)
    (hsmall : ∀ p ∈ m.way va.page 3 t.pa.pageNumber, p.2.large = false) :
    ∃ found pa perm, t.Readings m va found pa perm := by
  have hlocate := Memory.locate_eq va t.pa.pageNumber_lt hinside hsmall
  rw [← t.pa_eq] at hlocate
  refine ⟨_, _, _, t.walk_eq va hinside, t.cursor_present va hinside, t.cursor_addr? va hinside,
    t.cursor_permission va hinside, Option.isSome_map, fun a => ?_, fun access user => ?_⟩
  · rw [hlocate]
    cases m.mapped t.pa.pageNumber va.page <;> simp
  · refine ⟨_, hlocate access user, ?_, ?_⟩
    · intro a
      cases m.mapped t.pa.pageNumber va.page with
      | none => simp
      | some e =>
        generalize (m.way va.page 3 t.pa.pageNumber).all (fun p => p.2.writable) = w
        generalize (m.way va.page 3 t.pa.pageNumber).all (fun p => p.2.user) = u
        cases user <;> cases access <;> cases w <;> cases u <;> simp
    · intro code hcode
      cases hm : m.mapped t.pa.pageNumber va.page with
      | none =>
        rw [hm] at hcode
        cases hcode
        exact faultSays_missing access user
      | some e =>
        rw [hm] at hcode
        dsimp only at hcode
        split at hcode
        · cases hcode
          exact faultSays_present access user
        · cases hcode

end

/-! ### A table that points to itself -/

/-- One page that is a table of every level: its first entry points back to it. -/
def Memory.selfMapped : Memory 1 :=
  (Memory.zeroed 1).setSlot 0 0 (.link (pageAt 0) .table)

theorem Memory.slot_selfMapped {s : Nat} (hs : s < 512) :
    Memory.selfMapped.slot 0 s = if s = 0 then .link (pageAt 0) .table else .empty := by
  rw [selfMapped, slot_setSlot (by decide) (by decide) hs, slot_zeroed hs]
  simp only [true_and]

theorem Memory.selfMapped_child {s c : Nat} (hs : s < 512)
    (hc : (Memory.selfMapped.slot 0 s).page? = some c) : c = 0 := by
  rw [slot_selfMapped hs] at hc
  split at hc
  · rw [Entry.page?_link (by decide) rfl] at hc
    exact (Option.some.inj hc).symm
  · cases hc

theorem Memory.mem_way_selfMapped {p : Nat × Entry} : ∀ {l : Nat},
    p ∈ Memory.selfMapped.way 0 l 0 → p = (0, .link (pageAt 0) .table)
  | 0, hp => by
    rw [way, Nat.zero_mod, slot_selfMapped (by decide)] at hp
    exact List.mem_singleton.mp hp
  | l + 1, hp => by
    rw [way, Nat.zero_div, Nat.zero_mod, slot_selfMapped (by decide), if_pos rfl,
      Entry.page?_link (by decide) rfl] at hp
    rcases List.mem_cons.mp hp with rfl | hp
    · rfl
    · exact mem_way_selfMapped hp

theorem Memory.mapped_selfMapped :
    Memory.selfMapped.mapped 0 0 = some (.link (pageAt 0) .table) := by
  have hunder : ∀ l, Memory.selfMapped.tableUnder 0 l 0 = some 0 := by
    intro l
    induction l with
    | zero => rfl
    | succ l ih =>
      rw [tableUnder, Nat.zero_div, Nat.zero_mod, slot_selfMapped (by decide), if_pos rfl,
        Entry.page?_link (by decide) rfl, Option.bind_some, ih]
  rw [mapped, if_pos (by unfold pagesPerSpace; decide), hunder, Option.bind_some, Nat.zero_mod,
    slot_selfMapped (by decide), if_pos rfl, Entry.present_link (by decide)]
  rfl

theorem PageTable.readers_agree_selfMapped : ∃ pa perm,
    PageTable.Readings ⟨⟨0⟩⟩ Memory.selfMapped ⟨0⟩ (some (.link (pageAt 0) .table)) pa perm := by
  have hpage : (VirtAddr.mk 0).page = 0 := by decide
  have hroot : (PageTable.mk ⟨0⟩).pa.pageNumber = 0 := by decide
  have hway : ∀ p ∈ Memory.selfMapped.way (VirtAddr.mk 0).page 3
      (PageTable.mk ⟨0⟩).pa.pageNumber, p = (0, .link (pageAt 0) .table) := by
    rw [hpage, hroot]
    exact fun p hp => Memory.mem_way_selfMapped hp
  have hinside : Memory.selfMapped.WayInside (VirtAddr.mk 0).page 3
      (PageTable.mk ⟨0⟩).pa.pageNumber := fun p hp => by
    rw [hway p hp]
    decide
  obtain ⟨found, pa, perm, h⟩ := PageTable.readers_agree ⟨⟨0⟩⟩ ⟨0⟩ hinside fun p hp => by
    rw [hway p hp]
    exact Entry.large_link (by decide) _
  have hfound := (PageTable.walk_eq ⟨⟨0⟩⟩ ⟨0⟩ hinside).symm.trans h.walk
  rw [hpage, hroot, Memory.mapped_selfMapped, Except.ok.injEq] at hfound
  exact ⟨pa, perm, hfound.symm ▸ h⟩

end PagedKernel
