import PagedKernel.AddressSpace.PageTable

/-!
# What a page table holds

`PageTable.mappings` lists the leaves of a page table in the order of their addresses, and
`PageTable.tablePages` its tables, every table before those below it. Both go through the tables
level by level; the listing of the leaves passes over entries that map nothing in the range.

Key definitions: `slotsMeeting`, `PageTable.mappings`, `PageTable.tablePages`.
-/

namespace PagedKernel

variable {n : Nat}

/-- The bytes that one entry of a table of level `level` maps. -/
def slotSpan (level : Nat) : Nat :=
  pageSize <<< (9 * level)

/-- A mapping: an address, and the leaf that maps it. -/
abbrev Mapping := VirtAddr × Entry

/-- The address `addr` with its leaf, if the address is canonical. -/
def mappingAt (addr : Nat) (e : Entry) : List Mapping :=
  match VirtAddr.ofWord? (UInt64.ofNat addr) with
  | some va => [(va, e)]
  | none => []

/-- The slots of a table of level `level` that maps from `base` on and meet the addresses from `lo`
to before `hi`: from the slot of `lo` on, up to that of the last address before `hi`. -/
def slotsMeeting (level base lo hi : Nat) : List Nat :=
  let span := slotSpan level
  let first := (lo - base) / span
  let past := min slotsPerTable ((hi - base + span - 1) / span)
  List.range' first (past - first)

theorem slotSpan_pos (level : Nat) : 0 < slotSpan level := by
  rw [slotSpan, Nat.shiftLeft_eq]
  exact Nat.mul_pos (by decide) (Nat.two_pow_pos _)

theorem mem_slotsMeeting {level base lo hi slot : Nat} :
    slot ∈ slotsMeeting level base lo hi ↔
      slot < slotsPerTable ∧ base + slot * slotSpan level < hi ∧
        lo < base + slot * slotSpan level + slotSpan level := by
  have pos := slotSpan_pos level
  have first : (lo - base) / slotSpan level ≤ slot ↔
      lo < base + slot * slotSpan level + slotSpan level := by
    rw [← Nat.lt_succ_iff, Nat.div_lt_iff_lt_mul pos, Nat.succ_mul]
    omega
  have past : slot < (hi - base + slotSpan level - 1) / slotSpan level ↔
      base + slot * slotSpan level < hi := by
    rw [← Nat.succ_le_iff, Nat.le_div_iff_mul_le pos, Nat.succ_mul]
    omega
  rw [slotsMeeting, List.mem_range'_1, ← first, ← past]
  omega

/-- The leaves at or below the table of level `level` at `table`, which maps from `base` on, for the
addresses from `lo` to before `hi`. -/
def Memory.leaves (m : Memory n) (lo hi : Nat) :
    Nat → PhysAddr → Nat → Except Halt (List Mapping)
  | 0, table, base =>
    (slotsMeeting 0 base lo hi).flatMapM fun slot => do
      let e ← m.readEntry table slot
      return if e.present then mappingAt (base + slot * slotSpan 0) e else []
  | level + 1, table, base =>
    (slotsMeeting (level + 1) base lo hi).flatMapM fun slot => do
      match (← m.readEntry table slot).addr? with
      | some next => m.leaves lo hi level next (base + slot * slotSpan (level + 1))
      | none => return []

/-- The tables at and below the table of level `level` at `table`. -/
def Memory.tables (m : Memory n) : Nat → PhysAddr → Except Halt (List PhysAddr)
  | 0, table => .ok [table]
  | level + 1, table => do
    let below ← tableSlots.flatMapM fun slot => do
      match (← m.readEntry table slot).addr? with
      | some next => m.tables level next
      | none => return []
    return table :: below

namespace PageTable

/-- Every leaf for an address from `lo` to before `hi`, in the order of the addresses. -/
def mappings (t : PageTable) (m : Memory n) (lo hi : Nat) : Except Halt (List Mapping) :=
  m.leaves lo hi (levels - 1) t.pa 0

/-- The addresses of all tables, the root first. -/
def tablePages (t : PageTable) (m : Memory n) : Except Halt (List PhysAddr) :=
  m.tables (levels - 1) t.pa

/-- The numbers of the pages that hold the tables. -/
def tableNumbers (t : PageTable) (m : Memory n) : Except Halt (List Nat) := do
  return (← t.tablePages m).map PhysAddr.pageNumber

/-- The numbers of the pages that are mapped in the address space of a process, once for each leaf
for which `p` holds. -/
def mappedNumbers (t : PageTable) (m : Memory n) (p : Entry → Bool) : Except Halt (List Nat) := do
  let mappings ← t.mappings m 0 virtualSize
  return (mappings.filter fun mapping => p mapping.2).map (·.2.addr.pageNumber)

end PageTable

end PagedKernel
