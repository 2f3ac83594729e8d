import PagedKernel.Machine.Cpu
import PagedKernel.Proofs.Spaces.Walks

/-!
# Confined programs

A program sees the memory through its page table: at each canonical address, and for each kind of
access, there is a byte or the code of a page fault (`Core.seen`). It is confined if no walk leaves
the memory, and if a page that it can write holds no entry that a walk reads and is found at one
page of its addresses only. Nothing is asked of the tables besides: they may share parts, or hold
entries that the kernel would not write.

What a confined program writes changes what it sees at the address that it writes to, and nowhere
else. So it stays confined, and no walk ever ends elsewhere.

Key definitions: `Core.seen`, `Core.Finds`, `Core.Confined`, `Core.Keeps`.
Key theorems: `Core.Keeps.locate`, `Core.Confined.of_keeps`, `Core.Confined.seen_putByte`.
-/

namespace PagedKernel

variable {n : Nat}

theorem PhysAddr.eq_of_add {pa pa' : PhysAddr} {w : UInt64} (h : pa.add w = .ok pa') :
    pa' = ⟨pa.val + w⟩ := by
  unfold PhysAddr.add Word.add at h
  by_cases hfits : pa.val.toNat + w.toNat < UInt64.size
  · rw [if_pos hfits] at h
    cases h
    rfl
  · rw [if_neg hfits] at h
    cases h

namespace Memory

variable {m m' : Memory n} {va : VirtAddr}

/-! ### The entries that a walk reads -/

/-- The addresses of the entries that the unit reads on the way of `va`, from a table of level
`k - 1` down. -/
def entriesRead (m : Memory n) (va : VirtAddr) : Nat → PhysAddr → List PhysAddr
  | 0, _ => []
  | level + 1, table =>
    table.inPage (8 * va.index level) ::
      match m.readEntry table (va.index level) with
      | .ok e =>
        match e.addr? with
        | some next => if e.large then [] else m.entriesRead va level next
        | none => []
      | .error _ => []

/-- The memories have the same bytes in each of the entries at `l`. -/
def SameEntries (m m' : Memory n) (l : List PhysAddr) : Prop :=
  ∀ pa ∈ l, ∀ i < 8, m'.byte (pa.toNat + i) = m.byte (pa.toNat + i)

theorem word_congr {a : Nat} (h : ∀ i < 8, m'.byte (a + i) = m.byte (a + i)) :
    m'.word a = m.word a :=
  (word_of_bytes h).trans (word_of_bytes fun _ _ => rfl).symm

theorem readWord_congr {pa : PhysAddr}
    (h : ∀ i < 8, m'.byte (pa.toNat + i) = m.byte (pa.toNat + i)) :
    m'.readWord pa = m.readWord pa := by
  unfold readWord
  rw [word_congr h]
  rfl

theorem readEntry_congr {table : PhysAddr} {slot : Nat}
    (h : ∀ i < 8, m'.byte ((table.inPage (8 * slot)).toNat + i) =
      m.byte ((table.inPage (8 * slot)).toNat + i)) :
    m'.readEntry table slot = m.readEntry table slot := by
  unfold readEntry
  by_cases hslot : slot < slotsPerTable
  · rw [if_pos hslot, if_pos hslot]
    cases hadd : table.add (UInt64.ofNat (8 * slot)) with
    | error e => simp only [bind, Except.bind]
    | ok pa =>
      have hpa : pa = table.inPage (8 * slot) := PhysAddr.eq_of_add hadd
      simp only [bind, Except.bind]
      rw [hpa, readWord_congr h]
  · rw [if_neg hslot, if_neg hslot]

/-- **A walk depends on the entries that it reads**, and on nothing else. -/
theorem resolve_congr : ∀ {k : Nat} {r : Reached}, m.SameEntries m' (m.entriesRead va k r.base) →
    m'.resolve va k r = m.resolve va k r ∧
      m'.entriesRead va k r.base = m.entriesRead va k r.base
  | 0, _, _ => ⟨rfl, rfl⟩
  | k + 1, r, h => by
    rw [entriesRead] at h
    have hread := readEntry_congr (h _ List.mem_cons_self)
    rw [resolve, resolve, entriesRead, entriesRead, hread]
    cases he : m.readEntry r.base (va.index k) with
    | error e => simp only [bind, Except.bind, and_self]
    | ok e =>
      rw [he] at h
      dsimp only [bind, Except.bind] at h ⊢
      cases ha : e.addr? with
      | none => simp only [and_self]
      | some next =>
        rw [ha] at h
        dsimp only at h ⊢
        by_cases hl : e.large = true
        · rw [if_pos hl, if_pos hl, if_pos hl, if_pos hl]
          exact ⟨rfl, rfl⟩
        · rw [if_neg hl] at h
          rw [if_neg hl, if_neg hl, if_neg hl, if_neg hl]
          obtain ⟨hres, hentries⟩ :=
            resolve_congr (r := ⟨next, r.writable && e.writable, r.user && e.user⟩)
              fun pa hpa => h pa (List.mem_cons_of_mem _ hpa)
          exact ⟨hres, by rw [hentries]⟩

theorem locate_congr {cr3 : PhysAddr} (h : m.SameEntries m' (m.entriesRead va levels cr3))
    (access : Access) (user : Bool) :
    m'.locate cr3 va access user = m.locate cr3 va access user := by
  have hres := (resolve_congr (r := ⟨cr3, true, true⟩) h).1
  unfold locate
  rw [hres]

/-- A walk ends in a page that an entry points to. -/
theorem base_of_resolve : ∀ {k : Nat} {r r' : Reached}, m.resolve va (k + 1) r = .ok (some r') →
    ∃ e : Entry, r'.base = e.addr
  | k, r, r', h => by
    rw [resolve] at h
    cases he : m.readEntry r.base (va.index k) with
    | error e =>
      rw [he] at h
      cases h
    | ok e =>
      rw [he] at h
      dsimp only [bind, Except.bind] at h
      unfold Entry.addr? at h
      by_cases hp : e.present = true
      · rw [if_pos hp] at h
        dsimp only at h
        by_cases hl : e.large = true
        · rw [if_pos hl] at h
          cases h
        · rw [if_neg hl] at h
          cases k with
          | zero =>
            cases h
            exact ⟨e, rfl⟩
          | succ k => exact base_of_resolve h
      · rw [if_neg hp] at h
        cases h

/-- What is located is where the walk ends. -/
theorem resolve_of_locate {cr3 : PhysAddr} {access : Access} {user : Bool} {pa : PhysAddr}
    (h : m.locate cr3 va access user = .ok (.ok pa)) :
    ∃ r, m.resolve va levels ⟨cr3, true, true⟩ = .ok (some r) ∧
      pa = r.base.inPage va.pageOffset := by
  unfold locate at h
  cases hr : m.resolve va levels ⟨cr3, true, true⟩ with
  | error e =>
    rw [hr] at h
    cases h
  | ok found =>
    rw [hr] at h
    dsimp only [bind, Except.bind] at h
    cases found with
    | none => cases h
    | some r =>
      dsimp only at h
      split at h
      · cases h
      · cases h
        exact ⟨r, rfl, rfl⟩

/-- What is located lies in its page as the virtual address does. -/
theorem place_of_locate {cr3 : PhysAddr} {access : Access} {user : Bool} {pa : PhysAddr}
    (h : m.locate cr3 va access user = .ok (.ok pa)) :
    pa.toNat = pa.pageNumber * pageSize + va.pageOffset := by
  obtain ⟨r, hr, rfl⟩ := resolve_of_locate h
  obtain ⟨e, he⟩ := base_of_resolve hr
  have hlt : e.addr.pageNumber < 2 ^ 40 := by
    have haddr := e.addr_toNat_lt
    unfold PhysAddr.pageNumber pageSize
    omega
  have hoff : va.pageOffset < pageSize := mod_pageSize_lt _
  rw [he, e.addr_eq_pageAt, inPage_pageNumber hlt hoff, inPage_toNat hlt hoff]

theorem locate_unique {cr3 : PhysAddr} {access access' : Access} {user user' : Bool}
    {pa pa' : PhysAddr} (h : m.locate cr3 va access user = .ok (.ok pa))
    (h' : m.locate cr3 va access' user' = .ok (.ok pa')) : pa' = pa := by
  obtain ⟨r, hr, rfl⟩ := resolve_of_locate h
  obtain ⟨r', hr', rfl⟩ := resolve_of_locate h'
  rw [hr] at hr'
  cases hr'
  rfl

end Memory

namespace Core

variable {c c' d : Core n} {va va' : VirtAddr} {access access' : Access} {pa pa' : PhysAddr}

/-! ### What a program sees -/

/-- What the program sees at `va`: the code of a page fault, or the byte that is stored there. -/
def seen (c : Core n) (va : VirtAddr) (access : Access) : Except Halt (Except UInt64 UInt8) := do
  match ← c.memory.locate c.cr3 va access true with
  | .error code => return .error code
  | .ok pa => return .ok (← c.memory.readByte pa)

/-- The program finds `va` at the physical address `pa`. -/
def Finds (c : Core n) (va : VirtAddr) (access : Access) (pa : PhysAddr) : Prop :=
  va.Canonical ∧ c.memory.locate c.cr3 va access true = .ok (.ok pa)

/-- The program can write page number `q`. -/
def CanWrite (c : Core n) (q : Nat) : Prop :=
  ∃ va pa, c.Finds va .write pa ∧ pa.pageNumber = q

/-- No walk leaves the memory. A page that the program can write is found at one page of its
addresses, and holds no byte of an entry that a walk reads. -/
structure Confined (c : Core n) : Prop where
  inside : ∀ va, va.Canonical → ∀ access, ∃ res, c.seen va access = .ok res
  once : ∀ {va va' access pa pa'}, c.Finds va .write pa → c.Finds va' access pa' →
    pa'.pageNumber = pa.pageNumber → va'.toNat / pageSize = va.toNat / pageSize
  tables : ∀ va, va.Canonical → ∀ pa ∈ c.memory.entriesRead va levels c.cr3, ∀ i < 8,
    ¬ c.CanWrite ((pa.toNat + i) / pageSize)

/-- Whatever `c'` has changed of the memory of `c`, it could be written. -/
structure Keeps (c c' : Core n) : Prop where
  cr3 : c'.cr3 = c.cr3
  byte : ∀ a, ¬ c.CanWrite (a / pageSize) → c'.memory.byte a = c.memory.byte a

theorem seen_eq_error {code : UInt64} : c.seen va access = .ok (.error code) ↔
    c.memory.locate c.cr3 va access true = .ok (.error code) := by
  unfold seen
  rcases c.memory.locate c.cr3 va access true with e | code' | pa
  · exact ⟨nofun, nofun⟩
  · simp only [bind, Except.bind, pure, Except.pure, Except.ok.injEq, Except.error.injEq]
  · simp only [bind, Except.bind, pure, Except.pure, Except.ok.injEq, reduceCtorEq, iff_false]
    cases c.memory.readByte pa <;> nofun

theorem seen_eq_ok {b : UInt8} : c.seen va access = .ok (.ok b) ↔
    ∃ pa, c.memory.locate c.cr3 va access true = .ok (.ok pa) ∧
      c.memory.readByte pa = .ok b := by
  unfold seen
  rcases c.memory.locate c.cr3 va access true with e | code' | pa
  · exact ⟨nofun, nofun⟩
  · exact ⟨nofun, nofun⟩
  · simp only [bind, Except.bind, Except.ok.injEq, exists_eq_left']
    cases c.memory.readByte pa with
    | error e => exact ⟨nofun, nofun⟩
    | ok b' => simp only [pure, Except.pure, Except.ok.injEq]

/-- A program that finds an address finds it for every access that it may make. -/
theorem Finds.unique (h : c.Finds va access pa) (h' : c.Finds va access' pa') : pa' = pa :=
  Memory.locate_unique h.2 h'.2

theorem Confined.lt (h : c.Confined) (hpa : c.Finds va access pa) : pa.pageNumber < n := by
  obtain ⟨res, hres⟩ := h.inside va hpa.1 access
  cases res with
  | error code =>
    have hcode := seen_eq_error.mp hres
    rw [hpa.2] at hcode
    cases hcode
  | ok b =>
    obtain ⟨pa', hlocate, hread⟩ := seen_eq_ok.mp hres
    obtain rfl := hpa.unique ⟨hpa.1, hlocate⟩
    exact Memory.lt_of_readByte hread

theorem Confined.seen_eq (h : c.Confined) (hpa : c.Finds va access pa) :
    c.seen va access = .ok (.ok (c.memory.byte pa.toNat)) :=
  seen_eq_ok.mpr ⟨pa, hpa.2, c.memory.readByte_of_lt (h.lt hpa)⟩

/-! ### What stays as it was -/

namespace Keeps

theorem refl (c : Core n) : Keeps c c :=
  ⟨rfl, fun _ _ => rfl⟩

theorem sameEntries (h : Keeps c c') (hc : c.Confined) (hva : va.Canonical) :
    c.memory.SameEntries c'.memory (c.memory.entriesRead va levels c.cr3) :=
  fun pa hpa i hi => h.byte _ (hc.tables va hva pa hpa i hi)

/-- **No walk ends elsewhere.** -/
theorem locate (h : Keeps c c') (hc : c.Confined) (hva : va.Canonical) (access : Access)
    (user : Bool) : c'.memory.locate c'.cr3 va access user =
      c.memory.locate c.cr3 va access user := by
  rw [h.cr3]
  exact Memory.locate_congr (h.sameEntries hc hva) access user

theorem finds (h : Keeps c c') (hc : c.Confined) : c'.Finds va access pa ↔ c.Finds va access pa :=
  and_congr_right fun hva => by rw [h.locate hc hva]

theorem canWrite (h : Keeps c c') (hc : c.Confined) {q : Nat} : c'.CanWrite q ↔ c.CanWrite q := by
  unfold CanWrite
  simp only [h.finds hc]

theorem trans (h : Keeps c c') (hc : c.Confined) (h' : Keeps c' d) : Keeps c d where
  cr3 := h'.cr3.trans h.cr3
  byte a ha := (h'.byte a fun hw => ha ((h.canWrite hc).mp hw)).trans (h.byte a ha)

end Keeps

/-- **A program stays confined**, whatever it writes where it can. -/
theorem Confined.of_keeps (hc : c.Confined) (h : Keeps c c') : c'.Confined where
  inside va hva access := by
    obtain ⟨res, hres⟩ := hc.inside va hva access
    cases res with
    | error code =>
      refine ⟨.error code, seen_eq_error.mpr ?_⟩
      rw [h.locate hc hva]
      exact seen_eq_error.mp hres
    | ok b =>
      obtain ⟨pa, hlocate, -⟩ := seen_eq_ok.mp hres
      have hlt := hc.lt ⟨hva, hlocate⟩
      have hpa := (h.finds hc).mpr ⟨hva, hlocate⟩
      exact ⟨_, seen_eq_ok.mpr ⟨pa, hpa.2, c'.memory.readByte_of_lt hlt⟩⟩
  once hpa hpa' := hc.once ((h.finds hc).mp hpa) ((h.finds hc).mp hpa')
  tables va hva pa hpa i hi hw := by
    have hentries : c'.memory.entriesRead va levels c.cr3 = c.memory.entriesRead va levels c.cr3 :=
      (Memory.resolve_congr (r := ⟨c.cr3, true, true⟩) (h.sameEntries hc hva)).2
    rw [h.cr3, hentries] at hpa
    exact hc.tables va hva pa hpa i hi ((h.canWrite hc).mp hw)

/-! ### Writing a byte -/

theorem Keeps.putByte (hpa : c.Finds va .write pa) (v : UInt8) :
    Keeps c { c with memory := c.memory.putByte pa.toNat v } where
  cr3 := rfl
  byte a ha := by
    rw [Memory.byte_putByte, if_neg]
    rintro ⟨rfl, -⟩
    exact ha ⟨va, pa, hpa, rfl⟩

section
variable (hc : c.Confined) (hpa : c.Finds va .write pa)
include hc hpa

/-- An address that the program finds at the byte written is the one that it writes to. -/
theorem Confined.eq_of_finds (hpa' : c.Finds va' access pa') (heq : pa'.toNat = pa.toNat) :
    va' = va := by
  have hpage := hc.once hpa hpa' (by unfold PhysAddr.pageNumber; rw [heq])
  have hplace := Memory.place_of_locate hpa.2
  have hplace' := Memory.place_of_locate hpa'.2
  have hoff : va'.toNat % pageSize = va.toNat % pageSize := by
    unfold VirtAddr.pageOffset PhysAddr.pageNumber at hplace hplace'
    rw [heq] at hplace'
    omega
  have hnat : va'.toNat = va.toNat := by
    rw [← Nat.div_add_mod va'.toNat pageSize, hpage, hoff, Nat.div_add_mod]
  obtain ⟨a⟩ := va
  obtain ⟨a'⟩ := va'
  exact congrArg VirtAddr.mk (UInt64.toNat_inj.mp hnat)

/-- **What is written is seen** at the address that it is written to, and nowhere else. -/
theorem Confined.seen_putByte (v : UInt8) (hva' : va'.Canonical) :
    seen { c with memory := c.memory.putByte pa.toNat v } va' access =
      if va' = va then (c.seen va' access).map (·.map fun _ => v) else c.seen va' access := by
  have hkeeps := Keeps.putByte hpa v
  have hc' := hc.of_keeps hkeeps
  obtain ⟨res, hres⟩ := hc.inside va' hva' access
  cases res with
  | error code =>
    have hcode : seen { c with memory := c.memory.putByte pa.toNat v } va' access =
        .ok (.error code) := by
      refine seen_eq_error.mpr ?_
      rw [hkeeps.locate hc hva']
      exact seen_eq_error.mp hres
    rw [hcode, hres]
    by_cases hva : va' = va
    · rw [if_pos hva]
      rfl
    · rw [if_neg hva]
  | ok b =>
    obtain ⟨pa', hlocate, -⟩ := seen_eq_ok.mp hres
    have hfinds : c.Finds va' access pa' := ⟨hva', hlocate⟩
    rw [hc'.seen_eq ((hkeeps.finds hc).mpr hfinds), hc.seen_eq hfinds, Memory.byte_putByte]
    by_cases hva : va' = va
    · subst hva
      obtain rfl := hpa.unique hfinds
      rw [if_pos ⟨rfl, hc.lt hpa⟩, if_pos rfl]
      rfl
    · rw [if_neg fun heq => hva (hc.eq_of_finds hpa hfinds heq.1.symm), if_neg hva]

end

end Core

/-! ### Spaces -/

section
variable {g : Shape} {m : Memory n} {r : Nat}

/-- In a memory that a shape fits, a walk reads entries of tables. -/
theorem Shape.Fits.entriesRead_table [Addressable n] (h : g.Fits m) (va : VirtAddr) :
    ∀ {l q i : Nat}, g q = some ⟨r, l, i⟩ → ∀ pa ∈ m.entriesRead va (l + 1) (pageAt q),
      ∀ j < 8, g ((pa.toNat + j) / pageSize) ≠ none := by
  have first : ∀ {l q i : Nat}, g q = some ⟨r, l, i⟩ → ∀ j < 8,
      g ((((pageAt q).inPage (8 * va.index l)).toNat + j) / pageSize) ≠ none := by
    intro l q i hq j hj
    have hslot : va.index l < slotsPerTable := Nat.mod_lt _ (by decide)
    have hoff : 8 * va.index l < pageSize := by
      unfold slotsPerTable at hslot
      unfold pageSize
      omega
    rw [inPage_toNat (lt_of_lt_of_le (h.installed hq) Addressable.le) hoff,
      Memory.slot_div hslot hj, hq]
    exact Option.some_ne_none _
  intro l
  induction l with
  | zero =>
    intro q i hq pa hpa
    rw [Memory.entriesRead] at hpa
    rcases List.mem_cons.mp hpa with rfl | hpa
    · exact first hq
    · split at hpa
      · split at hpa
        · rw [Memory.entriesRead, ite_self] at hpa
          cases hpa
        · cases hpa
      · cases hpa
  | succ l ih =>
    intro q i hq pa hpa
    have hl : l + 1 ≤ 3 := h.level_le hq
    rw [Memory.entriesRead] at hpa
    rcases List.mem_cons.mp hpa with rfl | hpa
    · exact first hq
    · rw [va.index_eq hl, Memory.readEntry_pageAt m (h.installed hq) (mod_slots_lt _)] at hpa
      cases hs : (m.slot q (va.page / 512 ^ (l + 1) % 512)).page? with
      | none =>
        dsimp only at hpa
        rw [Entry.addr?_of_page?_none hs] at hpa
        cases hpa
      | some c =>
        dsimp only at hpa
        rw [Entry.addr?_of_page? hs] at hpa
        dsimp only at hpa
        split at hpa
        · cases hpa
        · exact ih (h.child hq (mod_slots_lt _) hs) pa hpa

/-- **A space confines its program**, if no page that the user can write is the user's at another
address too. -/
theorem Shape.Fits.confined [Addressable n] (h : g.Fits m) (hk : g.Linked m) (hr : g.IsRoot r)
    (honce : ∀ {v v' e e'}, m.mapped r v = some e → e.writable = true → e.user = true →
      m.mapped r v' = some e' → e'.user = true → e'.addr.pageNumber = e.addr.pageNumber → v' = v)
    {c : Core n} (hm : c.memory = m) (hcr3 : c.cr3 = pageAt r) : c.Confined := by
  subst hm
  have found : ∀ {va access pa}, c.Finds va access pa → ∃ e,
      c.memory.mapped r va.page = some e ∧ e.user = true ∧ (access = .write → e.writable = true) ∧
        pa.pageNumber = e.addr.pageNumber ∧ pa.pageNumber < n ∧ g pa.pageNumber = none := by
    intro va access pa hpa
    obtain ⟨e, he, hu, hw, rfl⟩ := h.locate_ok hk hr (hcr3 ▸ hpa.2)
    obtain ⟨hnone, hlt⟩ := h.mapped_target hr he
    have hpage : (e.addr.inPage va.pageOffset).pageNumber = e.addr.pageNumber := by
      have hinPage := inPage_pageNumber (lt_of_lt_of_le hlt Addressable.le)
        (mod_pageSize_lt va.toNat)
      rwa [← e.addr_eq_pageAt] at hinPage
    rw [hpage]
    exact ⟨e, he, hu, hw, rfl, hlt, hnone⟩
  constructor
  case inside =>
    intro va hva access
    obtain ⟨res, hlocate⟩ : ∃ res, c.memory.locate c.cr3 va access true = .ok res := by
      rw [hcr3]
      exact ⟨_, h.locate_eq hk va hr access true⟩
    cases res with
    | error code => exact ⟨_, Core.seen_eq_error.mpr hlocate⟩
    | ok pa =>
      obtain ⟨-, -, -, -, -, hlt, -⟩ := found ⟨hva, hlocate⟩
      exact ⟨_, Core.seen_eq_ok.mpr ⟨pa, hlocate, c.memory.readByte_of_lt hlt⟩⟩
  case once =>
    intro va va' access pa pa' hpa hpa' heq
    obtain ⟨e, he, hu, hw, hpage, -⟩ := found hpa
    obtain ⟨e', he', hu', -, hpage', -⟩ := found hpa'
    have hv := honce he (hw rfl) hu he' hu' (by rw [← hpage, ← hpage', heq])
    exact hpa.1.div_eq hpa'.1 hv
  case tables =>
    rintro va - pa hpa i hi ⟨va', pa', hpa', hpage⟩
    obtain ⟨-, -, -, -, -, -, hnone⟩ := found hpa'
    rw [hcr3] at hpa
    rw [hpage] at hnone
    exact h.entriesRead_table va hr pa hpa i hi hnone

end

end PagedKernel
