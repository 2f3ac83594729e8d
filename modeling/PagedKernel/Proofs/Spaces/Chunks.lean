import PagedKernel.Proofs.Spaces.Kept

/-!
# Copies, chunk by chunk and byte by byte

The kernel copies data into an address space, and out of it, in chunks: each goes up to the end of a
page or of the data, and each has its own look at the page table. What the copies come to is said
byte by byte: `PageTable.place?` is where the byte at an address is, and `Memory.copyIn` and
`Memory.copyOut` write and read one byte after the other, up to the first that is nowhere.

Where the leaves of a page table point to pages that hold no table, what is written changes no
mapping, so the bytes that are still to come are where they were. The loops over the chunks then do
what the copies byte by byte do.

Key definitions: `PageTable.place?`, `Memory.copyIn`, `Memory.copyOut`.
Key theorems: `PageTable.writeFrom_steps`, `Memory.copyIn_append`, `Memory.byte_copyIn_last`,
`PageTable.writeFrom_ends_copyIn`, `PageTable.readFrom_eq`.
-/

namespace PagedKernel

variable {n : Nat} {g : Shape} {f : Frames n} {m : Memory n} {t : PageTable} {E : Halt → Prop}

/-! ### Chunks -/

theorem VirtAddr.add_of_lt {va : VirtAddr} {k : Nat} (h : va.toNat + k < 2 ^ 64) :
    ∃ place : VirtAddr, va.add (UInt64.ofNat k) = .ok place ∧ place.toNat = va.toNat + k := by
  have hword : (UInt64.ofNat k).toNat = k := by
    rw [UInt64.toNat_ofNat']
    omega
  have hsum : va.val.toNat + (UInt64.ofNat k).toNat < UInt64.size := by
    rw [hword]
    exact h
  refine ⟨⟨va.val + UInt64.ofNat k⟩, ?_, ?_⟩
  · unfold VirtAddr.add Word.add
    rw [if_pos hsum]
    rfl
  · unfold VirtAddr.toNat
    rw [UInt64.toNat_add, Nat.mod_eq_of_lt hsum, hword]

/-- A chunk fits into the page that it begins in. -/
theorem PageTable.length_chunk_le (place : VirtAddr) (data : List UInt8) :
    place.pageOffset + (data.take (roomInPage place)).length ≤ pageSize := by
  have hroom : place.pageOffset < pageSize := mod_pageSize_lt _
  rw [List.length_take]
  unfold roomInPage
  omega

theorem drop_add_chunk (data : List UInt8) (k room : Nat) :
    (data.drop k).drop room = data.drop (k + ((data.drop k).take room).length) := by
  rw [List.drop_drop, List.length_take, List.length_drop]
  by_cases hroom : room ≤ data.length - k
  · rw [Nat.min_eq_left hroom]
  · rw [List.drop_of_length_le (by omega), List.drop_of_length_le (by omega)]

theorem take_add_chunk (data : List UInt8) (k room : Nat) :
    data.take (k + ((data.drop k).take room).length) =
      data.take k ++ (data.drop k).take room := by
  rw [List.take_add, List.length_take, ← List.take_eq_take_min]

/-- **Copying goes on chunk by chunk**, up to a page that is not mapped: `I k` holds once `k` bytes
are copied. -/
theorem PageTable.writeFrom_steps {va : VirtAddr} {data : List UInt8}
    {I : Nat → Frames n → Prop} {Q : Bool → Frames n → Prop}
    (hend : va.toNat + data.length ≤ 2 ^ 64)
    (hlook : ∀ {k f}, I k f → ∀ place, t.byteAddr? f.memory place =
      .ok ((f.memory.mapped t.root.number place.page).map (·.addr.inPage place.pageOffset)))
    (hmissing : ∀ {k f} {place : VirtAddr}, I k f → k < data.length → place.toNat = va.toNat + k →
      f.memory.mapped t.root.number place.page = none → Q false f)
    (hchunk : ∀ {k f} {place : VirtAddr} {e}, I k f → k < data.length → place.toNat = va.toNat + k →
      f.memory.mapped t.root.number place.page = some e →
      ∃ m, f.memory.writeBytes (e.addr.inPage place.pageOffset)
          ((data.drop k).take (roomInPage place)) = .ok m ∧
        I (k + ((data.drop k).take (roomInPage place)).length) { f with memory := m })
    (hdone : ∀ {f}, I data.length f → Q true f) (k : Nat) (f : Frames n) (hk : k ≤ data.length)
    (h : I k f) : Ends (t.writeFrom va k (data.drop k)) f Q E := by
  rw [writeFrom]
  refine .ite (fun hempty => .pure (hdone ?_)) fun hne => ?_
  · have hlen := List.drop_eq_nil_iff.mp (List.isEmpty_iff.mp hempty)
    rwa [le_antisymm hlen hk]
  have hlt : k < data.length := by
    rw [List.isEmpty_iff, List.drop_eq_nil_iff] at hne
    exact Nat.not_le.mp hne
  have hword : va.toNat + k < 2 ^ 64 := by omega
  obtain ⟨place, hadd, hplace⟩ := VirtAddr.add_of_lt hword
  refine .lift hadd ?_
  refine .step (Frames.read_ok (hlook h place)) ?_
  cases hm : f.memory.mapped t.root.number place.page with
  | none => exact .pure (hmissing h hlt hplace hm)
  | some e =>
    obtain ⟨m, hwrite, hI⟩ := hchunk h hlt hplace hm
    refine .step (Frames.modifyMemory_ok hwrite) ?_
    have hroom := roomInPage_pos place
    rw [drop_add_chunk]
    refine writeFrom_steps hend hlook hmissing hchunk hdone _ _ ?_ hI
    rw [List.length_take, List.length_drop]
    omega
termination_by data.length - k
decreasing_by
  rw [List.length_take, List.length_drop]
  omega

/-- The part of the data that goes to the page of `place` changes that page alone. -/
theorem Memory.writeBytes_chunk [Addressable n] {r : Nat} {place : VirtAddr} {e : Entry}
    (h : g.Fits m) (hr : g.IsRoot r) (hm : m.mapped r place.page = some e) (data : List UInt8) :
    ∃ m', m.writeBytes (e.addr.inPage place.pageOffset)
        (data.take (PageTable.roomInPage place)) = .ok m' ∧
      ∀ a, a / pageSize ≠ e.addr.pageNumber → m'.byte a = m.byte a := by
  have hwrite := m.writeBytes_inPage _ (h.mapped_target hr hm).2 (mod_pageSize_lt place.toNat)
    (PageTable.length_chunk_le place data)
  rwa [← e.addr_eq_pageAt] at hwrite

/-! ### Byte by byte -/

/-- The first address of the page that holds the byte at address `a`. -/
def VirtAddr.pageOf (a : Nat) : VirtAddr :=
  VirtAddr.pageDown ⟨UInt64.ofNat a⟩

/-- Where the byte at address `a` is, if the page of that is mapped. -/
def PageTable.place? (t : PageTable) (m : Memory n) (a : Nat) : Option Nat :=
  match t.walk m (.pageOf a) with
  | .ok (some e) => some (e.addr.toNat + a % pageSize)
  | _ => none

theorem VirtAddr.toNat_pageOf {a : Nat} (ha : a < 2 ^ 64) :
    (pageOf a).toNat = a / pageSize * pageSize := by
  have hword : (VirtAddr.mk (UInt64.ofNat a)).toNat = a := by
    unfold VirtAddr.toNat
    rw [UInt64.toNat_ofNat']
    omega
  unfold pageOf
  rw [VirtAddr.toNat_pageDown, hword]

theorem VirtAddr.pageOf_eq_iff {a b : Nat} (ha : a < 2 ^ 64) (hb : b < 2 ^ 64) :
    pageOf a = pageOf b ↔ a / pageSize = b / pageSize := by
  have hval : pageOf a = pageOf b ↔ (pageOf a).toNat = (pageOf b).toNat :=
    ⟨congrArg toNat, fun h => congrArg VirtAddr.mk (UInt64.toNat_inj.mp h)⟩
  rw [hval, toNat_pageOf ha, toNat_pageOf hb]
  exact Nat.mul_left_inj (by decide)

namespace Memory

variable {place : Nat → Option Nat} {a p : Nat}

/-- Put bytes one by one where the addresses from `a` on are, up to the first that is nowhere. -/
def copyIn (place : Nat → Option Nat) (m : Memory n) (a : Nat) : List UInt8 → Memory n
  | [] => m
  | v :: data =>
    match place a with
    | none => m
    | some p => copyIn place (m.putByte p v) (a + 1) data

/-- The bytes at `len` addresses from `a` on, up to the first that is nowhere. -/
def copyOut (place : Nat → Option Nat) (m : Memory n) (a : Nat) : Nat → List UInt8
  | 0 => []
  | len + 1 =>
    match place a with
    | none => []
    | some p => m.byte p :: copyOut place m (a + 1) len

theorem copyIn_cons (h : place a = some p) (v : UInt8) (data : List UInt8) :
    m.copyIn place a (v :: data) = (m.putByte p v).copyIn place (a + 1) data := by
  rw [copyIn, h]

theorem copyOut_succ (h : place a = some p) (len : Nat) :
    m.copyOut place a (len + 1) = m.byte p :: m.copyOut place (a + 1) len := by
  rw [copyOut, h]

theorem copyIn_none (h : place a = none) (data : List UInt8) : m.copyIn place a data = m := by
  cases data with
  | nil => rfl
  | cons v data => rw [copyIn, h]

theorem copyOut_none (h : place a = none) (len : Nat) : m.copyOut place a len = [] := by
  cases len with
  | zero => rfl
  | succ len => rw [copyOut, h]

theorem copyIn_append (ys : List UInt8) : ∀ (xs : List UInt8) (m : Memory n) (a : Nat),
    (∀ i < xs.length, place (a + i) ≠ none) →
      m.copyIn place a (xs ++ ys) = (m.copyIn place a xs).copyIn place (a + xs.length) ys
  | [], _, _, _ => rfl
  | x :: xs, m, a, h => by
    obtain ⟨p, hp⟩ := Option.ne_none_iff_exists'.mp (h 0 (Nat.succ_pos _))
    rw [Nat.add_zero] at hp
    have hrest := copyIn_append ys xs (m.putByte p x) (a + 1) fun i hi => by
      rw [Nat.add_right_comm]
      exact h (i + 1) (Nat.succ_lt_succ hi)
    rw [List.cons_append, copyIn_cons hp, copyIn_cons hp, hrest, Nat.add_right_comm]
    rfl

theorem copyIn_together : ∀ (data : List UInt8) (m : Memory n) (a p : Nat),
    (∀ i < data.length, place (a + i) = some (p + i)) → m.copyIn place a data = m.putBytes p data
  | [], _, _, _, _ => rfl
  | v :: data, m, a, p, h => by
    have hrest := copyIn_together data (m.putByte p v) (a + 1) (p + 1) fun i hi => by
      rw [Nat.add_right_comm a, Nat.add_right_comm p]
      exact h (i + 1) (Nat.succ_lt_succ hi)
    have hp : place a = some p := h 0 (Nat.succ_pos _)
    rw [copyIn_cons hp, putBytes, hrest]

/-- Bytes that lie together are read together, before the others. -/
theorem copyOut_together (len : Nat) : ∀ (size a p : Nat),
    (∀ i < size, place (a + i) = some (p + i)) → m.copyOut place a (size + len) =
      ((List.range size).map fun i => m.byte (p + i)) ++ m.copyOut place (a + size) len
  | 0, _, _, _ => by rw [Nat.zero_add]; rfl
  | size + 1, a, p, h => by
    have hrest := copyOut_together len size (a + 1) (p + 1) fun i hi => by
      rw [Nat.add_right_comm a, Nat.add_right_comm p]
      exact h (i + 1) (Nat.succ_lt_succ hi)
    have hp : place a = some p := h 0 (Nat.succ_pos _)
    have hmap : (fun i => m.byte (p + 1 + i)) = (fun i => m.byte (p + i)) ∘ Nat.succ := by
      funext i
      rw [Nat.add_right_comm]
      rfl
    rw [Nat.add_right_comm, copyOut_succ hp, hrest, hmap, List.range_succ_eq_map, List.map_cons,
      List.map_map, List.cons_append, Nat.add_right_comm a]
    rfl

/-! ### What the copies do -/

theorem byte_copyIn_of_ne {b : Nat} : ∀ (data : List UInt8) (m : Memory n) (a : Nat),
    (∀ i < data.length, place (a + i) ≠ some b) → (m.copyIn place a data).byte b = m.byte b
  | [], _, _, _ => rfl
  | v :: data, m, a, h => by
    cases hp : place a with
    | none => rw [copyIn_none hp]
    | some p =>
      have hne : p ≠ b := fun heq => h 0 (Nat.succ_pos _) (heq ▸ hp)
      rw [copyIn_cons hp, byte_copyIn_of_ne data _ (a + 1) fun i hi => ?_, byte_putByte,
        if_neg fun hb => hne hb.1]
      rw [Nat.add_right_comm]
      exact h (i + 1) (Nat.succ_lt_succ hi)

/-- Where a byte is put it stays, if none is put there later. -/
theorem byte_copyIn_last {b i : Nat} {data : List UInt8} (hi : i < data.length)
    (hmapped : ∀ j ≤ i, place (a + j) ≠ none) (hp : place (a + i) = some b)
    (hb : b / pageSize < n)
    (hlast : ∀ j, i < j → j < data.length → place (a + j) ≠ some b) :
    (m.copyIn place a data).byte b = data[i] := by
  have hlen : (data.take i).length = i := List.length_take_of_le (Nat.le_of_lt hi)
  have hsplit : data = data.take i ++ data[i] :: data.drop (i + 1) := by
    rw [← List.drop_eq_getElem_cons hi, List.take_append_drop]
  have hcopy : m.copyIn place a data =
      ((m.copyIn place a (data.take i)).putByte b data[i]).copyIn place (a + i + 1)
        (data.drop (i + 1)) := by
    conv_lhs => rw [hsplit]
    rw [copyIn_append _ _ _ _ fun j hj => hmapped j (by omega), hlen, copyIn_cons hp]
  rw [hcopy, byte_copyIn_of_ne _ _ _ fun j hj => ?_, byte_putByte, if_pos ⟨rfl, hb⟩]
  rw [List.length_drop] at hj
  rw [show a + i + 1 + j = a + (i + 1 + j) by omega]
  exact hlast _ (by omega) (by omega)

end Memory

/-! ### Where the bytes are -/

section
variable {va : VirtAddr} {a p : Nat}

/-- The bytes from an address to the end of its page lie together. -/
theorem Shape.Trees.place?_eq (h : g.Trees m) (hn : n ≤ 2 ^ 52) (hr : g.IsRoot t.root.number)
    {i : Nat} (hi : i < PageTable.roomInPage va) :
    t.place? m (va.toNat + i) = (m.mapped t.root.number va.page).map fun e =>
      e.addr.toNat + va.pageOffset + i := by
  have hva : va.toNat < 2 ^ 64 := va.val.toNat_lt
  unfold PageTable.roomInPage VirtAddr.pageOffset pageSize at hi
  have hpage : (VirtAddr.pageOf (va.toNat + i)).page = va.page := by
    unfold VirtAddr.page
    rw [VirtAddr.toNat_pageOf (by omega), Nat.mul_div_cancel _ (by decide)]
    unfold pageSize
    rw [show (va.toNat + i) / 4096 = va.toNat / 4096 by omega]
  have hoff : (va.toNat + i) % pageSize = va.pageOffset + i := by
    unfold VirtAddr.pageOffset pageSize
    omega
  unfold PageTable.place?
  rw [h.walk_eq_of_le hn t _ hr, hpage, hoff]
  cases m.mapped t.root.number va.page with
  | none => rfl
  | some e => exact congrArg some (Nat.add_assoc ..).symm

theorem Shape.Trees.place?_first (h : g.Trees m) (hn : n ≤ 2 ^ 52) (hr : g.IsRoot t.root.number) :
    t.place? m va.toNat = (m.mapped t.root.number va.page).map fun e =>
      e.addr.toNat + va.pageOffset := by
  have hplace := h.place?_eq hn hr (PageTable.roomInPage_pos va)
  simpa only [Nat.add_zero] using hplace

/-- A chunk that fits into a mapped page is installed. -/
theorem Shape.Fits.installed_chunk (h : g.Fits m) {r v off len : Nat} {e : Entry} (hr : g.IsRoot r)
    (hm : m.mapped r v = some e) (ho : off < pageSize) (hd : off + len ≤ pageSize) :
    (e.addr.inPage off).toNat = e.addr.toNat + off ∧
      m.installed (e.addr.inPage off) len = true := by
  have hpage := Entry.page?_lt (h.mapped_page? hr hm)
  have hin := m.installed_inPage hpage (h.mapped_target hr hm).2 ho hd
  rw [← e.addr_eq_pageAt] at hin
  refine ⟨?_, hin⟩
  rw [e.addr_eq_pageAt, inPage_toNat hpage ho, pageAt_toNat (by omega)]

theorem Shape.Fits.place?_target (h : g.Fits m) (hn : n ≤ 2 ^ 52) (hr : g.IsRoot t.root.number)
    (hp : t.place? m a = some p) : g (p / pageSize) = none ∧ p / pageSize < n := by
  unfold PageTable.place? at hp
  rw [h.walk_eq_of_le hn t _ hr] at hp
  cases hm : m.mapped t.root.number (VirtAddr.pageOf a).page with
  | none =>
    rw [hm] at hp
    cases hp
  | some e =>
    rw [hm] at hp
    obtain rfl := Option.some.inj hp
    have hpage : (e.addr.toNat + a % pageSize) / pageSize = e.addr.pageNumber := by
      have hmod := e.addr_toNat_mod
      have hlt := mod_pageSize_lt a
      unfold PhysAddr.pageNumber
      unfold pageSize at *
      omega
    rw [hpage]
    exact h.mapped_target hr hm

/-- Putting bytes changes no table, for they are in pages that hold none. -/
theorem Shape.Fits.copyIn_wrote (h : g.Fits f.memory) (hn : n ≤ 2 ^ 52)
    (hr : g.IsRoot t.root.number) (a : Nat) (data : List UInt8) :
    Wrote (g · = none) f { f with memory := f.memory.copyIn (t.place? f.memory) a data } where
  count _ := rfl
  byte _ hb := Memory.byte_copyIn_of_ne data f.memory a fun _ _ hp =>
    hb (h.place?_target hn hr hp).1

/-! ### The loops -/

/-- **Copying into an address space** puts byte after byte, up to the first that is nowhere. -/
theorem PageTable.writeFrom_ends_copyIn {data : List UInt8} (h : g.Fits f.memory) (hn : n ≤ 2 ^ 52)
    (hr : g.IsRoot t.root.number) (hend : va.toNat + data.length ≤ 2 ^ 64) :
    Ends (t.writeFrom va 0 data) f (fun all f' =>
      (all = true ↔ ∀ i < data.length, t.place? f.memory (va.toNat + i) ≠ none) ∧
        f' = { f with memory := f.memory.copyIn (t.place? f.memory) va.toNat data }) E := by
  refine writeFrom_steps (I := fun k f' =>
    (∀ i < k, t.place? f.memory (va.toNat + i) ≠ none) ∧
      f' = { f with memory := f.memory.copyIn (t.place? f.memory) va.toNat (data.take k) })
    hend ?_ ?_ ?_ ?_ 0 f (Nat.zero_le _) ⟨nofun, rfl⟩
  · rintro k _ ⟨-, rfl⟩ place
    have hw := h.copyIn_wrote hn hr va.toNat (data.take k)
    exact (hw.fits (fun _ hq => hq) h).byteAddr?_eq_of_le hn t place hr
  · rintro k _ place ⟨hall, rfl⟩ hk hplace hm
    have hw := h.copyIn_wrote hn hr va.toNat (data.take k)
    rw [hw.mapped (fun _ hq => hq) h hr] at hm
    have hnone : t.place? f.memory (va.toNat + k) = none := by
      rw [← hplace, h.place?_first hn hr, hm]
      rfl
    refine ⟨iff_of_false nofun fun hmapped => hmapped k hk hnone, ?_⟩
    conv_rhs => rw [← List.take_append_drop k data]
    rw [Memory.copyIn_append _ _ _ _ fun i hi => hall i (by rw [List.length_take] at hi; omega),
      List.length_take_of_le hk.le, Memory.copyIn_none hnone]
  · rintro k _ place e ⟨hall, rfl⟩ hk hplace hm
    have hw := h.copyIn_wrote hn hr va.toNat (data.take k)
    rw [hw.mapped (fun _ hq => hq) h hr] at hm
    have htogether : ∀ i < ((data.drop k).take (roomInPage place)).length,
        t.place? f.memory (va.toNat + k + i) = some (e.addr.toNat + place.pageOffset + i) := by
      intro i hi
      rw [List.length_take] at hi
      rw [← hplace, h.place?_eq hn hr (by omega), hm]
      rfl
    obtain ⟨hbase, hin⟩ := h.installed_chunk hr hm (mod_pageSize_lt place.toNat)
      (length_chunk_le place (data.drop k))
    refine ⟨_, if_pos hin, fun i hi => ?_, ?_⟩
    · by_cases hik : i < k
      · exact hall i hik
      · rw [show va.toNat + i = va.toNat + k + (i - k) by omega, htogether _ (by omega)]
        exact Option.some_ne_none _
    · have hbefore : ∀ i < (data.take k).length, t.place? f.memory (va.toNat + i) ≠ none :=
        fun i hi => hall i (by rw [List.length_take] at hi; omega)
      rw [take_add_chunk, Memory.copyIn_append _ _ _ _ hbefore, List.length_take_of_le hk.le,
        Memory.copyIn_together _ _ _ _ htogether]
      exact congrArg (fun p => Frames.mk (Memory.putBytes _ p _) f.counts f.cursor) hbase
  · rintro _ ⟨hall, rfl⟩
    rw [List.take_length]
    exact ⟨iff_of_true rfl hall, rfl⟩

/-- **Copying out of an address space** reads byte after byte, up to the first that is nowhere. -/
theorem PageTable.readFrom_eq (h : g.Fits m) (hn : n ≤ 2 ^ 52) (hr : g.IsRoot t.root.number)
    (done len : Nat) (hend : va.toNat + done + len ≤ 2 ^ 64) :
    t.readFrom m va done len = .ok (m.copyOut (t.place? m) (va.toNat + done) len) := by
  rw [readFrom]
  by_cases hlen : len = 0
  · subst hlen
    rfl
  rw [if_neg hlen]
  have hword : va.toNat + done < 2 ^ 64 := by omega
  obtain ⟨place, hadd, hplace⟩ := VirtAddr.add_of_lt hword
  rw [hadd]
  show (t.byteAddr? m place >>= fun pa? => _) = _
  rw [h.byteAddr?_eq_of_le hn t place hr]
  cases hm : m.mapped t.root.number place.page with
  | none =>
    have hnone : t.place? m (va.toNat + done) = none := by
      rw [← hplace, h.place?_first hn hr, hm]
      rfl
    rw [Memory.copyOut_none hnone]
    rfl
  | some e =>
    have hroom := roomInPage_pos place
    have hoff : place.pageOffset < pageSize := mod_pageSize_lt _
    have htogether : ∀ i < min (roomInPage place) len,
        t.place? m (va.toNat + done + i) = some (e.addr.toNat + place.pageOffset + i) := by
      intro i hi
      rw [← hplace, h.place?_eq hn hr (by omega), hm]
      rfl
    have hslice : m.slice (e.addr.inPage place.pageOffset) (min (roomInPage place) len) =
        .ok ((List.range (min (roomInPage place) len)).map fun i =>
          m.byte (e.addr.toNat + place.pageOffset + i)) := by
      have hend : place.pageOffset + min (roomInPage place) len ≤ pageSize := by
        unfold roomInPage
        omega
      obtain ⟨hbase, hin⟩ := h.installed_chunk hr hm hoff hend
      rw [← hbase]
      exact if_pos hin
    have hrest := readFrom_eq h hn hr (done + min (roomInPage place) len)
      (len - min (roomInPage place) len) (by omega)
    have hsplit : len = min (roomInPage place) len + (len - min (roomInPage place) len) := by omega
    show (m.slice (e.addr.inPage place.pageOffset) (min (roomInPage place) len) >>= fun chunk =>
      t.readFrom m va (done + min (roomInPage place) len) (len - min (roomInPage place) len) >>=
        fun rest => pure (chunk ++ rest)) = _
    rw [hslice, hrest]
    conv_rhs => rw [hsplit, Memory.copyOut_together _ _ _ _ htogether, Nat.add_assoc]
    rfl
termination_by len

end

end PagedKernel
