import PagedKernel.Proofs.Process.Load

/-!
# What a program is to look like

The segments of a program may lie anywhere in the user region and overlap in any way. What a page of
it may do and what a byte of it is can be said of all segments at once: a page may what any of the
segments that cover it asks for, and a byte is that of the last segment that has one there. Loading
takes the segments one after the other, and one more segment changes the picture the way that the
loader changes the space: it widens the permission of its pages (`Segment.unionOf_append`) and
writes its data over what there is (`Segment.lastOf_append`).

Key definitions: `overwrite`, `Segment.Covers`, `Segment.unionOf`, `Segment.lastOf`.
Key theorems: `overwrite_append`, `Segment.unionOf_append`, `Segment.lastOf_append`.
-/

namespace PagedKernel

variable {n : Nat}

/-! ### Permissions that are put together -/

namespace Permission

theorem union_of_contains {p q : Permission} (h : p.contains q = true) : p.union q = p := by
  have hbit : ∀ {a b : Bool}, (a || !b) = true → (a || b) = a := by decide
  unfold contains at h
  simp only [Bool.and_eq_true] at h
  obtain ⟨⟨⟨hread, hwrite⟩, hexecute⟩, huser⟩ := h
  unfold union
  rw [hbit hread, hbit hwrite, hbit hexecute, hbit huser]

/-- What an address may that had `old`, if anything, and is given `perm`. -/
def grant (perm : Permission) (old : Option Permission) : Permission :=
  old.elim perm (·.union perm)

theorem grant_grant (perm : Permission) (old : Option Permission) :
    grant perm (some (grant perm old)) = grant perm old := by
  cases old <;> simp [grant, union]

/-- A leaf says all of a permission but reading, which is always granted. -/
theorem ofFlags_link {c : Nat} (hc : c < 2 ^ 40) {perm : Permission} (hread : perm.read = true) :
    ofFlags (Entry.link (pageAt c) perm.toFlags).flags = perm := by
  rw [Entry.flags_link hc, ofFlags_toFlags, ← hread]

end Permission

/-! ### Bytes that are written over others -/

/-- The bytes `B` with `data` in the place of those from address `a` on. -/
def overwrite (B : Nat → UInt8) (a : Nat) (data : List UInt8) : Nat → UInt8 := fun x =>
  (if a ≤ x then data[x - a]? else none).getD (B x)

section
variable {B B' : Nat → UInt8} {a x : Nat} {data data' : List UInt8}

theorem overwrite_nil (B : Nat → UInt8) (a : Nat) : overwrite B a [] = B := by
  funext x
  unfold overwrite
  split <;> rfl

theorem overwrite_of_outside (h : x < a ∨ a + data.length ≤ x) : overwrite B a data x = B x := by
  unfold overwrite
  split
  · rw [List.getElem?_eq_none (by omega), Option.getD_none]
  · rfl

theorem overwrite_append (B : Nat → UInt8) (a : Nat) (data data' : List UInt8) :
    overwrite (overwrite B a data) (a + data.length) data' = overwrite B a (data ++ data') := by
  funext x
  by_cases hx : a + data.length ≤ x
  · have hlate : x - a - data.length = x - (a + data.length) := by omega
    rw [overwrite, if_pos hx, overwrite_of_outside (.inr hx), overwrite, if_pos (by omega),
      List.getElem?_append_right (by omega), hlate]
  · rw [overwrite_of_outside (.inl (by omega)), overwrite, overwrite]
    by_cases ha : a ≤ x
    · rw [if_pos ha, if_pos ha, List.getElem?_append_left (by omega)]
    · rw [if_neg ha, if_neg ha]

theorem overwrite_shift {base base' off i : Nat} (h : B (base + i) = B' (base' + i)) :
    overwrite B (base + off) data (base + i) = overwrite B' (base' + off) data (base' + i) := by
  have hsub : base + i - (base + off) = base' + i - (base' + off) := by omega
  unfold overwrite
  rw [h, hsub]
  by_cases ho : off ≤ i
  · rw [if_pos (by omega), if_pos (by omega)]
  · rw [if_neg (by omega), if_neg (by omega)]

theorem Memory.byte_putBytes_eq_overwrite (m : Memory n) (a : Nat) (data : List UInt8)
    (hx : x / pageSize < n) : (m.putBytes a data).byte x = overwrite m.byte a data x := by
  by_cases hin : a ≤ x ∧ x < a + data.length
  · obtain ⟨i, rfl⟩ := Nat.exists_eq_add_of_le hin.1
    have hi : i < data.length := by omega
    rw [Memory.byte_putBytes m data i hi hx, overwrite, if_pos hin.1, Nat.add_sub_cancel_left,
      List.getElem?_eq_getElem hi, Option.getD_some]
  · rw [Memory.byte_putBytes_of_lt m data (by omega), overwrite_of_outside (by omega)]

end

/-! ### What the segments of a program ask for -/

namespace Segment

/-- The page at address `a` is one of the segment's: it begins before the end of the segment, and
not before the page that the segment begins in. -/
def Covers (seg : Segment) (a : Nat) : Prop :=
  seg.va.toNat / pageSize * pageSize ≤ a ∧ a < seg.va.toNat + seg.size.toNat

instance (seg : Segment) : DecidablePred seg.Covers := fun _ =>
  inferInstanceAs (Decidable (_ ∧ _))

/-- The byte that the segment has for address `x`, if it has one. -/
def byte? (seg : Segment) (x : Nat) : Option UInt8 :=
  if seg.va.toNat ≤ x then (seg.data.take seg.size.toNat)[x - seg.va.toNat]? else none

/-- What may be done in the page at address `a`: all that the segments ask for that cover it. -/
def unionOf (segs : List Segment) (a : Nat) : Option Permission :=
  let covering := segs.filter (·.Covers a)
  if covering.isEmpty then none
  else some ⟨true, covering.any (·.writable), covering.any (!·.writable), true⟩

/-- The byte at address `x`: that of the last segment that has one, or zero. -/
def lastOf (segs : List Segment) (x : Nat) : UInt8 :=
  (segs.reverse.findSome? (·.byte? x)).getD 0

variable {seg : Segment} {v : Nat}

theorem permission_read (seg : Segment) : seg.permission.read = true := by
  unfold permission
  split <;> rfl

/-- One more segment widens the permission of its pages. -/
theorem unionOf_append (segs : List Segment) (seg : Segment) (a : Nat) :
    unionOf (segs ++ [seg]) a =
      if seg.Covers a then some (seg.permission.grant (unionOf segs a)) else unionOf segs a := by
  unfold unionOf
  by_cases hc : seg.Covers a
  · rw [if_pos hc, List.filter_append, List.filter_singleton, decide_eq_true hc]
    cases segs.filter (·.Covers a) <;> cases hw : seg.writable <;>
      simp [hw, permission, Permission.grant, Permission.union, Permission.userData,
        Permission.userText]
  · rw [if_neg hc, List.filter_append, List.filter_singleton, decide_eq_false hc]
    simp

/-- A page of text and of data may be written and executed. -/
example : unionOf [⟨0x100000, 8, [], false⟩, ⟨0x100800, 8, [], true⟩] 0x100000 =
    some ⟨true, true, true, true⟩ := by decide

theorem lastOf_append (segs : List Segment) (seg : Segment) :
    lastOf (segs ++ [seg]) =
      overwrite (lastOf segs) seg.va.toNat (seg.data.take seg.size.toNat) := by
  funext x
  have hover : overwrite (lastOf segs) seg.va.toNat (seg.data.take seg.size.toNat) x =
      (seg.byte? x).getD (lastOf segs x) := by
    unfold overwrite byte?
    rfl
  rw [hover, lastOf, lastOf, List.reverse_append, List.reverse_singleton, List.singleton_append,
    List.findSome?_cons]
  cases seg.byte? x <;> rfl

/-- Of two segments the later has its way, as far as it has data. -/
example : [0x100000, 0x100001, 0x100002, 0x100003].map
    (lastOf [⟨0x100000, 8, [1, 2, 3], false⟩, ⟨0x100001, 8, [9], true⟩]) = [1, 9, 3, 0] := by decide

/-- The pages that are mapped for a segment are those that it covers. -/
theorem covers_iff : v * pageSize ∈ segmentPages seg.va.toNat (seg.va.toNat + seg.size.toNat) ↔
    seg.Covers (v * pageSize) := by
  have hpos : 0 < pageSize := by decide
  rw [mem_segmentPages]
  constructor
  · rintro ⟨w, heq, hw, hlt⟩
    rw [heq]
    exact ⟨Nat.mul_le_mul_right _ hw, hlt⟩
  · exact fun hc => ⟨v, rfl, Nat.le_of_mul_le_mul_right hc.1 hpos, hc.2⟩

end Segment

end PagedKernel
