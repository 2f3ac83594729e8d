import PagedKernel.Machine.Instruction

/-!
# Instructions and texts

The bytes of an instruction decode to it, and nothing else does: `Instruction.decode` accepts what
`Instruction.encode` writes. A text is the bytes of its instructions, one after the other, and each
of them is found where it starts.

Key theorems: `Instruction.decode_eq_some_iff`, `Instruction.isSome_decode`,
`Instruction.encoding_exact`, `Instruction.slice_flatMap_encode`.
-/

namespace PagedKernel

/-- The bytes of an immediate make it up again. -/
theorem immOfBytes_bytes (imm : Int32) :
    immOfBytes imm.toUInt32.toUInt8 (imm.toUInt32 >>> 8).toUInt8 (imm.toUInt32 >>> 16).toUInt8
      (imm.toUInt32 >>> 24).toUInt8 = imm := by
  have hword : ∀ w : UInt32, w.toUInt8.toUInt32 + (w >>> 8).toUInt8.toUInt32 <<< 8 +
      (w >>> 16).toUInt8.toUInt32 <<< 16 + (w >>> 24).toUInt8.toUInt32 <<< 24 = w := fun w => by
    rw [← UInt32.toNat_inj]
    have hw := w.toNat_lt
    simp only [UInt32.toNat_add, UInt32.toNat_shiftLeft, UInt8.toNat_toUInt32,
      UInt32.toNat_toUInt8, UInt32.toNat_shiftRight, Nat.shiftRight_eq_div_pow, Nat.shiftLeft_eq]
    simp only [UInt32.reduceToNat, Nat.reduceMod, Nat.reducePow]
    omega
  unfold immOfBytes
  rw [hword]
  rfl

theorem bytesOfImm_immOfBytes (b0 b1 b2 b3 : UInt8) :
    bytesOfImm (immOfBytes b0 b1 b2 b3) = [b0, b1, b2, b3] := by
  have h0 := b0.toNat_lt
  have h1 := b1.toNat_lt
  have h2 := b2.toNat_lt
  have h3 := b3.toNat_lt
  have hword : (immOfBytes b0 b1 b2 b3).toUInt32.toNat =
      b0.toNat + b1.toNat * 2 ^ 8 + b2.toNat * 2 ^ 16 + b3.toNat * 2 ^ 24 := by
    show (b0.toUInt32 + b1.toUInt32 <<< 8 + b2.toUInt32 <<< 16 + b3.toUInt32 <<< 24).toNat = _
    simp only [UInt32.toNat_add, UInt32.toNat_shiftLeft, UInt8.toNat_toUInt32, Nat.shiftLeft_eq]
    simp only [UInt32.reduceToNat, Nat.reduceMod, Nat.reducePow]
    omega
  unfold bytesOfImm
  generalize (immOfBytes b0 b1 b2 b3).toUInt32 = w at hword
  simp only [List.cons.injEq, and_true, ← UInt8.toNat_inj, UInt32.toNat_toUInt8,
    UInt32.toNat_shiftRight, Nat.shiftRight_eq_div_pow]
  simp only [UInt32.reduceToNat, Nat.reduceMod, Nat.reducePow]
  omega

namespace Opcode

theorem ofCode?_eq_some_iff {v : UInt8} {op : Opcode} : ofCode? v = some op ↔ op.code = v := by
  constructor
  · intro h
    unfold ofCode? at h
    have hcode := List.find?_some h
    exact eq_of_beq hcode
  · rintro rfl
    exact ofCode?_code op

/-- The codes are those from 1 to 13, and 15. -/
theorem isSome_ofCode? (v : UInt8) :
    (ofCode? v).isSome = true ↔ (1 ≤ v ∧ v ≤ 0x0d) ∨ v = 0x0f := by
  have hall : ∀ k < 256, (ofCode? (UInt8.ofNat k)).isSome = true ↔
      (1 ≤ UInt8.ofNat k ∧ UInt8.ofNat k ≤ 0x0d) ∨ UInt8.ofNat k = 0x0f := by decide +kernel
  have hv := hall v.toNat v.toNat_lt
  rwa [UInt8.ofNat_toNat] at hv

end Opcode

namespace Reg

theorem ofCode?_eq_some_iff {v : UInt8} {r : Reg} : ofCode? v = some r ↔ r.code = v := by
  constructor
  · intro h
    obtain ⟨hlt, rfl⟩ := List.getElem?_eq_some_iff.mp h
    have hcode : ∀ k (hk : k < all.length), all[k].code = UInt8.ofNat k := by decide
    rw [hcode, UInt8.ofNat_toNat]
  · rintro rfl
    exact ofCode?_code r

theorem isSome_ofCode? (v : UInt8) : (ofCode? v).isSome = true ↔ v < 16 := by
  unfold ofCode?
  rw [isSome_getElem?]
  exact Iff.rfl

end Reg

namespace Instruction

theorem length_encode (i : Instruction) : i.encode.length = instructionSize := rfl

/-- **Decoding the bytes of an instruction** gives it back. -/
theorem decode_encode (i : Instruction) : decode i.encode = some i := by
  show (if (0 : UInt8) = 0 then (do
      let op ← Opcode.ofCode? i.op.code
      let a ← Reg.ofCode? i.a.code
      let b ← Reg.ofCode? i.b.code
      return ⟨op, a, b, immOfBytes _ _ _ _⟩ : Option Instruction) else none) = _
  rw [if_pos rfl, Opcode.ofCode?_code, Reg.ofCode?_code, Reg.ofCode?_code, immOfBytes_bytes]
  rfl

/-- **What decodes to an instruction** is its bytes. -/
theorem decode_eq_some_iff {raw : List UInt8} {i : Instruction} :
    decode raw = some i ↔ raw = i.encode := by
  constructor
  · intro h
    unfold decode at h
    split at h
    · next op a b zero b0 b1 b2 b3 =>
      split at h
      · next hzero =>
        obtain ⟨op', hop, h⟩ := Option.bind_eq_some_iff.mp h
        obtain ⟨a', ha, h⟩ := Option.bind_eq_some_iff.mp h
        obtain ⟨b', hb, h⟩ := Option.bind_eq_some_iff.mp h
        cases h
        unfold encode
        rw [bytesOfImm_immOfBytes, Opcode.ofCode?_eq_some_iff.mp hop, Reg.ofCode?_eq_some_iff.mp ha,
          Reg.ofCode?_eq_some_iff.mp hb, hzero]
        rfl
      · cases h
    · cases h
  · rintro rfl
    exact decode_encode i

/-- Eight bytes are those of an instruction if the fourth is zero and the three before are codes. -/
theorem isSome_decode (op a b zero b0 b1 b2 b3 : UInt8) :
    (decode [op, a, b, zero, b0, b1, b2, b3]).isSome = true ↔
      zero = 0 ∧ ((1 ≤ op ∧ op ≤ 0x0d) ∨ op = 0x0f) ∧ a < 16 ∧ b < 16 := by
  rw [← Opcode.isSome_ofCode?, ← Reg.isSome_ofCode?, ← Reg.isSome_ofCode?]
  rw [decode]
  by_cases hzero : zero = 0
  · rw [if_pos hzero]
    cases Opcode.ofCode? op <;> cases Reg.ofCode? a <;> cases Reg.ofCode? b <;> simp [hzero]
  · rw [if_neg hzero]
    simp [hzero]

/-- **Encoding and decoding are inverse to each other.** An instruction is decoded from its bytes,
and what decodes has the bytes of what it decodes to; so no two accepted encodings are of one
instruction. Accepted are eight bytes of which the first is the code of an opcode, the next two
are below 16 and the fourth is zero. -/
theorem encoding_exact :
    (∀ i, decode (encode i) = some i) ∧
      (∀ raw i, decode raw = some i → encode i = raw) ∧
      (∀ op a b zero b0 b1 b2 b3, (decode [op, a, b, zero, b0, b1, b2, b3]).isSome = true ↔
        zero = 0 ∧ ((0x01 ≤ op ∧ op ≤ 0x0d) ∨ op = 0x0f) ∧ a < 16 ∧ b < 16) ∧
      ∀ raw raw' i, decode raw = some i → decode raw' = some i → raw' = raw := by
  refine ⟨decode_encode, fun raw i h => (decode_eq_some_iff.mp h).symm, isSome_decode,
    fun raw raw' i h h' => ?_⟩
  rw [decode_eq_some_iff.mp h, decode_eq_some_iff.mp h']

/-- A branch back by two instructions. -/
theorem encoding_exact_back :
    decode [9, 0, 0, 0, 0xf0, 0xff, 0xff, 0xff] = some ⟨.jmp, .rax, .rax, -16⟩ ∧
      encode ⟨.jmp, .rax, .rax, -16⟩ = [9, 0, 0, 0, 0xf0, 0xff, 0xff, 0xff] := by
  have hdecode : decode [9, 0, 0, 0, 0xf0, 0xff, 0xff, 0xff] = some ⟨.jmp, .rax, .rax, -16⟩ := by
    decide
  exact ⟨hdecode, encoding_exact.2.1 _ _ hdecode⟩

/-- The bytes of the instruction number `j` of a text. -/
theorem slice_flatMap_encode : ∀ (l : List Instruction) (j : Nat) (hj : j < l.length),
    ((l.flatMap encode).drop (instructionSize * j)).take instructionSize = l[j].encode
  | i :: rest, 0, _ => by
    rw [List.flatMap_cons, Nat.mul_zero, List.drop_zero, List.take_left' (length_encode i)]
    rfl
  | i :: rest, j + 1, hj => by
    rw [List.flatMap_cons, Nat.mul_succ, Nat.add_comm, ← List.drop_drop,
      List.drop_left' (length_encode i)]
    exact slice_flatMap_encode rest j (Nat.lt_of_succ_lt_succ hj)

theorem length_flatMap_encode (l : List Instruction) :
    (l.flatMap encode).length = instructionSize * l.length := by
  induction l with
  | nil => rfl
  | cons i rest ih =>
    rw [List.flatMap_cons, List.length_append, ih, length_encode, List.length_cons, Nat.mul_succ,
      Nat.add_comm]

end Instruction

end PagedKernel
