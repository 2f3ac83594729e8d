import Mathlib.Algebra.Group.Nat.Defs
import Mathlib.Algebra.Ring.Int.Defs
import Mathlib.Data.List.Induction
import PagedKernel.Machine.Assembler
import PagedKernel.Machine.Cpu
import PagedKernel.Proofs.Machine.Instructions

/-!
# What the assembler makes of its calls

A text is written by calls of the assembler, one after the other, and what it has to say can be read
off the calls: every call but those that make or bind a label appends one instruction, and a label
is bound to the instruction that comes next. The assembler lays the instructions down as it is
called, the immediates of branches left zero, and keeps notes of these (`Laid`); finishing the text
goes through the notes and resolves one branch after the other, whatever comes before and behind it.

Key definitions: `Assembler.Call`, `Assembler.lines`, `Assembler.BoundAt`, `Assembler.Laid`.
Key theorems: `Assembler.laid_of_wellLabelled`, `Assembler.resolve_branches`,
`Assembler.displacement_leads`, `Assembler.finish_resolves`.
-/

namespace PagedKernel

/-! ### Branches of the processor -/

theorem toBitVec_signExtend {z : Int} (hlow : -2 ^ 31 ≤ z) (hhigh : z < 2 ^ 31) :
    (signExtend (Int32.ofInt z)).toBitVec = BitVec.ofInt 64 z := by
  show (BitVec.ofInt 32 z).signExtend 64 = BitVec.ofInt 64 z
  rw [BitVec.signExtend, BitVec.toInt_ofInt, Int.bmod_eq_of_le (by omega) (by omega)]

/-- The instruction `i` is a branch, and what it compares is as it asks for. -/
def Core.takes {n : Nat} (c : Core n) (i : Instruction) : Bool :=
  match i.op with
  | .jmp => true
  | .jeq => c.regs.get i.a == c.regs.get i.b
  | .jne => c.regs.get i.a != c.regs.get i.b
  | .jlt => (c.regs.get i.a).toInt64 < (c.regs.get i.b).toInt64
  | _ => false

/-- A branch that is taken goes as far as its immediate says from the instruction after it. -/
theorem Core.complete_of_takes {n : Nat} {c : Core n} {i : Instruction} (h : c.takes i = true) :
    c.complete i = pure (c.jump (c.regs.rip + 8 + signExtend i.imm)) := by
  unfold takes at h
  unfold complete
  cases hop : i.op <;> rw [hop] at h <;> dsimp only at h ⊢
  case jmp => rfl
  case jeq => rw [h]; rfl
  case jne => rw [h]; rfl
  case jlt => rw [h]; rfl
  all_goals cases h

namespace Assembler

/-! ### Calls -/

/-- One thing to ask of the assembler. -/
inductive Call
  | newLabel
  | bind (l : Label)
  | movi (dst : Reg) (imm : Int32)
  | mov (dst src : Reg)
  | addi (dst : Reg) (imm : Int32)
  | add (dst src : Reg)
  | sub (dst src : Reg)
  | load (dst base : Reg) (off : Int32)
  | store (base : Reg) (off : Int32) (src : Reg)
  | loadByte (dst base : Reg) (off : Int32)
  | storeByte (base : Reg) (off : Int32) (src : Reg)
  | jmp (target : Label)
  | jeq (a b : Reg) (target : Label)
  | jne (a b : Reg) (target : Label)
  | jlt (a b : Reg) (target : Label)
  | syscall
deriving DecidableEq

/-- What an instruction has for its immediate: a number, or the label that it branches to. -/
inductive Operand
  | imm (v : Int32)
  | label (l : Label)
deriving DecidableEq

/-- An instruction as it is asked for. -/
structure Line where
  op : Opcode
  a : Reg
  b : Reg
  operand : Operand
deriving DecidableEq

namespace Call

def perform (t : Assembler) : Call → Except Halt Assembler
  | newLabel => .ok t.newLabel.2
  | bind l => t.bind l
  | movi dst imm => .ok (t.movi dst imm)
  | mov dst src => .ok (t.mov dst src)
  | addi dst imm => .ok (t.addi dst imm)
  | add dst src => .ok (t.add dst src)
  | sub dst src => .ok (t.sub dst src)
  | load dst base off => .ok (t.load dst base off)
  | store base off src => .ok (t.store base off src)
  | loadByte dst base off => .ok (t.loadByte dst base off)
  | storeByte base off src => .ok (t.storeByte base off src)
  | jmp target => .ok (t.jmp target)
  | jeq a b target => .ok (t.jeq a b target)
  | jne a b target => .ok (t.jne a b target)
  | jlt a b target => .ok (t.jlt a b target)
  | syscall => .ok t.syscall

/-- The instruction that the call asks for, if it asks for one. What an instruction works on is in
`a`: the register that is set, or the base of the address that is stored to. What it takes is in
`b`. A register that it does not need is `rax`. -/
def line? : Call → Option Line
  | newLabel => none
  | bind _ => none
  | movi dst imm => some ⟨.movi, dst, .rax, .imm imm⟩
  | mov dst src => some ⟨.mov, dst, src, .imm 0⟩
  | addi dst imm => some ⟨.addi, dst, .rax, .imm imm⟩
  | add dst src => some ⟨.add, dst, src, .imm 0⟩
  | sub dst src => some ⟨.sub, dst, src, .imm 0⟩
  | load dst base off => some ⟨.load, dst, base, .imm off⟩
  | store base off src => some ⟨.store, base, src, .imm off⟩
  | loadByte dst base off => some ⟨.loadByte, dst, base, .imm off⟩
  | storeByte base off src => some ⟨.storeByte, base, src, .imm off⟩
  | jmp target => some ⟨.jmp, .rax, .rax, .label target⟩
  | jeq a b target => some ⟨.jeq, a, b, .label target⟩
  | jne a b target => some ⟨.jne, a, b, .label target⟩
  | jlt a b target => some ⟨.jlt, a, b, .label target⟩
  | syscall => some ⟨.syscall, .rax, .rax, .imm 0⟩

/-- The label that the call binds, if it binds one. -/
def bound? : Call → Option Label
  | bind l => some l
  | _ => none

/-- The label that the call names, if it names one. -/
def label? : Call → Option Label
  | bind l => some l
  | jmp target => some target
  | jeq _ _ target => some target
  | jne _ _ target => some target
  | jlt _ _ target => some target
  | _ => none

end Call

/-- Do what the calls ask for, from an empty text on. -/
def perform (calls : List Call) : Except Halt Assembler :=
  calls.foldlM Call.perform {}

def lines (calls : List Call) : List Line :=
  calls.filterMap Call.line?

/-- The label `l` is bound to the instruction at `offset`. -/
def BoundAt (calls : List Call) (l : Label) (offset : Nat) : Prop :=
  ∃ k, calls[k]? = some (.bind l) ∧ offset = instructionSize * (lines (calls.take k)).length

/-- Each label that is named has been made before, and none is bound twice. -/
structure WellLabelled (calls : List Call) : Prop where
  made : ∀ k (h : k < calls.length), ∀ l ∈ calls[k].label?,
    l.index < (calls.take k).count .newLabel
  once : (calls.filterMap Call.bound?).Nodup

/-! ### Laying the instructions down -/

namespace Line

/-- The instruction, with `imm` for the immediate of a branch. -/
def withImm (line : Line) (imm : Label → Int32) : Instruction :=
  ⟨line.op, line.a, line.b, match line.operand with
    | .imm v => v
    | .label l => imm l⟩

theorem imm_withImm {line : Line} {v : Int32} (h : line.operand = .imm v) (imm : Label → Int32) :
    (line.withImm imm).imm = v := by
  unfold withImm
  rw [h]

theorem imm_withImm_label {line : Line} {l : Label} (h : line.operand = .label l)
    (imm : Label → Int32) : (line.withImm imm).imm = imm l := by
  unfold withImm
  rw [h]

def append (t : Assembler) (line : Line) : Assembler :=
  match line.operand with
  | .imm v => t.emit line.op line.a line.b v
  | .label l => t.branch line.op line.a line.b l

end Line

/-- The bytes of the instructions as they are laid down. -/
def draft (ls : List Line) : List UInt8 :=
  (ls.map fun line => line.withImm fun _ => 0).flatMap Instruction.encode

/-- The notes for the branches among the instructions, the first of which is at `offset`. -/
def notes : Nat → List Line → List (Nat × Label)
  | _, [] => []
  | offset, line :: rest =>
    match line.operand with
    | .imm _ => notes (offset + instructionSize) rest
    | .label l => (offset, l) :: notes (offset + instructionSize) rest

theorem length_draft (ls : List Line) : (draft ls).length = instructionSize * ls.length := by
  rw [draft, Instruction.length_flatMap_encode, List.length_map]

theorem draft_append (ls ls' : List Line) : draft (ls ++ ls') = draft ls ++ draft ls' := by
  rw [draft, List.map_append, List.flatMap_append]
  rfl

theorem notes_append (ls' : List Line) : ∀ (ls : List Line) (offset : Nat),
    notes offset (ls ++ ls') =
      notes offset ls ++ notes (offset + instructionSize * ls.length) ls'
  | [], offset => rfl
  | line :: ls, offset => by
    have hoffset : offset + instructionSize * (line :: ls).length =
        offset + instructionSize + instructionSize * ls.length := by
      rw [List.length_cons, Nat.mul_succ]
      omega
    rw [List.cons_append, notes, notes, notes_append ls' ls, hoffset]
    cases line.operand <;> rfl

theorem lines_append (calls calls' : List Call) :
    lines (calls ++ calls') = lines calls ++ lines calls' :=
  List.filterMap_append

namespace Call

theorem perform_line {c : Call} {line : Line} (h : c.line? = some line) (t : Assembler) :
    c.perform t = .ok (line.append t) := by
  cases c <;> cases h <;> rfl

theorem label_line {c : Call} {line : Line} {l : Label} (h : c.line? = some line)
    (hl : line.operand = .label l) : c.label? = some l := by
  cases c <;> cases h <;> cases hl <;> rfl

end Call

/-- The assembler has done what the calls ask for. -/
structure Laid (calls : List Call) (t : Assembler) : Prop where
  code : t.code = draft (lines calls)
  branches : t.branches.toList = notes 0 (lines calls)
  made : t.labels.size = calls.count .newLabel
  bound : ∀ l offset, t.labels[l.index]? = some (some offset) ↔ BoundAt calls l offset

section
variable {calls : List Call} {t : Assembler} {c : Call} {l : Label} {offset : Nat}

theorem boundAt_concat : BoundAt (calls ++ [c]) l offset ↔
    BoundAt calls l offset ∨ c = .bind l ∧ offset = instructionSize * (lines calls).length := by
  constructor
  · rintro ⟨k, hk, hoffset⟩
    obtain hlt | rfl | hgt := Nat.lt_trichotomy k calls.length
    · rw [List.getElem?_append_left hlt] at hk
      rw [List.take_append_of_le_length (Nat.le_of_lt hlt)] at hoffset
      exact .inl ⟨k, hk, hoffset⟩
    · rw [List.getElem?_concat_length] at hk
      rw [List.take_left] at hoffset
      exact .inr ⟨Option.some.inj hk, hoffset⟩
    · rw [List.getElem?_eq_none (by rw [List.length_append]; exact hgt)] at hk
      cases hk
  · rintro (⟨k, hk, rfl⟩ | ⟨rfl, rfl⟩)
    · have hlt := (List.getElem?_eq_some_iff.mp hk).1
      refine ⟨k, ?_, ?_⟩
      · rw [List.getElem?_append_left hlt, hk]
      · rw [List.take_append_of_le_length (Nat.le_of_lt hlt)]
    · refine ⟨calls.length, List.getElem?_concat_length .., ?_⟩
      rw [List.take_left]

theorem BoundAt.le (h : BoundAt calls l offset) :
    offset ≤ instructionSize * (lines calls).length := by
  obtain ⟨k, -, rfl⟩ := h
  have hsub : (lines (calls.take k)).length ≤ (lines calls).length :=
    ((List.take_sublist k calls).filterMap _).length_le
  exact Nat.mul_le_mul_left _ hsub

theorem BoundAt.mem (h : BoundAt calls l offset) : l ∈ calls.filterMap Call.bound? := by
  obtain ⟨k, hk, -⟩ := h
  exact List.mem_filterMap.mpr ⟨_, List.mem_of_getElem? hk, rfl⟩

theorem WellLabelled.of_concat (h : WellLabelled (calls ++ [c])) : WellLabelled calls where
  made k hk l hl := by
    have hmade := h.made k (by simp; omega) l
    rw [List.take_append_of_le_length (Nat.le_of_lt hk)] at hmade
    refine hmade ?_
    rw [List.getElem_append_left hk]
    exact hl
  once := by
    have honce := h.once
    rw [List.filterMap_append] at honce
    exact (List.nodup_append.mp honce).1

theorem WellLabelled.made_concat (h : WellLabelled (calls ++ [c])) (hl : c.label? = some l) :
    l.index < calls.count .newLabel := by
  have hmade := h.made calls.length (by simp) l
  rw [List.getElem_concat_length rfl, List.take_left] at hmade
  exact hmade hl

theorem WellLabelled.once_concat (h : WellLabelled (calls ++ [.bind l])) :
    l ∉ calls.filterMap Call.bound? := by
  have honce := h.once
  rw [List.filterMap_append] at honce
  exact fun hmem => (List.nodup_append.mp honce).2.2 l hmem l (List.mem_singleton_self l) rfl

theorem Laid.start : Laid [] {} where
  code := rfl
  branches := rfl
  made := rfl
  bound l offset := by
    refine iff_of_false (fun h => by cases h) ?_
    rintro ⟨k, hk, -⟩
    cases hk

/-- A call that asks for an instruction appends it. -/
theorem Laid.append (h : Laid calls t) {line : Line} (hc : c.line? = some line) :
    Laid (calls ++ [c]) (line.append t) := by
  have hlines : lines (calls ++ [c]) = lines calls ++ [line] := by
    rw [lines_append, lines, lines, List.filterMap_cons_some hc, List.filterMap_nil]
  have hne : c ≠ .newLabel := fun heq => by subst heq; cases hc
  have hhere : t.here = instructionSize * (lines calls).length := by
    rw [here, h.code, length_draft]
  have hlabels : (line.append t).labels = t.labels := by
    unfold Line.append
    cases line.operand <;> rfl
  refine ⟨?_, ?_, ?_, fun l offset => ?_⟩
  · have hcode : (line.append t).code = t.code ++ draft [line] := by
      unfold Line.append draft Line.withImm
      rw [List.map_singleton, List.flatMap_singleton]
      cases line.operand <;> rfl
    rw [hcode, h.code, hlines, draft_append]
  · have hbranches : (line.append t).branches.toList = t.branches.toList ++ notes t.here [line] := by
      unfold Line.append notes
      cases line.operand
      · exact (List.append_nil _).symm
      · exact Array.toList_push
    rw [hbranches, h.branches, hlines, notes_append, Nat.zero_add, hhere]
  · rw [hlabels, h.made, List.count_append, List.count_singleton, if_neg (by simpa using hne)]
    rfl
  · rw [hlabels, h.bound, boundAt_concat, or_iff_left]
    rintro ⟨rfl, -⟩
    cases hc

theorem Laid.newLabel (h : Laid calls t) : Laid (calls ++ [.newLabel]) t.newLabel.2 := by
  have hlines : lines (calls ++ [.newLabel]) = lines calls := by
    rw [lines_append]
    exact List.append_nil _
  refine ⟨hlines ▸ h.code, hlines ▸ h.branches, ?_, fun l offset => ?_⟩
  · rw [List.count_append, ← h.made]
    exact Array.size_push _
  · rw [boundAt_concat, or_iff_left (fun hc => nomatch hc.1), ← h.bound l offset]
    show (t.labels.push none)[l.index]? = _ ↔ _
    rw [Array.getElem?_push]
    by_cases hl : l.index = t.labels.size
    · rw [if_pos hl, Array.getElem?_eq_none (Nat.le_of_eq hl.symm)]
      exact iff_of_false nofun nofun
    · rw [if_neg hl]

theorem Laid.bind (h : Laid calls t) (hmade : l.index < calls.count .newLabel)
    (honce : l ∉ calls.filterMap Call.bound?) :
    ∃ t', t.bind l = .ok t' ∧ Laid (calls ++ [.bind l]) t' := by
  have hlt : l.index < t.labels.size := h.made ▸ hmade
  have hnone : t.labels[l.index]? = some none := by
    cases hl : t.labels[l.index] with
    | none => rw [Array.getElem?_eq_getElem hlt, hl]
    | some offset =>
      have hbound : t.labels[l.index]? = some (some offset) := by
        rw [Array.getElem?_eq_getElem hlt, hl]
      exact absurd ((h.bound l offset).mp hbound).mem honce
  have hlines : lines (calls ++ [.bind l]) = lines calls := by
    rw [lines_append]
    exact List.append_nil _
  have hhere : t.here = instructionSize * (lines calls).length := by
    rw [here, h.code, length_draft]
  refine ⟨{ t with labels := t.labels.setIfInBounds l.index (some t.here) }, ?_,
    hlines ▸ h.code, hlines ▸ h.branches, ?_, fun l' offset => ?_⟩
  · unfold Assembler.bind
    rw [hnone]
  · rw [List.count_append, ← h.made]
    exact Array.size_setIfInBounds
  · rw [boundAt_concat, ← h.bound]
    show (t.labels.setIfInBounds l.index (some t.here))[l'.index]? = _ ↔ _
    rw [Array.getElem?_setIfInBounds, hhere]
    by_cases hl : l.index = l'.index
    · obtain rfl : l = l' := by
        cases l
        cases l'
        exact congrArg Label.mk hl
      rw [if_pos rfl, if_pos hlt, hnone]
      simp [eq_comm]
    · rw [if_neg hl, or_iff_left]
      rintro ⟨heq, -⟩
      cases heq
      exact hl rfl

/-- **The assembler does what it is asked for.** -/
theorem laid_of_wellLabelled (calls : List Call) (h : WellLabelled calls) :
    ∃ t, perform calls = .ok t ∧ Laid calls t := by
  induction calls using List.reverseRecOn with
  | nil => exact ⟨{}, rfl, .start⟩
  | append_singleton calls c ih =>
    obtain ⟨t, hperform, ht⟩ := ih h.of_concat
    have hnext : ∃ t', c.perform t = .ok t' ∧ Laid (calls ++ [c]) t' := by
      cases hc : c.line? with
      | some line => exact ⟨_, c.perform_line hc t, ht.append hc⟩
      | none =>
        cases c with
        | newLabel => exact ⟨_, rfl, ht.newLabel⟩
        | bind l => exact ht.bind (h.made_concat rfl) h.once_concat
        | _ => cases hc
    obtain ⟨t', hc, ht'⟩ := hnext
    refine ⟨t', ?_, ht'⟩
    unfold perform at hperform ⊢
    rw [List.foldlM_append, hperform]
    show (List.foldlM Call.perform t [c] : Except Halt Assembler) = _
    rw [List.foldlM_cons, hc]
    rfl

end

/-! ### Resolving the branches -/

/-- The immediate of one instruction is exchanged, wherever it stands. -/
theorem putImm_encode (before after : List UInt8) (op : Opcode) (a b : Reg) (imm imm' : Int32) :
    putImm (before ++ Instruction.encode ⟨op, a, b, imm⟩ ++ after) before.length imm' =
      before ++ Instruction.encode ⟨op, a, b, imm'⟩ ++ after := by
  have htake : (before ++ Instruction.encode ⟨op, a, b, imm⟩ ++ after).take (before.length + 4) =
      before ++ [op.code, a.code, b.code, 0] := by
    have hsplit : before ++ Instruction.encode ⟨op, a, b, imm⟩ ++ after =
        before ++ [op.code, a.code, b.code, 0] ++ (bytesOfImm imm ++ after) := by
      unfold Instruction.encode
      simp only [List.append_assoc]
    rw [hsplit]
    exact List.take_left' (List.length_append ..)
  have hdrop : (before ++ Instruction.encode ⟨op, a, b, imm⟩ ++ after).drop
      (before.length + instructionSize) = after := by
    refine List.drop_left' ?_
    rw [List.length_append, Instruction.length_encode]
  unfold putImm
  rw [htake, hdrop, Instruction.encode, ← List.append_assoc before]

/-- The instructions with their branches resolved, if the first is at `offset` and each label at
`place`. -/
def resolved (place : Label → Nat) (offset : Nat) (ls : List Line) : List Instruction :=
  ls.mapIdx fun k line =>
    line.withImm fun l => displacement (offset + instructionSize * k) (place l)

theorem resolved_cons (place : Label → Nat) (offset : Nat) (line : Line) (ls : List Line) :
    resolved place offset (line :: ls) =
      (line.withImm fun l => displacement offset (place l)) ::
        resolved place (offset + instructionSize) ls := by
  unfold resolved
  have hnext : ∀ k, offset + instructionSize * (k + 1) =
      offset + instructionSize + instructionSize * k := fun k => by
    rw [Nat.mul_succ]
    omega
  rw [List.mapIdx_cons]
  simp only [hnext]
  rfl

/-- **One branch after the other is resolved**, if the labels are bound. What comes before the
instructions and behind them does not matter. -/
theorem resolve_branches {t : Assembler} {place : Label → Nat} (after : List UInt8) :
    ∀ (ls : List Line) (before : List UInt8),
      (∀ line ∈ ls, ∀ l, line.operand = .label l →
        t.labels[l.index]? = some (some (place l))) →
      (notes before.length ls).foldlM t.resolve (before ++ draft ls ++ after) =
        .ok (before ++ (resolved place before.length ls).flatMap Instruction.encode ++ after)
  | [], before, _ => rfl
  | line :: ls, before, h => by
    -- the rest is behind the instruction, whatever immediate that has
    have ih : ∀ i : Instruction,
        (notes (before.length + instructionSize) ls).foldlM t.resolve
            (before ++ i.encode ++ (draft ls ++ after)) =
          .ok (before ++ (i.encode ++ (resolved place (before.length + instructionSize) ls).flatMap
            Instruction.encode) ++ after) := fun i => by
      have hrest := resolve_branches after ls (before ++ i.encode) fun line' hmem =>
        h line' (List.mem_cons_of_mem _ hmem)
      rw [List.length_append, Instruction.length_encode] at hrest
      rw [← List.append_assoc, hrest]
      simp only [List.append_assoc]
    have hdraft : before ++ draft (line :: ls) ++ after =
        before ++ (line.withImm fun _ => 0).encode ++ (draft ls ++ after) := by
      rw [draft, List.map_cons, List.flatMap_cons]
      simp only [List.append_assoc]
      rfl
    rw [hdraft, resolved_cons, List.flatMap_cons, notes]
    cases hoperand : line.operand with
    | imm v =>
      have hsame : (line.withImm fun _ => 0) =
          line.withImm fun l => displacement before.length (place l) := by
        unfold Line.withImm
        rw [hoperand]
      rw [hsame]
      exact ih _
    | label l =>
      have hput : t.resolve (before ++ (line.withImm fun _ => 0).encode ++ (draft ls ++ after))
          (before.length, l) =
          .ok (before ++ (line.withImm fun l => displacement before.length (place l)).encode ++
            (draft ls ++ after)) := by
        unfold resolve Line.withImm
        rw [h line List.mem_cons_self l hoperand, hoperand]
        exact congrArg Except.ok (putImm_encode ..)
      rw [List.foldlM_cons, hput]
      exact ih _

/-- The first branch whose label is bound nowhere halts. -/
theorem resolve_unbound {t : Assembler} {place : Label → Nat} {ls : List Line}
    {line : Line} {l : Label} (rest : List Line) (hl : line.operand = .label l)
    (hnone : t.labels[l.index]? = some none)
    (h : ∀ line ∈ ls, ∀ l, line.operand = .label l → t.labels[l.index]? = some (some (place l))) :
    (notes 0 (ls ++ line :: rest)).foldlM t.resolve (draft (ls ++ line :: rest)) =
      .error (.unboundLabel l.index) := by
  have hbefore := resolve_branches (draft (line :: rest)) ls [] h
  have hnote : notes (0 + instructionSize * ls.length) (line :: rest) =
      (0 + instructionSize * ls.length, l) ::
        notes (0 + instructionSize * ls.length + instructionSize) rest := by
    rw [notes, hl]
  rw [draft_append, notes_append, List.foldlM_append, hnote]
  rw [List.nil_append, List.length_nil] at hbefore
  rw [hbefore]
  show List.foldlM t.resolve _ _ = _
  rw [List.foldlM_cons]
  have hhalt : ∀ code offset, t.resolve code (offset, l) = .error (.unboundLabel l.index) :=
    fun code offset => by
      unfold resolve
      rw [hnone]
  rw [hhalt]
  rfl

/-! ### Where a branch leads -/

/-- From the end of the instruction at one offset the displacement leads to the other, wherever the
text is loaded. -/
theorem displacement_leads (base : UInt64) {offset target : Nat}
    (ho : offset + instructionSize ≤ 2 ^ 31) (ht : target < 2 ^ 31) :
    base + UInt64.ofNat offset + 8 + signExtend (displacement offset target) =
      base + UInt64.ofNat target := by
  have hword : ∀ k : Nat, (UInt64.ofNat k).toBitVec = BitVec.ofInt 64 k := fun k =>
    (BitVec.ofInt_natCast 64 k).symm
  have hsign : (signExtend (displacement offset target)).toBitVec =
      BitVec.ofInt 64 (target - ((offset : Int) + instructionSize)) :=
    toBitVec_signExtend (by omega) (by omega)
  have hsum : (offset : Int) + (instructionSize + (target - ((offset : Int) + instructionSize))) =
      target := by omega
  rw [UInt64.add_assoc, UInt64.add_assoc]
  refine congrArg (base + ·) ?_
  rw [← UInt64.toBitVec_inj, UInt64.toBitVec_add, UInt64.toBitVec_add, hsign, hword, hword]
  show BitVec.ofInt 64 offset + (BitVec.ofInt 64 instructionSize + BitVec.ofInt 64 _) = _
  rw [← BitVec.ofInt_add, ← BitVec.ofInt_add, hsum]

/-- Wherever the text is loaded, the branch `i` at `offset` leads to `target`: its immediate is the
distance from the instruction after it, and a processor that takes it goes on there. -/
def Leads (i : Instruction) (offset target : Nat) : Prop :=
  ∀ base : UInt64,
    base + UInt64.ofNat offset + 8 + signExtend i.imm = base + UInt64.ofNat target ∧
      ∀ {n : Nat} (c : Core n), c.regs.rip = base + UInt64.ofNat offset → c.takes i = true →
        c.complete i = pure (c.jump (base + UInt64.ofNat target))

theorem leads_displacement {i : Instruction} {offset target : Nat}
    (hi : i.imm = displacement offset target) (ho : offset + instructionSize ≤ 2 ^ 31)
    (ht : target < 2 ^ 31) : Leads i offset target := by
  intro base
  have hleads := displacement_leads base ho ht
  rw [← hi] at hleads
  refine ⟨hleads, fun c hrip htakes => ?_⟩
  rw [Core.complete_of_takes htakes, hrip, hleads]

/-! ### The finished text -/

section
variable {calls : List Call} {t : Assembler} {l : Label}

theorem Laid.lt_labels (h : Laid calls t) (hw : WellLabelled calls) {line : Line}
    (hline : line ∈ lines calls) (hl : line.operand = .label l) : l.index < t.labels.size := by
  obtain ⟨call, hmem, hcall⟩ := List.mem_filterMap.mp hline
  obtain ⟨k, hk, rfl⟩ := List.getElem_of_mem hmem
  have hlt := hw.made k hk l (Call.label_line hcall hl)
  rw [h.made]
  exact Nat.lt_of_lt_of_le hlt ((List.take_sublist k calls).count_le _)

theorem Laid.unbound (h : Laid calls t) (hlt : l.index < t.labels.size)
    (hnone : ∀ offset, ¬ BoundAt calls l offset) : t.labels[l.index]? = some none := by
  rw [Array.getElem?_eq_getElem hlt]
  cases hl : t.labels[l.index] with
  | none => rfl
  | some offset =>
    refine absurd ((h.bound l offset).mp ?_) (hnone offset)
    rw [Array.getElem?_eq_getElem hlt, hl]

/-- The branch `line` names a label that is bound nowhere. -/
def Dangles (calls : List Call) (line : Line) : Prop :=
  ∃ l, line.operand = .label l ∧ ∀ offset, ¬ BoundAt calls l offset

/-- The offset at which a label is bound, if it is. -/
def place (t : Assembler) (l : Label) : Nat :=
  (t.labels[l.index]?.join).getD 0

theorem Laid.place_eq (h : Laid calls t) {offset : Nat} (hl : BoundAt calls l offset) :
    t.place l = offset := by
  unfold place
  rw [(h.bound l offset).mpr hl]
  rfl

theorem exists_boundAt {line : Line} (hline : ¬ Dangles calls line)
    (hl : line.operand = .label l) : ∃ offset, BoundAt calls l offset := by
  by_contra hnone
  exact hline ⟨l, hl, fun offset hoffset => hnone ⟨offset, hoffset⟩⟩

theorem Laid.labels_eq (h : Laid calls t) {line : Line} (hline : ¬ Dangles calls line)
    (hl : line.operand = .label l) : t.labels[l.index]? = some (some (t.place l)) := by
  obtain ⟨offset, hoffset⟩ := exists_boundAt hline hl
  rw [h.place_eq hoffset]
  exact (h.bound l offset).mpr hoffset

/-- The text has eight bytes for each instruction that was asked for. They decode to it, and if it
is a branch, it leads to where its label is bound. -/
structure Says (calls : List Call) (text : List UInt8) : Prop where
  length : text.length = instructionSize * (lines calls).length
  decode : ∀ k line, (lines calls)[k]? = some line → ∃ i : Instruction,
    Instruction.decode ((text.drop (instructionSize * k)).take instructionSize) = some i ∧
      i.op = line.op ∧ i.a = line.a ∧ i.b = line.b ∧
      (∀ v, line.operand = .imm v → i.imm = v) ∧
      ∀ l, line.operand = .label l →
        ∃ offset, BoundAt calls l offset ∧ Leads i (instructionSize * k) offset

/-- A text is finished if all its labels are bound. -/
theorem Laid.says (h : Laid calls t) (hsize : instructionSize * (lines calls).length < 2 ^ 31)
    (hall : ∀ line ∈ lines calls, ¬ Dangles calls line) :
    ∃ text, t.finish = .ok text ∧ Says calls text := by
  have hresolve := resolve_branches [] (lines calls) [] fun line hline l hl =>
    h.labels_eq (hall line hline) hl
  rw [List.append_nil, List.append_nil, List.nil_append, List.nil_append, List.length_nil,
    ← h.code, ← h.branches] at hresolve
  have hlen : (resolved t.place 0 (lines calls)).length = (lines calls).length :=
    List.length_mapIdx
  refine ⟨_, hresolve, ?_, fun k line hk => ?_⟩
  · rw [Instruction.length_flatMap_encode, hlen]
  · obtain ⟨hlt, rfl⟩ := List.getElem?_eq_some_iff.mp hk
    have hget : (resolved t.place 0 (lines calls))[k] = (lines calls)[k].withImm fun l =>
        displacement (instructionSize * k) (t.place l) := by
      unfold resolved
      rw [List.getElem_mapIdx, Nat.zero_add]
    rw [Instruction.slice_flatMap_encode _ k (hlen.symm ▸ hlt), Instruction.decode_encode, hget]
    refine ⟨_, rfl, rfl, rfl, rfl, fun v hv => Line.imm_withImm hv _, fun l hl => ?_⟩
    obtain ⟨offset, hoffset⟩ := exists_boundAt (hall _ (List.getElem_mem hlt)) hl
    have htarget := hoffset.le
    have hend : instructionSize * (k + 1) ≤ instructionSize * (lines calls).length :=
      Nat.mul_le_mul_left _ hlt
    rw [Nat.mul_succ] at hend
    refine ⟨offset, hoffset, leads_displacement ?_ (by omega) (by omega)⟩
    rw [Line.imm_withImm_label hl, h.place_eq hoffset]

/-- A text with a label that is bound nowhere halts on the first branch to such a label. -/
theorem Laid.halts (h : Laid calls t) (hw : WellLabelled calls)
    (hsome : ∃ line ∈ lines calls, Dangles calls line) :
    ∃ before line after l, lines calls = before ++ line :: after ∧ line.operand = .label l ∧
      (∀ offset, ¬ BoundAt calls l offset) ∧ (∀ line ∈ before, ¬ Dangles calls line) ∧
      t.finish = .error (.unboundLabel l.index) := by
  classical
  obtain ⟨line, hline⟩ : ∃ line, (lines calls).find? (fun line => Dangles calls line) = some line := by
    rw [← Option.isSome_iff_exists, List.find?_isSome]
    obtain ⟨line, hmem, hdangles⟩ := hsome
    exact ⟨line, hmem, decide_eq_true hdangles⟩
  obtain ⟨hdangles, before, after, hsplit, hfirst⟩ := List.find?_eq_some_iff_append.mp hline
  obtain ⟨l, hl, hnone⟩ := of_decide_eq_true hdangles
  have hbefore : ∀ line ∈ before, ¬ Dangles calls line := fun line hmem => by
    simpa using hfirst line hmem
  refine ⟨before, line, after, l, hsplit, hl, hnone, hbefore, ?_⟩
  have hmem : line ∈ lines calls := by
    rw [hsplit]
    simp
  have hhalt := resolve_unbound after hl (h.unbound (h.lt_labels hw hmem hl) hnone)
    fun line hmem l hl => h.labels_eq (hbefore line hmem) hl
  rw [← hsplit, ← h.code, ← h.branches] at hhalt
  exact hhalt

end

/-- **The assembler resolves every branch.** Whatever is asked of it, as long as each label is made
before it is named and bound once at most, and the text is shorter than `2 ^ 31` bytes: finishing
the text halts just if a branch names a label that is bound nowhere, and then on the first such
branch; otherwise the text says what was asked for, and each branch leads to where its label is
bound. -/
theorem finish_resolves (calls : List Call) (hw : WellLabelled calls)
    (hsize : instructionSize * (lines calls).length < 2 ^ 31) :
    ∃ t, perform calls = .ok t ∧
      ((∃ cause, t.finish = .error cause) ↔ ∃ line ∈ lines calls, Dangles calls line) ∧
      (∀ cause, t.finish = .error cause → ∃ before line after l,
        lines calls = before ++ line :: after ∧ line.operand = .label l ∧
          (∀ offset, ¬ BoundAt calls l offset) ∧ (∀ line ∈ before, ¬ Dangles calls line) ∧
          cause = .unboundLabel l.index) ∧
      ∀ text, t.finish = .ok text → Says calls text := by
  obtain ⟨t, hperform, ht⟩ := laid_of_wellLabelled calls hw
  refine ⟨t, hperform, ?_⟩
  by_cases hall : ∃ line ∈ lines calls, Dangles calls line
  · obtain ⟨before, line, after, l, hsplit, hl, hnone, hbefore, hfinish⟩ := ht.halts hw hall
    rw [hfinish]
    refine ⟨iff_of_true ⟨_, rfl⟩ hall, ?_, nofun⟩
    rintro cause ⟨⟩
    exact ⟨before, line, after, l, hsplit, hl, hnone, hbefore, rfl⟩
  · obtain ⟨text, hfinish, hsays⟩ := ht.says hsize fun line hmem hdangles =>
      hall ⟨line, hmem, hdangles⟩
    rw [hfinish]
    refine ⟨iff_of_false ?_ hall, ?_, ?_⟩
    · rintro ⟨cause, ⟨⟩⟩
    · rintro cause ⟨⟩
    · rintro _ ⟨⟩
      exact hsays

/-- A loop: `jeq` leaves it for a label that is bound behind the branch, `jmp` goes back to one that
is bound before. -/
def loop : List Call :=
  [.newLabel, .newLabel, .bind ⟨0⟩, .addi .rbx 1, .jeq .rbx .rcx ⟨1⟩, .jmp ⟨0⟩, .bind ⟨1⟩, .syscall]

theorem loop_wellLabelled : WellLabelled loop :=
  ⟨by decide, by decide⟩

theorem finish_resolves_loop : WellLabelled loop ∧ instructionSize * (lines loop).length < 2 ^ 31 ∧
    ∃ t text, perform loop = .ok t ∧ t.finish = .ok text ∧ Says loop text := by
  have hsize : instructionSize * (lines loop).length < 2 ^ 31 := by decide
  obtain ⟨t, hperform, -, -, hsays⟩ := finish_resolves loop loop_wellLabelled hsize
  obtain ⟨text, hfinish⟩ : ∃ text, t.finish = .ok text := by
    cases hperform
    exact ⟨_, rfl⟩
  exact ⟨loop_wellLabelled, hsize, t, text, hperform, hfinish, hsays text hfinish⟩

end Assembler

end PagedKernel
