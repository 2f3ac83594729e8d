import PagedKernel.Machine.Instruction
import PagedKernel.Process.SystemCall
import PagedKernel.Proofs.Process.Build

/-!
# Outlines of programs

An outline is what can be said beforehand of a program that has a page of text: the stages that it
comes by, each with what is then known of the registers. It need not know much. What it has to make
sure of is that the program goes from one of its stages to another, whatever the kernel answers, and
never does anything that faults or halts the kernel. To write to a page the program has to have been
given it, and this is what the facts about registers are for: the programs keep the address of the
next page in `rbx`, and look at the answer to a call for that page before they write there.

An outline also tells the processes that never end from those that may. A child may, since it knows
that it is one by the answer to its fork.

`Program.vetted` looks for an outline of a program, from its entry on.

Key definitions: `Fact`, `Facts`, `Stage`, `Stage.next?`, `Outline`, `Program.Follows`,
`Program.vetted`.
Key theorems: `Facts.Hold.set`, `Facts.Hold.agree`, `Program.exists_follows`.
-/

namespace PagedKernel

/-! ### Facts -/

/-- The word `x` is the address of a page after page number `v`. -/
def PageAfter (v : Nat) (x : UInt64) : Prop :=
  x.toNat % pageSize = 0 ∧ v < x.toNat / pageSize

instance (v : Nat) (x : UInt64) : Decidable (PageAfter v x) :=
  inferInstanceAs (Decidable (_ ∧ _))

/-- What is known of the contents of a register. -/
inductive Fact
  /-- Nothing. -/
  | any
  /-- It is the word `w`. -/
  | word (w : UInt64)
  /-- It is not zero. -/
  | nonzero
  /-- It is the address of a page after the text. -/
  | page
  /-- It is the address of a page after the text, which the process has. -/
  | own
  /-- It is what `rbx` contains. -/
  | next
  /-- If it is zero, then `rbx` contains the address of a page after the text that the process has. -/
  | verdict
deriving DecidableEq

namespace Fact

/-- The fact holds of the word `x`, for a process with its text at page number `v` that has the
pages `owns`, if `rbx` contains `next`. -/
def Holds (v : Nat) (owns : Nat → Prop) (next x : UInt64) : Fact → Prop
  | any => True
  | word w => x = w
  | nonzero => x ≠ 0
  | page => PageAfter v x
  | own => PageAfter v x ∧ owns (x.toNat / pageSize)
  | .next => x = next
  | verdict => x = 0 → PageAfter v next ∧ owns (next.toNat / pageSize)

/-- What is left of the fact once `rbx` changes. -/
def forget : Fact → Fact
  | .next | verdict => any
  | f => f

/-- The second fact follows from the first. -/
def implies (v : Nat) (f f' : Fact) : Bool :=
  f' = any || f = f' ||
    match f, f' with
    | word w, nonzero => w ≠ 0
    | word w, page => decide (PageAfter v w)
    | own, page => true
    | _, _ => false

/-- Whether two words are the same, if the facts tell. -/
def same? : Fact → Fact → Option Bool
  | word w, word w' => some (w = w')
  | word w, nonzero | nonzero, word w => if w = 0 then some false else none
  | _, _ => none

variable {v : Nat} {owns owns' : Nat → Prop} {next next' x y : UInt64} {f f' : Fact}

theorem Holds.forget (h : f.Holds v owns next x) : f.forget.Holds v owns next' x := by
  cases f with
  | next => trivial
  | verdict => trivial
  | _ => exact h

theorem Holds.mono (h : f.Holds v owns next x) (howns : ∀ q, owns q → owns' q) :
    f.Holds v owns' next x := by
  cases f with
  | own => exact ⟨h.1, howns _ h.2⟩
  | verdict => exact fun hx => ⟨(h hx).1, howns _ (h hx).2⟩
  | _ => exact h

theorem Holds.implies (h : f.Holds v owns next x) (himp : f.implies v f' = true) :
    f'.Holds v owns next x := by
  unfold Fact.implies at himp
  rw [Bool.or_eq_true, Bool.or_eq_true, decide_eq_true_eq, decide_eq_true_eq] at himp
  obtain (rfl | rfl) | himp := himp
  · trivial
  · exact h
  · cases f with
    | word w =>
      obtain rfl : x = w := h
      cases f' with
      | nonzero => exact of_decide_eq_true (p := x ≠ 0) himp
      | page => exact of_decide_eq_true (p := PageAfter v x) himp
      | _ => cases himp
    | own =>
      cases f' with
      | page => exact h.1
      | _ => cases himp
    | _ => cases himp

theorem Holds.same (h : f.Holds v owns next x) (h' : f'.Holds v owns next y) {b : Bool}
    (hb : f.same? f' = some b) : b = true ↔ x = y := by
  unfold same? at hb
  split at hb
  · obtain rfl : x = _ := h
    obtain rfl : y = _ := h'
    obtain rfl := Option.some.inj hb
    exact decide_eq_true_iff
  · obtain rfl : x = _ := h
    split at hb
    · next hzero =>
      cases hb
      exact iff_of_false nofun fun heq => h' (heq ▸ hzero)
    · cases hb
  · obtain rfl : y = _ := h'
    split at hb
    · next hzero =>
      cases hb
      exact iff_of_false nofun fun heq => h (heq ▸ hzero)
    · cases hb
  · cases hb

end Fact

/-- What is known of each register. -/
abbrev Facts := Reg → Fact

namespace Facts

/-- The facts hold of the registers, for a process with its text at page number `v` that has the
pages `owns`. -/
def Hold (F : Facts) (v : Nat) (owns : Nat → Prop) (regs : Registers) : Prop :=
  ∀ r, (F r).Holds v owns regs.rbx (regs.get r)

/-- What is known once register `r` has changed, and `f` holds of it. -/
def set (F : Facts) (r : Reg) (f : Fact) : Facts :=
  if r = .rbx then fun q => (Function.update F r f q).forget else Function.update F r f

/-- What is known if the registers `a` and `b` have the same contents. -/
def agree (F : Facts) (a b : Reg) : Facts :=
  if F a = .verdict ∧ F b = .word 0 then Function.update F .rbx .own else F

variable {F F' : Facts} {v : Nat} {owns owns' : Nat → Prop} {regs : Registers} {r a b : Reg}
  {x : UInt64} {f : Fact}

theorem Hold.mono (h : F.Hold v owns regs) (howns : ∀ q, owns q → owns' q) :
    F.Hold v owns' regs :=
  fun r => (h r).mono howns

theorem Hold.set (h : F.Hold v owns regs) (hf : f.Holds v owns regs.rbx x) :
    (F.set r f).Hold v owns (regs.set r x) := by
  have hupdate : ∀ q, (Function.update F r f q).Holds v owns regs.rbx ((regs.set r x).get q) := by
    intro q
    rw [Registers.get_set]
    by_cases hq : q = r
    · subst hq
      rwa [Function.update_self, if_pos rfl]
    · rw [Function.update_of_ne hq, if_neg hq]
      exact h q
  unfold Facts.set
  split
  · exact fun q => (hupdate q).forget
  · next hne =>
    have hrbx : (regs.set r x).rbx = regs.rbx :=
      (Registers.get_set regs r .rbx x).trans (if_neg fun heq => hne heq.symm)
    intro q
    rw [hrbx]
    exact hupdate q

theorem Hold.agree (h : F.Hold v owns regs) (heq : regs.get a = regs.get b) :
    (F.agree a b).Hold v owns regs := by
  unfold Facts.agree
  split
  · next hab =>
    have ha := h a
    have hb := h b
    rw [hab.1] at ha
    rw [hab.2] at hb
    intro q
    by_cases hq : q = .rbx
    · subst hq
      rw [Function.update_self]
      exact ha (heq.trans hb)
    · rw [Function.update_of_ne hq]
      exact h q
  · exact h

end Facts

/-! ### Stages -/

/-- A program is at instruction number `index` of its text, and `facts` are known of its registers.
If it `lives`, it never ends of its own accord. -/
structure Stage where
  index : Nat
  facts : Facts
  lives : Bool

/-- The number of the instruction that a branch leads to, if it is taken. -/
def target? (index : Nat) (imm : Int32) : Option Nat :=
  let offset := (UInt64.ofNat (instructionSize * (index + 1)) + signExtend imm).toNat
  if offset % instructionSize = 0 then some (offset / instructionSize) else none

namespace Stage

def entry : Stage :=
  ⟨0, fun _ => .any, true⟩

/-- The next instruction comes next, and nothing is known but that. -/
def skip (s : Stage) : Stage :=
  { s with index := s.index + 1 }

/-- The next instruction comes next, and `f` holds of register `r`. -/
def set (s : Stage) (r : Reg) (f : Fact) : Stage :=
  { s.skip with facts := s.facts.set r f }

/-- The stage of a child. It knows that it is one, and may end. -/
def child (s : Stage) : Stage :=
  { s.set .rax (.word 0) with lives := false }

/-- The stages after a branch: `equal` if the registers `a` and `b` have the same contents, and
`differ` if not. -/
def branch (s : Stage) (a b : Reg) (equal differ : Nat) : List Stage :=
  let same := (s.facts a).same? (s.facts b)
  (if same = some false then [] else [{ s with index := equal, facts := s.facts.agree a b }]) ++
    if same = some true then [] else [{ s with index := differ }]

/-- The program may write `size` bytes at register `a` plus `imm`. -/
def mayStore (s : Stage) (a : Reg) (imm : Int32) (size : Nat) : Prop :=
  (s.facts a = .own ∨ s.facts a = .word (UInt64.ofNat consoleAddr)) ∧
    (signExtend imm).toNat + size ≤ pageSize

instance (s : Stage) (a : Reg) (imm : Int32) (size : Nat) : Decidable (s.mayStore a imm size) :=
  inferInstanceAs (Decidable (_ ∧ _))

/-- The stages after a system call has been answered, those of a child included. There are none if
the call ends the process, and it is not known where there are any if it may halt the kernel. -/
def afterCall? (v : Nat) (s : Stage) : Option (List Stage) :=
  if s.facts .rax = .word SystemCall.getpid.number ∨
      s.facts .rax = .word SystemCall.yield.number then
    some [s.set .rax .any]
  else if s.facts .rax = .word (SystemCall.pageAlloc 0).number ∧ s.facts .rdi = .next then
    if (s.facts .rbx).implies v .page then some [s.set .rax .verdict]
    else if s.facts .rbx = .word (UInt64.ofNat consoleAddr) then some [s.set .rax .any]
    else none
  else if s.facts .rax = .word SystemCall.fork.number then
    some [s.set .rax .nonzero, s.child]
  else if s.facts .rax = .word SystemCall.exit.number ∧ s.lives = false then some []
  else none

/-- The stages after the instruction `i`. It is not known where there are any if it may fault. -/
def after? (v : Nat) (s : Stage) (i : Instruction) : Option (List Stage) :=
  match i.op with
  | .movi => some [s.set i.a (.word (signExtend i.imm))]
  | .mov => some [s.set i.a (if i.b = .rbx then .next else s.facts i.b)]
  | .addi => some [s.set i.a .any]
  | .add => some [s.set i.a
      (if s.facts i.a = .own ∧ s.facts i.b = .word (UInt64.ofNat pageSize) then .page else .any)]
  | .store => if s.mayStore i.a i.imm 8 then some [s.skip] else none
  | .jmp => (target? s.index i.imm).map fun t => [{ s with index := t }]
  | .jeq => (target? s.index i.imm).map fun t => s.branch i.a i.b t (s.index + 1)
  | .jne => (target? s.index i.imm).map fun t => s.branch i.a i.b (s.index + 1) t
  | .syscall => s.afterCall? v
  | _ => none

/-- The stages after the next instruction of `text`. -/
def next? (v : Nat) (text : List Instruction) (s : Stage) : Option (List Stage) :=
  text[s.index]?.bind (s.after? v)

/-- The second stage is the first, if less is known. -/
def implies (v : Nat) (s s' : Stage) : Bool :=
  s.index = s'.index && s.lives = s'.lives &&
    Reg.all.all fun r => (s.facts r).implies v (s'.facts r)

theorem implies_iff {v : Nat} {s s' : Stage} : s.implies v s' = true ↔
    s.index = s'.index ∧ s.lives = s'.lives ∧ ∀ r, (s.facts r).implies v (s'.facts r) = true := by
  have hall : ∀ r, r ∈ Reg.all := fun r => by cases r <;> decide
  unfold implies
  rw [Bool.and_eq_true, Bool.and_eq_true, decide_eq_true_eq, decide_eq_true_eq, List.all_eq_true,
    and_assoc]
  exact and_congr_right fun _ => and_congr_right fun _ =>
    ⟨fun h r => h r (hall r), fun h r _ => h r⟩

/-- The stage is one of `stages`, if less is known. -/
def Covered (s : Stage) (v : Nat) (stages : List Stage) : Prop :=
  ∃ s' ∈ stages, s.implies v s' = true

/-- What the call is that a program makes at the stage `s`, and what comes after it. -/
inductive AfterCall (v : Nat) (s : Stage) : List Stage → Prop
  | plain : s.facts .rax = .word SystemCall.getpid.number ∨
      s.facts .rax = .word SystemCall.yield.number → AfterCall v s [s.set .rax .any]
  | page : s.facts .rax = .word (SystemCall.pageAlloc 0).number → s.facts .rdi = .next →
      (s.facts .rbx).implies v .page = true → AfterCall v s [s.set .rax .verdict]
  | console : s.facts .rax = .word (SystemCall.pageAlloc 0).number → s.facts .rdi = .next →
      s.facts .rbx = .word (UInt64.ofNat consoleAddr) → AfterCall v s [s.set .rax .any]
  | fork : s.facts .rax = .word SystemCall.fork.number →
      AfterCall v s [s.set .rax .nonzero, s.child]
  | exit : s.facts .rax = .word SystemCall.exit.number → s.lives = false → AfterCall v s []

theorem afterCall_of_some {v : Nat} {s : Stage} {l : List Stage} (h : s.afterCall? v = some l) :
    AfterCall v s l := by
  unfold afterCall? at h
  split at h
  · next hrax =>
    cases h
    exact .plain hrax
  split at h
  · next hcall =>
    split at h
    · next hpage =>
      cases h
      exact .page hcall.1 hcall.2 hpage
    · split at h
      · next hconsole =>
        cases h
        exact .console hcall.1 hcall.2 hconsole
      · cases h
  split at h
  · next hrax =>
    cases h
    exact .fork hrax
  split at h
  · next hexit =>
    cases h
    exact .exit hexit.1 hexit.2
  · cases h

theorem mem_branch {s : Stage} (a b : Reg) (equal differ : Nat) {v : Nat} {owns : Nat → Prop}
    {regs : Registers} (h : s.facts.Hold v owns regs) : ∃ s' ∈ s.branch a b equal differ,
      s'.lives = s.lives ∧ s'.facts.Hold v owns regs ∧
      s'.index = if regs.get a = regs.get b then equal else differ := by
  have hsame : ∀ {t}, (s.facts a).same? (s.facts b) = some t →
      (t = true ↔ regs.get a = regs.get b) := (h a).same (h b)
  unfold branch
  dsimp only
  by_cases heq : regs.get a = regs.get b
  · rw [if_neg (c := _ = some false) fun hfalse => nomatch (hsame hfalse).mpr heq]
    exact ⟨_, List.mem_append_left _ (List.mem_singleton_self _), rfl, h.agree heq,
      (if_pos heq).symm⟩
  · rw [if_neg (c := _ = some true) fun htrue => heq ((hsame htrue).mp rfl)]
    exact ⟨_, List.mem_append_right _ (List.mem_singleton_self _), rfl, h, (if_neg heq).symm⟩

end Stage

/-! ### Outlines -/

/-- The stages that a program comes by, if its text is page number `page`. After each of them comes
another. -/
structure Outline where
  page : Nat
  text : List Instruction
  stages : List Stage
  first_le : userFirst ≤ page
  lt_stack : page < stackPage / pageSize
  closed : ∀ s ∈ stages, ∃ l, s.next? page text = some l ∧
    ∀ s' ∈ l, s'.Covered page stages

/-- The program is `text`, which is to be page number `v`. -/
structure Program.IsPage (program : Program) (v : Nat) (text : List Instruction) : Prop where
  entry : program.entry = UInt64.ofNat (v * pageSize)
  segments : program.segments =
    [⟨UInt64.ofNat (v * pageSize), UInt64.ofNat pageSize, text.flatMap Instruction.encode, false⟩]
  first_le : userFirst ≤ v
  lt_stack : v < stackPage / pageSize
  length_le : instructionSize * text.length ≤ pageSize

deriving instance DecidableEq for Segment

instance (program : Program) (v : Nat) (text : List Instruction) :
    Decidable (program.IsPage v text) :=
  decidable_of_iff (program.entry = UInt64.ofNat (v * pageSize) ∧
      program.segments = [⟨UInt64.ofNat (v * pageSize), UInt64.ofNat pageSize,
        text.flatMap Instruction.encode, false⟩] ∧
      userFirst ≤ v ∧ v < stackPage / pageSize ∧ instructionSize * text.length ≤ pageSize)
    ⟨fun ⟨h1, h2, h3, h4, h5⟩ => ⟨h1, h2, h3, h4, h5⟩, fun ⟨h1, h2, h3, h4, h5⟩ =>
      ⟨h1, h2, h3, h4, h5⟩⟩

/-- The program is what the outline is about, and begins with one of its stages. -/
structure Program.Follows (program : Program) (o : Outline) : Prop
    extends program.IsPage o.page o.text where
  entered : Stage.entry.Covered o.page o.stages

/-! ### Looking for an outline -/

/-- The stages in `found`, and those that the ones in `rest` lead to. At most `fuel` stages are
looked at, and none that follows from one in `found`. -/
def explore (v : Nat) (text : List Instruction) : Nat → List Stage → List Stage → List Stage
  | 0, _, found => found
  | _, [], found => found
  | fuel + 1, s :: rest, found =>
    if found.any (s.implies v) then explore v text fuel rest found
    else explore v text fuel ((s.next? v text).getD [] ++ rest) (s :: found)

/-- The instructions that the bytes stand for. -/
def disassemble : List UInt8 → List Instruction
  | op :: a :: b :: zero :: b0 :: b1 :: b2 :: b3 :: rest =>
    (Instruction.decode [op, a, b, zero, b0, b1, b2, b3]).toList ++ disassemble rest
  | _ => []

/-- An outline of the program has been found. -/
def Program.vetted (program : Program) : Bool :=
  let v := program.entry.toNat / pageSize
  let text := program.segments.flatMap fun seg => disassemble seg.data
  let stages := explore v text 300 [.entry] []
  decide (program.IsPage v text) && stages.any (Stage.entry.implies v) && stages.all fun s =>
    match s.next? v text with
    | none => false
    | some l => l.all fun s' => stages.any (s'.implies v)

/-- **A program that is vetted** has an outline. -/
theorem Program.exists_follows {program : Program} (h : program.vetted = true) :
    ∃ o, program.Follows o := by
  unfold vetted at h
  dsimp only at h
  generalize explore _ _ _ _ _ = stages at h
  rw [Bool.and_eq_true, Bool.and_eq_true, decide_eq_true_eq, List.any_eq_true, List.all_eq_true]
    at h
  obtain ⟨⟨hpage, hentered⟩, hclosed⟩ := h
  refine ⟨⟨_, _, stages, hpage.first_le, hpage.lt_stack, fun s hs => ?_⟩, hpage, hentered⟩
  have hs := hclosed s hs
  split at hs
  · cases hs
  · next l hl =>
    rw [List.all_eq_true] at hs
    exact ⟨l, hl, fun s' hs' => List.any_eq_true.mp (hs s' hs')⟩

end PagedKernel
