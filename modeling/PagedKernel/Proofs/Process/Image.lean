import PagedKernel.Proofs.Process.SharedSpace
import PagedKernel.Proofs.Process.Userland

/-!
# The image of a program

The space that is made for a program in consistent frames is in the user region what the program
says and nothing else, whatever the segments are; below it shares what the kernel maps. This takes
nothing of the other spaces but that they are consistent: neither that the kernel is mapped in any
order, nor that there is memory enough.

Key definitions: `Program.permissionAt`, `ImagePage`, `Image`.
Key theorems: `Making.image`, `Frames.Consistent.buildSpace_ends`.
-/

namespace PagedKernel

variable {n : Nat} {g : Shape} {f f' : Frames n} {ts : List PageTable} {handles : List FrameRef}
  {kernel t : PageTable} {program : Program}

/-! ### The image -/

/-- What the user may do in the page at address `a`: what the segments ask for, and with the stack
as with data. -/
def Program.permissionAt (program : Program) (a : Nat) : Option Permission :=
  if a = stackPage then some .userData else Segment.unionOf program.segments a

/-- Page number `c` is the page of the program at address `a`. The space of `t` maps it there, with
permission `perm`, and nowhere else. It has one reference, none of those in `held`, and its bytes
are those that the segments say. -/
structure ImagePage (t : PageTable) (program : Program) (held : List Nat) (f : Frames n) (a : Nat)
    (perm : Permission) (c : Nat) : Prop where
  walk : t.walk f.memory ⟨UInt64.ofNat a⟩ = .ok (some (.link (pageAt c) perm.toFlags))
  once : ∀ va e, t.walk f.memory va = .ok (some e) → e.addr.pageNumber = c → va.page = a / pageSize
  count : f.count c = 1
  fresh : c ∉ held
  byte : ∀ i < pageSize,
    f.memory.byte (c * pageSize + i) = Segment.lastOf program.segments (a + i)

/-- The space of `t` is in the user region what the program says, page by page. -/
def Image (t : PageTable) (program : Program) (held : List Nat) (f : Frames n) : Prop :=
  ∀ a, procStart ≤ a → a < virtualSize → a % pageSize = 0 →
    match program.permissionAt a with
    | none => t.walk f.memory ⟨UInt64.ofNat a⟩ = .ok none
    | some perm => ∃ c, ImagePage t program held f a perm c

section
variable [Addressable n] {u : Surroundings n} {L : Nat → Option Entry}
  {P : Nat → Option Permission} {B : Nat → UInt8}

namespace Making

theorem walk_low (h : Making u t.root.number L P B g f) {va : VirtAddr}
    (hva : va.page < userFirst) : t.walk f.memory va = .ok (L va.page) := by
  rw [h.accounted.fits.walk_eq t va h.isRoot, h.low hva]

theorem image (h : Making u t.root.number L (fun v => program.permissionAt (v * pageSize))
    (Segment.lastOf program.segments) g f) : Image t program u.held f := by
  intro a hlow hhigh haligned
  have hwalk := fun va => h.accounted.fits.walk_eq t va h.isRoot
  obtain ⟨v, rfl⟩ : ∃ v, v * pageSize = a :=
    ⟨_, Nat.div_mul_cancel (Nat.dvd_of_mod_eq_zero haligned)⟩
  have hfirst : userFirst * pageSize ≤ v * pageSize := hlow
  have hv1 : userFirst ≤ v := Nat.le_of_mul_le_mul_right hfirst (by decide)
  have hv2 : v < 2 ^ 36 := by
    unfold virtualSize pageSize at hhigh
    omega
  have hpage : (⟨UInt64.ofNat (v * pageSize)⟩ : VirtAddr).page = v := VirtAddr.page_ofPage hv2
  split
  · next hnone => rw [hwalk, hpage, (h.absent hv1 hnone).1]
  · next perm hsome =>
    obtain ⟨-, c, hown⟩ := h.page hv1 hsome
    obtain ⟨-, hheld, hsole⟩ := hown.sole h.accounted h.isRoot
    refine ⟨c, ?_, fun va e he hec => ?_, hown.count, hheld, hown.byte⟩
    · rw [hwalk, hpage, hown.mapped]
    · rw [hwalk, Except.ok.injEq] at he
      rw [hsole he hec, Nat.mul_div_cancel _ (by decide)]

end Making

namespace Frames.Consistent

/-- **The space of a new process** is made from the program. -/
theorem buildSpace_ends (h : f.Consistent ts handles) (hk : kernel ∈ ts) (program : Program) :
    Ends (buildSpace kernel program) f (fun t f' => ∃ g', Making h.surroundings t.root.number
      (kernel.sharedIn f.memory) (fun v => program.permissionAt (v * pageSize))
      (Segment.lastOf program.segments) g' f') fun _ => True := by
  unfold buildSpace
  refine .bind (h.sharingKernel_ends hk fun _ _ => trivial) ?_
  rintro (cause | t) f1 h1
  · exact .throw trivial
  obtain ⟨⟨g1, h1, -⟩, -⟩ := h1
  refine .bind (Making.mapSegments_ends program.name program.segments [] h1) ?_
  rintro _ f2 ⟨g2, h2⟩
  rw [List.nil_append] at h2
  refine .bind .allocFilled ?_
  rintro (_ | stack) f3 h3
  · exact .throw trivial
  have h3 : Frames.HandedOutFull 0 f2 stack.number f3 := h3
  rw [show (⟨UInt64.ofNat stackPage⟩ : VirtAddr) = .ofPage 0x2ff from rfl]
  refine .bind (h2.mapFresh_ends h3 (by decide) (by decide) rfl) ?_
  rintro (cause | _) f4 h4
  · exact .throw trivial
  obtain ⟨-, g4, h4⟩ := h4 rfl
  refine .pure ⟨g4, ?_⟩
  convert h4 using 2 with v
  unfold Program.permissionAt
  rw [show stackPage = 0x2ff * pageSize from rfl]
  by_cases hv : v = 0x2ff
  · rw [hv, Function.update_self, if_pos rfl]
  · rw [Function.update_of_ne hv, if_neg]
    exact fun heq => hv (Nat.eq_of_mul_eq_mul_right (by decide) heq)

end Frames.Consistent

end

end PagedKernel
