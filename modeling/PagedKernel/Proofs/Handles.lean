import PagedKernel.Proofs.Frames

/-!
# Handles and counts

Whoever takes pages from the frames gets a handle for every reference. A handle can be given up for
the address of its page, which stands for the reference until it is taken up as a handle again. A
`Holder` is the frames together with all handles and addresses that are out, and a `HandleCall` is
one thing to do with them. Each handle is used up at most once: a call takes one that is there, and
it is not there any more.

The count of a page is the number of handles and addresses that are out for it, whatever has been
done since the memory was fresh. So no call halts, the free pages are those that nobody has a handle
to, and every one of them is found.

Key definitions: `Holder`, `HandleCall`, `HandleCall.Permitted`, `Holder.Reached`, `Holder.Exact`.
Key theorems: `HandleCall.perform_ends`, `Holder.Reached.exact`, `Holder.Reached.counts_handles`.
-/

namespace PagedKernel

variable {n : Nat}

/-- The frames, and what refers to their pages. -/
structure Holder (n : Nat) where
  frames : Frames n
  /-- The handles that are out. -/
  handles : List FrameRef
  /-- The addresses that handles were given up for. -/
  addrs : List PhysAddr

namespace Holder

def fresh (n : Nat) : Holder n :=
  ⟨Frames.fresh n, [], []⟩

/-- The handles and addresses that are out for page number `q`. -/
def refs (s : Holder n) (q : Nat) : Nat :=
  s.handles.countP (·.number = q) + s.addrs.countP (·.pageNumber = q)

def onFrames {α : Type} (x : FramesM n α) : HaltM (Holder n) α := fun s =>
  match x s.frames with
  | .ok a frames => .ok a { s with frames }
  | .error e frames => .error e { s with frames }

/-- Keep the handle, if there is one. -/
def keep (got : Option FrameRef) : HaltM (Holder n) (Option FrameRef) := do
  modify fun s => { s with handles := got.toList ++ s.handles }
  return got

end Holder

/-- One thing to do with frames and handles. -/
inductive HandleCall
  /-- A page for so many bytes. -/
  | alloc (size : Nat)
  /-- A page of zeros. -/
  | allocZeros
  /-- One more handle to the page that holds an address. -/
  | share (pa : PhysAddr)
  /-- The first handle to a page that is not handed out. -/
  | claim (pa : PhysAddr)
  | release (ref : FrameRef)
  /-- A handle is given up for the address of its page. -/
  | giveUp (ref : FrameRef)
  /-- An address is taken up as a handle. -/
  | takeUp (pa : PhysAddr)

namespace HandleCall

/-- Do it. The result is the handle that is new, if there is one. -/
def perform : HandleCall → HaltM (Holder n) (Option FrameRef)
  | alloc size => do Holder.keep (← Holder.onFrames (Frames.alloc size))
  | allocZeros => do Holder.keep (← Holder.onFrames Frames.allocZeros)
  | share pa => do Holder.keep (some (← Holder.onFrames (Frames.share pa)))
  | claim pa => do Holder.keep (some (← Holder.onFrames (Frames.claim pa)))
  | release ref => do
    Holder.onFrames (Frames.release ref)
    modify fun s => { s with handles := s.handles.erase ref }
    return none
  | giveUp ref => do
    modify fun s => { s with handles := s.handles.erase ref, addrs := ref.pa :: s.addrs }
    return none
  | takeUp pa => do
    let ref ← FrameRef.ofAligned pa
    modify fun s => { s with addrs := s.addrs.erase pa }
    Holder.keep (some ref)

/-- What may be done: pages in use are shared as long as their handles are fewer than `2 ^ 32`,
pages that are not handed out are claimed if nobody has, and what is used up is there. -/
def Permitted (s : Holder n) : HandleCall → Prop
  | alloc _ => True
  | allocZeros => True
  | share pa => s.frames.count pa.pageNumber ≠ 0 ∧ s.refs pa.pageNumber + 1 < 2 ^ 32
  | claim pa =>
    pa.toNat < allocatableStart ∧ pa.pageNumber < n ∧ s.frames.count pa.pageNumber = 0
  | release ref => ref ∈ s.handles
  | giveUp ref => ref ∈ s.handles
  | takeUp pa => pa ∈ s.addrs

/-- The call asks for a page that nobody has. -/
def Allocates : HandleCall → Prop
  | alloc _ => True
  | allocZeros => True
  | _ => False

def Fits : HandleCall → Prop
  | alloc size => size ≤ pageSize
  | _ => True

end HandleCall

/-- What calls lead to from a fresh memory. -/
inductive Holder.Reached : Holder n → Prop
  | fresh : Reached (.fresh n)
  | call {s s' : Holder n} {call : HandleCall} {got : Option FrameRef} : Reached s →
    call.Permitted s → call.perform s = .ok got s' → Reached s'

namespace Holder

variable {s : Holder n} {E : Halt → Prop}

/-! ### What is out -/

/-- The count of a page is the number of handles and addresses that are out for it, and each address
is that of a page. -/
structure Exact (s : Holder n) : Prop where
  count : ∀ q, s.frames.count q = s.refs q
  aligned : ∀ pa ∈ s.addrs, pa.toNat % pageSize = 0

/-- One more element counts for its key. -/
theorem countP_cons_key {α : Type} (key : α → Nat) (a : α) (l : List α) (q : Nat) :
    (a :: l).countP (key · = q) = l.countP (key · = q) + if q = key a then 1 else 0 := by
  simp only [List.countP_cons, decide_eq_true_eq, eq_comm (a := q) (b := key a)]

theorem countP_erase_key {α : Type} [DecidableEq α] (key : α → Nat) {a : α} {l : List α}
    (h : a ∈ l) (q : Nat) :
    (l.erase a).countP (key · = q) + (if q = key a then 1 else 0) = l.countP (key · = q) := by
  rw [← countP_cons_key]
  exact ((List.perm_cons_erase h).countP_eq _).symm

theorem refs_handle (s : Holder n) (ref : FrameRef) (q : Nat) :
    refs { s with handles := ref :: s.handles } q = s.refs q + if q = ref.number then 1 else 0 := by
  have hkey := countP_cons_key FrameRef.number ref s.handles q
  simp only [refs, hkey]
  omega

theorem refs_addr (s : Holder n) (pa : PhysAddr) (q : Nat) :
    refs { s with addrs := pa :: s.addrs } q = s.refs q + if q = pa.pageNumber then 1 else 0 := by
  have hkey := countP_cons_key PhysAddr.pageNumber pa s.addrs q
  simp only [refs, hkey, Nat.add_assoc]

theorem refs_erase_handle {ref : FrameRef} (h : ref ∈ s.handles) (q : Nat) :
    refs { s with handles := s.handles.erase ref } q + (if q = ref.number then 1 else 0) =
      s.refs q := by
  have hkey := countP_erase_key FrameRef.number h q
  simp only [refs, ← hkey]
  omega

theorem refs_erase_addr {pa : PhysAddr} (h : pa ∈ s.addrs) (q : Nat) :
    refs { s with addrs := s.addrs.erase pa } q + (if q = pa.pageNumber then 1 else 0) =
      s.refs q := by
  have hkey := countP_erase_key PhysAddr.pageNumber h q
  simp only [refs, ← hkey, Nat.add_assoc]

theorem refs_pos {ref : FrameRef} (h : ref ∈ s.handles) : 0 < s.refs ref.number := by
  have herase := refs_erase_handle h ref.number
  rw [if_pos rfl] at herase
  omega

/-- Whatever is out is out for a page that there is. -/
theorem Exact.lt (h : s.Exact) {q : Nat} (hq : 0 < s.refs q) : q < n := by
  by_contra hge
  have hcount := h.count q
  rw [s.frames.count_of_ge (Nat.not_lt.mp hge)] at hcount
  omega

theorem Exact.fresh : (fresh n).Exact where
  count q := Frames.count_fresh n q
  aligned _ h := absurd h List.not_mem_nil

/-! ### What the calls do to it -/

/-- A handle that is kept accounts for one more in the count of its page. -/
theorem Exact.take (h : s.Exact) {ref : FrameRef} {f : Frames n}
    (hcount : ∀ q, f.count q =
      if q = ref.number then s.frames.count ref.number + 1 else s.frames.count q) :
    Exact { s with frames := f, handles := ref :: s.handles } where
  count q := by
    refine Eq.trans ?_ (refs_handle s ref q).symm
    rw [hcount]
    by_cases hq : q = ref.number
    · rw [if_pos hq, if_pos hq, hq, h.count]
    · rw [if_neg hq, if_neg hq, h.count, Nat.add_zero]
  aligned := h.aligned

theorem Exact.drop (h : s.Exact) {ref : FrameRef} (href : ref ∈ s.handles) (hlt : ref.number < n) :
    Exact { s with
      frames := s.frames.setCount ref.number (s.frames.count ref.number - 1) hlt
      handles := s.handles.erase ref } where
  count q := by
    have hout := refs_erase_handle href q
    have hcount := h.count q
    rw [Frames.count_setCount]
    show _ = refs { s with handles := s.handles.erase ref } q
    by_cases hq : q = ref.number
    · subst hq
      rw [if_pos rfl] at hout ⊢
      omega
    · rw [if_neg hq] at hout ⊢
      omega
  aligned := h.aligned

theorem Exact.giveUp (h : s.Exact) {ref : FrameRef} (href : ref ∈ s.handles)
    (hlt : ref.number < 2 ^ 52) :
    Exact { s with handles := s.handles.erase ref, addrs := ref.pa :: s.addrs } where
  count q := by
    have hout := refs_erase_handle href q
    have hin := refs_addr { s with handles := s.handles.erase ref } ref.pa q
    have hpage : ref.pa.pageNumber = ref.number := pageAt_pageNumber hlt
    rw [hpage] at hin
    exact (h.count q).trans (hout.symm.trans hin.symm)
  aligned pa hpa := by
    rcases List.mem_cons.mp hpa with rfl | hpa
    · rw [FrameRef.pa_eq_pageAt, pageAt_toNat hlt]
      exact Nat.mul_mod_left _ _
    · exact h.aligned pa hpa

theorem Exact.takeUp (h : s.Exact) {pa : PhysAddr} (hpa : pa ∈ s.addrs) :
    Exact { s with handles := .ofAddr pa :: s.handles, addrs := s.addrs.erase pa } where
  count q := by
    have hout := refs_erase_addr hpa q
    have hin := refs_handle { s with addrs := s.addrs.erase pa } (.ofAddr pa) q
    exact (h.count q).trans (hout.symm.trans hin.symm)
  aligned a ha := h.aligned a (List.mem_of_mem_erase ha)

theorem onFrames_ok {α : Type} {x : FramesM n α} {a : α} {f : Frames n}
    (h : x s.frames = .ok a f) : onFrames x s = .ok a { s with frames := f } := by
  unfold onFrames
  rw [h]

theorem onFrames_error {α : Type} {x : FramesM n α} {e : Halt} {f : Frames n}
    (h : x s.frames = .error e f) : onFrames x s = .error e { s with frames := f } := by
  unfold onFrames
  rw [h]

theorem onFrames_ends {α : Type} {x : FramesM n α} {Q : α → Frames n → Prop}
    (h : Ends x s.frames Q E) :
    Ends (onFrames x) s (fun a s' => ∃ f, s' = { s with frames := f } ∧ Q a f) E := by
  rcases h.ok_or_halt with ⟨a, f, hx, hQ⟩ | ⟨e, f, hx, he⟩
  · exact .of_ok (onFrames_ok hx) ⟨f, rfl, hQ⟩
  · exact .of_error (onFrames_error hx) he

theorem keep_ends {got : Option FrameRef} {Q : Option FrameRef → Holder n → Prop}
    (h : Q got { s with handles := got.toList ++ s.handles }) : Ends (keep got) s Q E :=
  .update_bind (.pure h)

end Holder

namespace HandleCall

variable {s : Holder n} {E : Halt → Prop}

/-- What a call that asks for a page may answer: one that was free, or, if the call asks for no more
than a page, that none was free. -/
def Answers (call : HandleCall) (s : Holder n) : Option FrameRef → Prop
  | none => call.Fits → s.frames.freePages = 0
  | some ref => s.frames.isFree ref.number = true

/-- A page that nobody has is handed out with its first handle, if there is one. -/
theorem allocFilled_ends (h : s.Exact) (call : HandleCall) (v : UInt8) :
    Ends (do Holder.keep (← Holder.onFrames (Frames.allocFilled v))) s
      (fun got s' => s'.Exact ∧ call.Answers s got) E := by
  apply (Holder.onFrames_ends Ends.allocFilled).bind
  rintro got _ ⟨f, rfl, hgot⟩
  apply Holder.keep_ends
  cases got with
  | none =>
    obtain ⟨rfl, hfree⟩ := hgot
    exact ⟨h, fun _ => hfree⟩
  | some ref =>
    refine ⟨h.take fun q => ?_, hgot.free⟩
    rw [hgot.count, hgot.count_zero]

/-- **No call halts, and the counts stay exact.** -/
theorem perform_ends (hn : n ≤ 2 ^ 52) (h : s.Exact) {call : HandleCall}
    (hcall : call.Permitted s) :
    Ends call.perform s
      (fun got s' => s'.Exact ∧ (call.Allocates → call.Answers s got)) E := by
  cases call with
  | alloc size =>
    show Ends (do Holder.keep (← Holder.onFrames (Frames.alloc size))) s _ E
    by_cases hsize : pageSize < size
    · have halloc : Frames.alloc size s.frames = .ok none s.frames := by
        unfold Frames.alloc
        rw [if_pos hsize]
        rfl
      apply Ends.step (Holder.onFrames_ok halloc)
      exact Holder.keep_ends ⟨h, fun _ hfits => absurd hsize (Nat.not_lt.mpr hfits)⟩
    · have halloc : Frames.alloc (n := n) size = Frames.allocFilled allocFill := if_neg hsize
      rw [halloc]
      exact (allocFilled_ends h _ _).imp fun _ _ hdone => ⟨hdone.1, fun _ => hdone.2⟩
  | allocZeros => exact (allocFilled_ends h _ _).imp fun _ _ hdone => ⟨hdone.1, fun _ => hdone.2⟩
  | share pa =>
    obtain ⟨hused, hmax⟩ := hcall
    have hlt : pa.pageNumber < n := h.lt (by rw [← h.count]; omega)
    have hcount : s.frames.count pa.pageNumber ≠ maxCount := by
      rw [h.count]
      show _ ≠ 2 ^ 32 - 1
      omega
    have hshare := s.frames.share_eq hlt
    rw [if_neg hused, if_neg hcount] at hshare
    apply Ends.step (Holder.onFrames_ok hshare)
    exact Holder.keep_ends ⟨h.take fun q => s.frames.count_setCount hlt q, nofun⟩
  | claim pa =>
    obtain ⟨hlow, hlt, hzero⟩ := hcall
    have hclaim := s.frames.claim_eq hlow hlt
    rw [if_pos hzero] at hclaim
    apply Ends.step (Holder.onFrames_ok hclaim)
    refine Holder.keep_ends ⟨h.take fun q => ?_, nofun⟩
    rw [Frames.count_setCount]
    show _ = if q = pa.pageNumber then s.frames.count pa.pageNumber + 1 else _
    rw [hzero]
  | release ref =>
    have hlt := h.lt (Holder.refs_pos hcall)
    have hrelease := s.frames.release_eq hlt
    rw [if_neg (by rw [h.count]; exact (Holder.refs_pos hcall).ne')] at hrelease
    apply Ends.step (Holder.onFrames_ok hrelease)
    apply Ends.update_bind
    exact .pure ⟨h.drop hcall hlt, nofun⟩
  | giveUp ref =>
    have hlt := h.lt (Holder.refs_pos hcall)
    apply Ends.update_bind
    exact .pure ⟨h.giveUp hcall (Nat.lt_of_lt_of_le hlt hn), nofun⟩
  | takeUp pa =>
    have hwhole : FrameRef.ofAligned pa = .ok (.ofAddr pa) :=
      if_pos (beq_iff_eq.mpr (h.aligned pa hcall))
    apply Ends.lift hwhole
    apply Ends.update_bind
    exact Holder.keep_ends ⟨h.takeUp hcall, nofun⟩

end HandleCall

/-- **After any history, the count of each page is what is out for it.** -/
theorem Holder.Reached.exact {s : Holder n} (h : s.Reached) (hn : n ≤ 2 ^ 52) : s.Exact := by
  induction h with
  | fresh => exact .fresh
  | call _ hcall hdone ih =>
    exact ((HandleCall.perform_ends (E := fun _ => True) hn ih hcall).eq_ok hdone).1

/-- **The count of a page is what is out for it, over any history.** Whatever has been done with a
memory of any size since it was fresh, a call that is permitted does not halt, the free pages are
those that may be handed out and that nothing is out for, a call that asks for a page gets one of
them, and it gets none only when there is none, or when it asks for more than a page. -/
theorem Holder.Reached.counts_handles {size : UInt64} {s : Holder (size.toNat / pageSize)}
    (h : s.Reached) :
    (∀ q, s.frames.count q = s.refs q) ∧
      s.frames.freePages = (List.range (size.toNat / pageSize)).countP
        (fun q => allocatableStart ≤ q * pageSize ∧ s.refs q = 0) ∧
      ∀ call : HandleCall, call.Permitted s → ∃ got s', call.perform s = .ok got s' ∧
        (call.Allocates →
          (∀ ref, got = some ref → s.refs ref.number = 0 ∧ allocatableStart ≤ ref.pa.toNat) ∧
          (call.Fits → (got = none ↔ s.frames.freePages = 0))) := by
  have hn : size.toNat / pageSize ≤ 2 ^ 52 := by
    have hsize := size.toNat_lt
    show size.toNat / 4096 ≤ 2 ^ 52
    omega
  have hexact := h.exact hn
  refine ⟨hexact.count, List.countP_congr fun q hq => ?_, fun call hcall => ?_⟩
  · rw [Frames.isFree_iff, hexact.count, decide_eq_true_eq]
    exact and_congr_right fun _ => and_iff_right (List.mem_range.mp hq)
  · obtain ⟨got, s', hdone, -, hanswer⟩ := (call.perform_ends hn hexact hcall).ok
    refine ⟨got, s', hdone, fun hasks => ?_⟩
    have hanswer := hanswer hasks
    cases got with
    | none => exact ⟨nofun, fun hfits => iff_of_true rfl (hanswer hfits)⟩
    | some ref =>
      obtain ⟨hstart, hlt, hzero⟩ := (s.frames.isFree_iff ref.number).mp hanswer
      refine ⟨fun _ hsome => ?_, fun _ => iff_of_false nofun (s.frames.freePages_ne_zero hanswer)⟩
      cases hsome
      rw [← hexact.count, FrameRef.pa_eq_pageAt, pageAt_toNat (Nat.lt_of_lt_of_le hlt hn)]
      exact ⟨hzero, hstart⟩

/-- Where one page may be handed out, it is, then nothing is left, and its handle can be released.
-/
theorem Holder.counts_handles_one_page :
    ∃ s : Holder ((0x101000 : UInt64).toNat / pageSize), s.Reached ∧ s.handles = [⟨256⟩] ∧
      s.frames.count 256 = 1 ∧ s.frames.freePages = 0 ∧
      (∃ s', (HandleCall.alloc 8).perform s = .ok none s') ∧
      ∃ got s', (HandleCall.release ⟨256⟩).perform s = .ok got s' := by
  obtain ⟨s, hdone, hhandles, haddrs⟩ :
      ∃ s : Holder ((0x101000 : UInt64).toNat / pageSize),
        (HandleCall.alloc 8).perform (.fresh _) = .ok (some ⟨256⟩) s ∧
          s.handles = [⟨256⟩] ∧ s.addrs = [] := ⟨_, rfl, rfl, rfl⟩
  have hcall : (HandleCall.alloc 8).Permitted (.fresh ((0x101000 : UInt64).toNat / pageSize)) :=
    trivial
  have hreached : s.Reached := .call .fresh hcall hdone
  have hone : ∀ q, s.refs q = if 256 = q then 1 else 0 := fun q => by
    simp [refs, hhandles, haddrs, List.countP_cons]
  obtain ⟨hcount, hfree, hcalls⟩ := hreached.counts_handles
  have hnone : s.frames.freePages = 0 := by
    rw [hfree, List.countP_eq_zero]
    intro q hq hboth
    obtain ⟨hstart, hzero⟩ := of_decide_eq_true hboth
    have hlt : q < 257 := List.mem_range.mp hq
    have hge : 0x100000 ≤ q * 4096 := hstart
    rw [hone, if_pos (by omega)] at hzero
    cases hzero
  have hrelease : (HandleCall.release ⟨256⟩).Permitted s := by
    rw [HandleCall.Permitted, hhandles]
    exact List.mem_singleton_self _
  obtain ⟨got, s', halloc, hanswer⟩ := hcalls (.alloc 8) trivial
  have hgot : got = none := ((hanswer trivial).2 (show 8 ≤ 4096 by decide)).mpr hnone
  obtain ⟨_, s'', hdone', -⟩ := hcalls (.release ⟨256⟩) hrelease
  exact ⟨s, hreached, hhandles, (hcount 256).trans (hone 256), hnone, ⟨s', hgot ▸ halloc⟩,
    _, s'', hdone'⟩

end PagedKernel
