import PagedKernel.Frames
import PagedKernel.Process.Basic

/-!
# How computations end

`Ends x s Q E` says how the computation `x` ends on the state `s`: with a result and a state that
`Q` holds of, or in a halt whose cause `E` allows. With `E` always false it says that `x` does not
halt; with `E` always true it says what holds if `x` does not. An operation that never halts is
stated for every `E`, so that it serves both.

Key definition: `Ends`.
Key theorems: `Ends.bind`, `Ends.step`, `Ends.imp`, `Ends.forM_range`, `Ends.forM`.
-/

namespace PagedKernel

variable {σ α β : Type} {s : σ} {E : Halt → Prop}

/-- On `s`, `x` ends with a result and a state that `Q` holds of, or in a halt that `E` allows. -/
def Ends (x : HaltM σ α) (s : σ) (Q : α → σ → Prop) (E : Halt → Prop) : Prop :=
  match x s with
  | .ok a s' => Q a s'
  | .error e _ => E e

namespace Ends

/-! ### What a computation that ends has done -/

theorem of_ok {x : HaltM σ α} {Q : α → σ → Prop} {a : α} {s' : σ} (h : x s = .ok a s')
    (hQ : Q a s') : Ends x s Q E := by
  unfold Ends
  rw [h]
  exact hQ

theorem of_error {x : HaltM σ α} {Q : α → σ → Prop} {e : Halt} {s' : σ} (h : x s = .error e s')
    (hE : E e) : Ends x s Q E := by
  unfold Ends
  rw [h]
  exact hE

theorem eq_ok {x : HaltM σ α} {Q : α → σ → Prop} {a : α} {s' : σ} (hx : Ends x s Q E)
    (h : x s = .ok a s') : Q a s' := by
  unfold Ends at hx
  rwa [h] at hx

/-- What holds if `x` does not halt. -/
theorem of_eq_ok {x : HaltM σ α} {Q : α → σ → Prop} (h : ∀ a s', x s = .ok a s' → Q a s') :
    Ends x s Q fun _ => True := by
  unfold Ends
  split
  · next a s' hx => exact h a s' hx
  · trivial

/-- Where nothing is said, nothing is to be shown. -/
theorem of_any {x : HaltM σ α} : Ends x s (fun _ _ => True) fun _ => True :=
  of_eq_ok fun _ _ _ => trivial

theorem ok_or_halt {x : HaltM σ α} {Q : α → σ → Prop} (hx : Ends x s Q E) :
    (∃ a s', x s = .ok a s' ∧ Q a s') ∨ ∃ e s', x s = .error e s' ∧ E e := by
  unfold Ends at hx
  split at hx
  · next a s' h => exact .inl ⟨a, s', h, hx⟩
  · next e s' h => exact .inr ⟨e, s', h, hx⟩

/-- The end that `x` comes to is the one that it computes. -/
theorem and_eq {x : HaltM σ α} {Q : α → σ → Prop} (hx : Ends x s Q E) :
    Ends x s (fun a s' => Q a s' ∧ x s = .ok a s') E := by
  rcases hx.ok_or_halt with ⟨a, s', h, hQ⟩ | ⟨e, s', h, hE⟩
  · exact of_ok h ⟨hQ, h⟩
  · exact of_error h hE

theorem and {x : HaltM σ α} {P Q : α → σ → Prop} {E' : Halt → Prop} (hx : Ends x s P E)
    (hx' : Ends x s Q E') : Ends x s (fun a s' => P a s' ∧ Q a s') E := by
  rcases hx.ok_or_halt with ⟨a, s', h, hP⟩ | ⟨e, s', h, hE⟩
  · exact of_ok h ⟨hP, hx'.eq_ok h⟩
  · exact of_error h hE

theorem ok {x : HaltM σ α} {Q : α → σ → Prop} (hx : Ends x s Q fun _ => False) :
    ∃ a s', x s = .ok a s' ∧ Q a s' := by
  rcases hx.ok_or_halt with h | ⟨_, _, _, h⟩
  · exact h
  · exact h.elim

/-! ### The monad -/

theorem imp {x : HaltM σ α} {P Q : α → σ → Prop} (hx : Ends x s P E)
    (h : ∀ a s', P a s' → Q a s') : Ends x s Q E := by
  unfold Ends at *
  split at hx
  · exact h _ _ hx
  · exact hx

theorem pure {a : α} {Q : α → σ → Prop} (h : Q a s) : Ends (Pure.pure a) s Q E := h

theorem throw {e : Halt} {Q : α → σ → Prop} (h : E e) : Ends (MonadExcept.throw e) s Q E := h

theorem bind {x : HaltM σ α} {f : α → HaltM σ β} {P : α → σ → Prop} {Q : β → σ → Prop}
    (hx : Ends x s P E) (hf : ∀ a s', P a s' → Ends (f a) s' Q E) : Ends (x >>= f) s Q E := by
  show Ends (EStateM.bind x f) s Q E
  unfold Ends EStateM.bind
  unfold Ends at hx
  split at hx
  · next a s' h =>
    rw [h]
    exact hf a s' hx
  · next e s' h =>
    rw [h]
    exact hx

/-- A first step whose end is known. -/
theorem step {x : HaltM σ α} {f : α → HaltM σ β} {a : α} {s' : σ} {Q : β → σ → Prop}
    (hx : x s = .ok a s') (hf : Ends (f a) s' Q E) : Ends (x >>= f) s Q E :=
  bind (P := fun b t => b = a ∧ t = s') (of_ok hx ⟨rfl, rfl⟩) fun _ _ h => h.1 ▸ h.2 ▸ hf

theorem get {f : σ → HaltM σ β} {Q : β → σ → Prop} (h : Ends (f s) s Q E) :
    Ends (MonadState.get >>= f) s Q E :=
  step rfl h

theorem update {f : σ → σ} {Q : Unit → σ → Prop} (h : Q () (f s)) :
    Ends (modify f : HaltM σ Unit) s Q E := h

theorem update_bind {f : σ → σ} {x : Unit → HaltM σ β} {Q : β → σ → Prop}
    (h : Ends (x ()) (f s) Q E) : Ends (modify f >>= x) s Q E :=
  step rfl h

theorem lift {y : Except Halt α} {f : α → HaltM σ β} {a : α} {Q : β → σ → Prop}
    (hy : y = .ok a) (h : Ends (f a) s Q E) : Ends (liftM y >>= f) s Q E := by
  subst hy
  exact step rfl h

/-- A computation without a state, whatever it ends in. -/
theorem lift_cases {y : Except Halt α} {Q : α → σ → Prop} (hok : ∀ a, y = .ok a → Q a s)
    (herror : ∀ e, y = .error e → E e) : Ends (liftM y : HaltM σ α) s Q E := by
  cases hy : y with
  | ok a => exact hok a hy
  | error e => exact throw (herror e hy)

theorem throw_bind {e : Halt} {f : α → HaltM σ β} {Q : β → σ → Prop} (h : E e) :
    Ends (MonadExcept.throw e >>= f) s Q E :=
  bind (P := fun _ _ => False) (throw h) fun _ _ h => h.elim

theorem ite {c : Prop} [Decidable c] {x y : HaltM σ α} {Q : α → σ → Prop}
    (hx : c → Ends x s Q E) (hy : ¬ c → Ends y s Q E) : Ends (if c then x else y) s Q E := by
  split
  · next h => exact hx h
  · next h => exact hy h

/-! ### Loops -/

/-- A loop over the first numbers: `I k` holds once the numbers below `k` are done. -/
theorem forM_range {f : Nat → HaltM σ PUnit} {I : Nat → σ → Prop} : ∀ (len start : Nat) (s : σ),
    I start s → (∀ k s, k < start + len → I k s → Ends (f k) s (fun _ s' => I (k + 1) s') E) →
    Ends ((List.range' start len).forM f) s (fun _ s' => I (start + len) s') E
  | 0, _, _, h, _ => h
  | len + 1, start, s, h, hf => by
    have rest := fun s' h' => forM_range len (start + 1) s' h' fun k s hk => hf k s (by omega)
    rw [Nat.add_right_comm] at rest
    exact bind (hf start s (by omega) h) fun _ s' h' => rest s' h'

/-- A loop over a list, each step of which keeps `I`. -/
theorem forM {f : α → HaltM σ PUnit} {I : σ → Prop} : ∀ (l : List α) (s : σ), I s →
    (∀ a ∈ l, ∀ s, I s → Ends (f a) s (fun _ s' => I s') E) →
    Ends (l.forM f) s (fun _ s' => I s') E
  | [], _, h, _ => h
  | a :: l, s, h, hf =>
    bind (hf a List.mem_cons_self s h) fun _ s' h' =>
      forM l s' h' fun b hb => hf b (List.mem_cons_of_mem _ hb)

theorem forM_one {f : α → HaltM σ PUnit} {a : α} {Q : PUnit → σ → Prop} (h : Ends (f a) s Q E) :
    Ends ([a].forM f) s Q E :=
  bind h fun _ _ h' => h'

end Ends

/-! ### Parts of a state -/

variable {n : Nat}

theorem Frames.read_ok {f : Frames n} {look : Memory n → Except Halt α} {a : α}
    (h : look f.memory = .ok a) : Frames.read look f = .ok a f := by
  unfold Frames.read
  rw [h]

theorem Frames.modifyMemory_ok {f : Frames n} {change : Memory n → Except Halt (Memory n)}
    {m : Memory n} (h : change f.memory = .ok m) :
    Frames.modifyMemory change f = .ok () { f with memory := m } := by
  unfold Frames.modifyMemory
  rw [h]

theorem Userland.onFrames_ok {s : Userland n} {x : FramesM n α} {a : α} {f : Frames n}
    (h : x s.frames = .ok a f) : Userland.onFrames x s = .ok a { s with frames := f } := by
  unfold Userland.onFrames
  rw [h]

theorem Userland.onFrames_error {s : Userland n} {x : FramesM n α} {e : Halt} {f : Frames n}
    (h : x s.frames = .error e f) : Userland.onFrames x s = .error e { s with frames := f } := by
  unfold Userland.onFrames
  rw [h]

theorem Ends.onFrames {s : Userland n} {x : FramesM n α} {Q : α → Frames n → Prop}
    (h : Ends x s.frames Q E) : Ends (Userland.onFrames x) s
      (fun a s' => ∃ f, s' = { s with frames := f } ∧ Q a f) E := by
  rcases h.ok_or_halt with ⟨a, f, hx, hQ⟩ | ⟨e, f, hx, he⟩
  · exact .of_ok (Userland.onFrames_ok hx) ⟨f, rfl, hQ⟩
  · exact .of_error (Userland.onFrames_error hx) he

attribute [irreducible] Ends

end PagedKernel
