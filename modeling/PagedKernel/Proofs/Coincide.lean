import PagedKernel.Proofs.Outcome

/-!
# Computations that end alike

`Coincide R x s t` says that the computation `x` does the same on the states `s` and `t`: it has the
same result, or halts for the same cause, and leaves states that `R` relates. What the first part of
a computation leaves of `s` may be known from how it ends there (`Coincide.bind_ends`); so what
follows has to end alike only on the states that come up.

Key definition: `Coincide`.
Key theorems: `Coincide.bind`, `Coincide.bind_ends`, `Coincide.forM_range`, `Coincide.forM`.
-/

namespace PagedKernel

variable {σ α β : Type} {R : σ → σ → Prop} {s t : σ}

/-- On `s` and `t`, `x` ends with the same result or in the same halt, and leaves states that `R`
relates. -/
inductive Coincide (R : σ → σ → Prop) (x : HaltM σ α) (s t : σ) : Prop
  | ok {a : α} {s' t' : σ} : x s = .ok a s' → x t = .ok a t' → R s' t' → Coincide R x s t
  | halt {e : Halt} {s' t' : σ} : x s = .error e s' → x t = .error e t' → R s' t' →
    Coincide R x s t

namespace Coincide

/-! ### What has ended alike -/

theorem eq_ok {x : HaltM σ α} {a : α} {s' : σ} (h : Coincide R x s t) (hs : x s = .ok a s') :
    ∃ t', x t = .ok a t' ∧ R s' t' := by
  cases h with
  | ok hs' ht hR =>
    rw [hs] at hs'
    cases hs'
    exact ⟨_, ht, hR⟩
  | halt hs' =>
    rw [hs] at hs'
    cases hs'

theorem eq_error {x : HaltM σ α} {e : Halt} {s' : σ} (h : Coincide R x s t)
    (hs : x s = .error e s') : ∃ t', x t = .error e t' ∧ R s' t' := by
  cases h with
  | ok hs' =>
    rw [hs] at hs'
    cases hs'
  | halt hs' ht hR =>
    rw [hs] at hs'
    cases hs'
    exact ⟨_, ht, hR⟩

/-- A computation that ends as another does, on other states. -/
theorem of_eq {x y : HaltM σ α} {s' t' : σ} (hs : y s = x s') (ht : y t = x t')
    (h : Coincide R x s' t') : Coincide R y s t := by
  cases h with
  | ok hs' ht' hR => exact .ok (hs.trans hs') (ht.trans ht') hR
  | halt hs' ht' hR => exact .halt (hs.trans hs') (ht.trans ht') hR

/-! ### The monad -/

theorem pure {a : α} (h : R s t) : Coincide R (Pure.pure a : HaltM σ α) s t :=
  .ok rfl rfl h

theorem throw {e : Halt} (h : R s t) : Coincide R (MonadExcept.throw e : HaltM σ α) s t :=
  .halt rfl rfl h

theorem step {x : HaltM σ α} {f : α → HaltM σ β} {a : α} {s' t' : σ} (hs : x s = .ok a s')
    (ht : x t = .ok a t') (hf : Coincide R (f a) s' t') : Coincide R (x >>= f) s t := by
  have hbind : ∀ {r r' : σ}, x r = .ok a r' → (x >>= f) r = f a r' := by
    intro r r' h
    show EStateM.bind x f r = _
    unfold EStateM.bind
    rw [h]
  exact .of_eq (hbind hs) (hbind ht) hf

/-- A computation ends alike if its first part does and, after that, the rest. -/
theorem bind_ends {x : HaltM σ α} {f : α → HaltM σ β} {P : α → σ → Prop} (hx : Coincide R x s t)
    (he : Ends x s P fun _ => True)
    (hf : ∀ a s' t', P a s' → R s' t' → Coincide R (f a) s' t') : Coincide R (x >>= f) s t := by
  cases hx with
  | ok hs ht hR => exact step hs ht (hf _ _ _ (he.eq_ok hs) hR)
  | halt hs ht hR =>
    have hbind : ∀ {r r' : σ} {e : Halt}, x r = .error e r' → (x >>= f) r = .error e r' := by
      intro r r' e h
      show EStateM.bind x f r = _
      unfold EStateM.bind
      rw [h]
    exact .halt (hbind hs) (hbind ht) hR

theorem bind {x : HaltM σ α} {f : α → HaltM σ β} (hx : Coincide R x s t)
    (hf : ∀ a s' t', R s' t' → Coincide R (f a) s' t') : Coincide R (x >>= f) s t :=
  hx.bind_ends .of_any fun a s' t' _ => hf a s' t'

theorem get {f : σ → HaltM σ β} (heq : f t = f s) (h : Coincide R (f s) s t) :
    Coincide R (MonadState.get >>= f) s t := by
  have hbind : ∀ r, (MonadState.get >>= f : HaltM σ β) r = f r r := fun _ => rfl
  exact .of_eq (hbind s) (heq ▸ hbind t) h

theorem update {f : σ → σ} (h : R (f s) (f t)) : Coincide R (modify f : HaltM σ Unit) s t :=
  .ok rfl rfl h

theorem update_bind {f : σ → σ} {x : Unit → HaltM σ β} (h : Coincide R (x ()) (f s) (f t)) :
    Coincide R (modify f >>= x) s t :=
  step rfl rfl h

theorem lift_bind {y : Except Halt α} {f : α → HaltM σ β} (h : R s t)
    (hf : ∀ a, y = .ok a → Coincide R (f a) s t) : Coincide R (liftM y >>= f) s t := by
  cases y with
  | ok a => exact step rfl rfl (hf a rfl)
  | error e => exact .halt rfl rfl h

theorem throw_bind {e : Halt} {f : α → HaltM σ β} (h : R s t) :
    Coincide R (MonadExcept.throw e >>= f) s t :=
  .halt rfl rfl h

theorem ite {c : Prop} [Decidable c] {x y : HaltM σ α} (hx : c → Coincide R x s t)
    (hy : ¬ c → Coincide R y s t) : Coincide R (if c then x else y) s t := by
  split
  · next h => exact hx h
  · next h => exact hy h

/-! ### Loops -/

/-- A loop over the first numbers: `I k` holds of the first state once the numbers below `k` are
done. -/
theorem forM_range {f : Nat → HaltM σ PUnit} {I : Nat → σ → Prop} : ∀ (len start : Nat) (s t : σ),
    I start s → R s t →
    (∀ k s, k < start + len → I k s → Ends (f k) s (fun _ s' => I (k + 1) s') fun _ => True) →
    (∀ k s t, k < start + len → I k s → R s t → Coincide R (f k) s t) →
    Coincide R ((List.range' start len).forM f) s t
  | 0, _, _, _, _, hR, _, _ => .pure hR
  | len + 1, start, s, t, hI, hR, he, hf =>
    bind_ends (hf start s t (by omega) hI hR) (he start s (by omega) hI) fun _ s' t' hI' hR' =>
      forM_range len (start + 1) s' t' hI' hR' (fun k s hk => he k s (by omega))
        fun k s t hk => hf k s t (by omega)

/-- A loop over a list, each step of which keeps `I`. -/
theorem forM {f : α → HaltM σ PUnit} {I : σ → Prop} : ∀ (l : List α) (s t : σ), I s → R s t →
    (∀ a ∈ l, ∀ s, I s → Ends (f a) s (fun _ s' => I s') fun _ => True) →
    (∀ a ∈ l, ∀ s t, I s → R s t → Coincide R (f a) s t) → Coincide R (l.forM f) s t
  | [], _, _, _, hR, _, _ => .pure hR
  | a :: l, s, t, hI, hR, he, hf =>
    bind_ends (hf a List.mem_cons_self s t hI hR) (he a List.mem_cons_self s hI)
      fun _ s' t' hI' hR' => forM l s' t' hI' hR' (fun b hb => he b (List.mem_cons_of_mem _ hb))
        fun b hb => hf b (List.mem_cons_of_mem _ hb)

end Coincide

end PagedKernel
