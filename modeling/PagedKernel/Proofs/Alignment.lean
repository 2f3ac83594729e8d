import Mathlib.Algebra.Order.Floor.Div
import Mathlib.Order.Bounds.Defs
import PagedKernel.Halt

/-!
# Rounding addresses

An address is rounded to a multiple of a power of two by clearing its low bits. Rounding down gives
the greatest multiple that is at most the address, for every address. Rounding up first adds the
power of two and then takes one away, which gives the least multiple that is at least the address
wherever the sum fits a word. It does not fit for one address that has such a multiple: the topmost
multiple, which is its own.

Key theorems: `Word.toNat_and_not_sub_one`, `Word.alignDown_isGreatest`, `Word.alignUp_isLeast`,
`Word.alignUp_topmost`, `Word.align_exact`.
-/

namespace PagedKernel
namespace Word

variable {addr align down up : UInt64}

/-! ### Multiples -/

theorem isGreatest_multiple {a : ℕ} (ha : 0 < a) (n : ℕ) :
    IsGreatest {x | a ∣ x ∧ x ≤ n} (n / a * a) := by
  refine ⟨⟨Nat.dvd_mul_left _ _, Nat.div_mul_le_self n a⟩, ?_⟩
  rintro x ⟨⟨c, rfl⟩, hx⟩
  rw [Nat.mul_comm] at hx ⊢
  exact Nat.mul_le_mul_right a ((Nat.le_div_iff_mul_le ha).mpr hx)

theorem isLeast_multiple {a : ℕ} (ha : 0 < a) (n : ℕ) :
    IsLeast {x | a ∣ x ∧ n ≤ x} ((n + a - 1) / a * a) := by
  rw [← Nat.ceilDiv_eq_add_pred_div, Nat.mul_comm]
  refine ⟨⟨Nat.dvd_mul_right _ _, (ceilDiv_le_iff_le_mul ha).mp le_rfl⟩, ?_⟩
  rintro x ⟨⟨c, rfl⟩, hx⟩
  exact Nat.mul_le_mul_left a ((ceilDiv_le_iff_le_mul ha).mpr hx)

theorem isGreatest_self {a n : ℕ} (h : a ∣ n) : IsGreatest {x | a ∣ x ∧ x ≤ n} n :=
  ⟨⟨h, le_rfl⟩, fun _ hx => hx.2⟩

theorem isLeast_self {a n : ℕ} (h : a ∣ n) : IsLeast {x | a ∣ x ∧ n ≤ x} n :=
  ⟨⟨h, le_rfl⟩, fun _ hx => hx.2⟩

/-- A power of two that is a word divides the number of words. -/
theorem dvd_size (h : align.toNat.isPowerOfTwo) : align.toNat ∣ UInt64.size := by
  obtain ⟨k, hk⟩ := h
  have hlt : 2 ^ k < 2 ^ 64 := hk ▸ align.toNat_lt
  rw [hk]
  exact Nat.pow_dvd_pow 2 ((Nat.pow_lt_pow_iff_right (by decide)).mp hlt).le

/-- Some multiple from `addr` on is a word, up to the topmost of them. -/
theorem exists_multiple_iff (h : align.toNat.isPowerOfTwo) :
    (∃ x < UInt64.size, align.toNat ∣ x ∧ addr.toNat ≤ x) ↔
      addr.toNat + align.toNat ≤ UInt64.size := by
  have hpos := Nat.pos_of_isPowerOfTwo h
  constructor
  · rintro ⟨x, hlt, hdvd, hle⟩
    have hgap : align.toNat ≤ UInt64.size - x :=
      Nat.le_of_dvd (Nat.sub_pos_of_lt hlt) (Nat.dvd_sub (dvd_size h) hdvd)
    omega
  · intro hle
    refine ⟨UInt64.size - align.toNat, ?_, Nat.dvd_sub (dvd_size h) dvd_rfl, by omega⟩
    exact Nat.sub_lt (by decide) hpos

/-! ### Clearing the low bits -/

theorem testBit_not (w : UInt64) (i : ℕ) :
    (~~~w).toNat.testBit i = (decide (i < 64) && !w.toNat.testBit i) := by
  have hnot : (~~~w).toNat = 2 ^ 64 - (w.toNat + 1) := by
    rw [UInt64.toNat_not, UInt64.size]
    omega
  rw [hnot, Nat.testBit_two_pow_sub_succ w.toNat_lt]

theorem one_le_of_isPowerOfTwo (h : align.toNat.isPowerOfTwo) : 1 ≤ align :=
  UInt64.le_iff_toNat_le.mpr (Nat.pos_of_isPowerOfTwo h)

/-- Clearing the bits below a power of two leaves a multiple of it. -/
theorem toNat_and_not_sub_one (h : align.toNat.isPowerOfTwo) (w : UInt64) :
    (w &&& ~~~(align - 1)).toNat = w.toNat / align.toNat * align.toNat := by
  have hmask : (align - 1).toNat = align.toNat - 1 :=
    UInt64.toNat_sub_of_le _ _ (one_le_of_isPowerOfTwo h)
  obtain ⟨k, hk⟩ := h
  refine Nat.eq_of_testBit_eq fun i => ?_
  rw [UInt64.toNat_and, Nat.testBit_and, testBit_not, hmask, hk, Nat.testBit_two_pow_sub_one,
    Nat.testBit_mul_two_pow, Nat.testBit_div_two_pow]
  -- the mask has the bits from `k` on, up to those that no word has
  by_cases hki : k ≤ i
  · rw [Nat.sub_add_cancel hki]
    by_cases hi : i < 64
    · simp [hki, hi]
    · have hhigh : w.toNat < 2 ^ i :=
        w.toNat_lt.trans_le (Nat.pow_le_pow_right (by decide) (Nat.le_of_not_lt hi))
      simp [Nat.testBit_lt_two_pow hhigh]
  · simp [hki, Nat.lt_of_not_le hki]

/-! ### Rounding -/

theorem sub_eq_ok {a b : UInt64} (h : b ≤ a) : sub a b = .ok (a - b) := if_pos h

/-- **Rounding down** never halts and gives the greatest multiple that is at most the address. -/
theorem alignDown_isGreatest (h : align.toNat.isPowerOfTwo) (addr : UInt64) :
    ∃ down, alignDown addr align = .ok down ∧
      IsGreatest {x | align.toNat ∣ x ∧ x ≤ addr.toNat} down.toNat := by
  refine ⟨addr &&& ~~~(align - 1), ?_, ?_⟩
  · unfold alignDown
    rw [sub_eq_ok (one_le_of_isPowerOfTwo h)]
    rfl
  · rw [toNat_and_not_sub_one h]
    exact isGreatest_multiple (Nat.pos_of_isPowerOfTwo h) _

/-- **Rounding up** gives the least multiple that is at least the address, if the sum with the power
of two is a word. -/
theorem alignUp_isLeast (h : align.toNat.isPowerOfTwo)
    (hsum : addr.toNat + align.toNat < UInt64.size) :
    ∃ up, alignUp addr align = .ok up ∧
      IsLeast {x | align.toNat ∣ x ∧ addr.toNat ≤ x} up.toNat := by
  have hpos := Nat.pos_of_isPowerOfTwo h
  have hadd : (addr + align).toNat = addr.toNat + align.toNat := by
    rw [UInt64.toNat_add, Nat.mod_eq_of_lt hsum]
  have hone : 1 ≤ addr + align := by
    rw [UInt64.le_iff_toNat_le, hadd]
    exact Nat.le_add_left_of_le hpos
  refine ⟨(addr + align - 1) &&& ~~~(align - 1), ?_, ?_⟩
  · have hfits : add addr align = .ok (addr + align) := if_pos hsum
    unfold alignUp
    rw [hfits]
    dsimp only [bind, Except.bind]
    rw [sub_eq_ok hone, sub_eq_ok (one_le_of_isPowerOfTwo h)]
    rfl
  · rw [toNat_and_not_sub_one h, UInt64.toNat_sub_of_le _ _ hone, hadd]
    exact isLeast_multiple hpos _

theorem alignUp_overflow (hsum : UInt64.size ≤ addr.toNat + align.toNat) :
    alignUp addr align = .error .overflow := by
  have hadd : add addr align = .error .overflow := if_neg (Nat.not_lt.mpr hsum)
  unfold alignUp
  rw [hadd]
  rfl

/-- An address that is a multiple is the least one from there on, and yet rounding up halts at the
topmost. -/
theorem alignUp_topmost (h : align.toNat.isPowerOfTwo)
    (htop : addr.toNat + align.toNat = UInt64.size) :
    IsLeast {x | align.toNat ∣ x ∧ addr.toNat ≤ x} addr.toNat ∧
      alignUp addr align = .error .overflow := by
  have hdvd : align.toNat ∣ addr.toNat := by
    rw [Nat.eq_sub_of_add_eq htop]
    exact Nat.dvd_sub (dvd_size h) dvd_rfl
  exact ⟨isLeast_self hdvd, alignUp_overflow htop.ge⟩

/-- The multiples on both sides of an address are one, or next to each other. -/
theorem sub_rounded (hpos : 0 < align.toNat)
    (hdown : IsGreatest {x | align.toNat ∣ x ∧ x ≤ addr.toNat} down.toNat)
    (hup : IsLeast {x | align.toNat ∣ x ∧ addr.toNat ≤ x} up.toNat) :
    sub up down = .ok 0 ∨ sub up down = .ok align := by
  obtain ⟨⟨hdvd, hle⟩, hgreatest⟩ := hdown
  obtain ⟨⟨hdvd', hle'⟩, hleast⟩ := hup
  have horder : down ≤ up := UInt64.le_iff_toNat_le.mpr (hle.trans hle')
  have hgap : (up - down).toNat = up.toNat - down.toNat := UInt64.toNat_sub_of_le _ _ horder
  have hdvd_next : align.toNat ∣ down.toNat + align.toNat := Nat.dvd_add hdvd dvd_rfl
  -- else the next multiple would still be at most the address
  have hbehind : addr.toNat ≤ down.toNat + align.toNat := by
    by_contra hnext
    have hback := hgreatest ⟨hdvd_next, Nat.le_of_not_le hnext⟩
    omega
  have hnear : up.toNat ≤ down.toNat + align.toNat := hleast ⟨hdvd_next, hbehind⟩
  have hdvd_gap : align.toNat ∣ (up - down).toNat := hgap ▸ Nat.dvd_sub hdvd' hdvd
  rw [sub_eq_ok horder, Except.ok.injEq, Except.ok.injEq, ← UInt64.toNat_inj, ← UInt64.toNat_inj]
  rcases Nat.eq_zero_or_pos (up - down).toNat with hzero | hsome
  · exact .inl hzero
  · have hfar : align.toNat ≤ (up - down).toNat := Nat.le_of_dvd hsome hdvd_gap
    right
    omega

/-- **Rounding is exact, but for one address.** To a power of two, every address is rounded down to
the greatest multiple that is at most the address. Wherever a multiple that is at least the address
is a word, the address is rounded up to the least one, unless it is the topmost multiple itself:
there, and where no multiple is left, rounding up halts. A multiple is rounded to itself both ways,
and the two results are one or next to each other. -/
theorem align_exact (h : align.toNat.isPowerOfTwo) (addr : UInt64) :
    ∃ down, alignDown addr align = .ok down ∧
      IsGreatest {x | align.toNat ∣ x ∧ x ≤ addr.toNat} down.toNat ∧
      (align.toNat ∣ addr.toNat → down = addr) ∧
      ((∃ x < UInt64.size, align.toNat ∣ x ∧ addr.toNat ≤ x) →
        addr.toNat + align.toNat ≠ UInt64.size →
        ∃ up, alignUp addr align = .ok up ∧
          IsLeast {x | align.toNat ∣ x ∧ addr.toNat ≤ x} up.toNat ∧
          (align.toNat ∣ addr.toNat → up = addr) ∧
          (sub up down = .ok 0 ∨ sub up down = .ok align)) ∧
      (addr.toNat + align.toNat = UInt64.size ∨
          (¬ ∃ x < UInt64.size, align.toNat ∣ x ∧ addr.toNat ≤ x) →
        alignUp addr align = .error .overflow) := by
  obtain ⟨down, hdown, hgreatest⟩ := alignDown_isGreatest h addr
  refine ⟨down, hdown, hgreatest, fun hdvd => ?_, fun hsome hne => ?_, fun hnone => ?_⟩
  · exact UInt64.toNat_inj.mp (hgreatest.unique (isGreatest_self hdvd))
  · have hsum := (exists_multiple_iff h).mp hsome
    obtain ⟨up, hup, hleast⟩ := alignUp_isLeast h (Nat.lt_of_le_of_ne hsum hne)
    have hapart := sub_rounded (Nat.pos_of_isPowerOfTwo h) hgreatest hleast
    refine ⟨up, hup, hleast, fun hdvd => ?_, hapart⟩
    exact UInt64.toNat_inj.mp (hleast.unique (isLeast_self hdvd))
  · rw [exists_multiple_iff h] at hnone
    exact alignUp_overflow (by omega)

/-- An address in the last page but one is rounded up to the topmost page. -/
theorem align_exact_last_page : (4096 : UInt64).toNat.isPowerOfTwo ∧
    (∃ x < UInt64.size, (4096 : UInt64).toNat ∣ x ∧ (0xffffffffffffe001 : UInt64).toNat ≤ x) ∧
    (0xffffffffffffe001 : UInt64).toNat + (4096 : UInt64).toNat ≠ UInt64.size ∧
    alignDown 0xffffffffffffe001 4096 = .ok 0xffffffffffffe000 ∧
    alignUp 0xffffffffffffe001 4096 = .ok 0xfffffffffffff000 ∧
    IsGreatest {x | 4096 ∣ x ∧ x ≤ 0xffffffffffffe001} 0xffffffffffffe000 ∧
    IsLeast {x | 4096 ∣ x ∧ 0xffffffffffffe001 ≤ x} 0xfffffffffffff000 := by
  have hpow : (4096 : UInt64).toNat.isPowerOfTwo := by decide
  have hsome : ∃ x < UInt64.size, (4096 : UInt64).toNat ∣ x ∧
      (0xffffffffffffe001 : UInt64).toNat ≤ x := ⟨0xfffffffffffff000, by decide⟩
  have hne : (0xffffffffffffe001 : UInt64).toNat + (4096 : UInt64).toNat ≠ UInt64.size := by decide
  have hdown : alignDown 0xffffffffffffe001 4096 = .ok 0xffffffffffffe000 := by decide
  have hup : alignUp 0xffffffffffffe001 4096 = .ok 0xfffffffffffff000 := by decide
  obtain ⟨down, hdown', hgreatest, -, hfits, -⟩ := align_exact hpow 0xffffffffffffe001
  obtain ⟨up, hup', hleast, -⟩ := hfits hsome hne
  cases hdown.symm.trans hdown'
  cases hup.symm.trans hup'
  exact ⟨hpow, hsome, hne, hdown, hup, hgreatest, hleast⟩

/-- **The topmost page is not rounded up to itself**, though it is the least multiple that is at
least its address. -/
theorem alignUp_topmost_page : (4096 : UInt64).toNat.isPowerOfTwo ∧
    (0xfffffffffffff000 : UInt64).toNat < UInt64.size ∧
    IsLeast {x | (4096 : UInt64).toNat ∣ x ∧ (0xfffffffffffff000 : UInt64).toNat ≤ x}
      (0xfffffffffffff000 : UInt64).toNat ∧
    alignUp 0xfffffffffffff000 4096 = .error .overflow := by
  have hpow : (4096 : UInt64).toNat.isPowerOfTwo := by decide
  exact ⟨hpow, by decide, alignUp_topmost hpow (by decide)⟩

end Word

end PagedKernel
