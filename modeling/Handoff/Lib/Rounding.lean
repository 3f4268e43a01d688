import Mathlib.Algebra.Order.Field.Power
import Mathlib.Tactic.Linarith
import Mathlib.Tactic.Ring

/- Natural numbers rounded to `p` significant bits.

   A number has `p` significant bits if it is an integer below `2^p` in size times a power of two. `roundEven` is the
   one closest to a natural number, and of two that are equally close the one whose last bit is 0: the number's own
   exponent gives a grid whose points are `2^(size - p)` apart, and what is not on the grid is no larger than its
   first point (`roundEven_nearest`). -/
namespace Rounding

/-- `x` has `p` significant bits. -/
def Significant (p : Nat) (x : ℚ) : Prop := ∃ m e : ℤ, |m| < 2 ^ p ∧ x = m * 2 ^ e

/-- The number of bits that `n` has above `p`. -/
def excess (p n : Nat) : Nat := n.log2 + 1 - p

/-- The multiple of `h` closest to `n`; of two, the even one. -/
def toMultiple (h n : Nat) : Nat :=
  if h < 2 * (n % h) ∨ h = 2 * (n % h) ∧ n / h % 2 = 1 then n / h + 1 else n / h

/-- `n` to `p` significant bits. -/
def roundEven (p n : Nat) : Nat := toMultiple (2 ^ excess p n) n * 2 ^ excess p n

example : roundEven 2 5 = 4 ∧ roundEven 2 7 = 8 ∧ roundEven 2 6 = 6 := by decide

section Rounding
variable {p n h : Nat}

/-- It is one of the multiples on either side of `n`, and not the farther one. -/
theorem toMultiple_cases (h n : Nat) :
    toMultiple h n = n / h ∧ 2 * (n % h) ≤ h ∨ toMultiple h n = n / h + 1 ∧ h ≤ 2 * (n % h) := by
  unfold toMultiple
  split <;> omega

/-- **No multiple is closer.** -/
theorem toMultiple_nearest (hh : 0 < h) (n : Nat) (j : ℤ) : |(toMultiple h n : ℤ) * h - n| ≤ |j * h - n| := by
  have hn : (n : ℤ) = (n / h : ℕ) * h + (n % h : ℕ) := by
    rw [mul_comm]
    exact_mod_cast (Nat.div_add_mod n h).symm
  have hlt : ((n % h : ℕ) : ℤ) < h := by exact_mod_cast Nat.mod_lt n hh
  have h0 : (0 : ℤ) ≤ (n % h : ℕ) := Int.natCast_nonneg _
  -- how far a multiple below and one above are
  have hj : ((n % h : ℕ) : ℤ) ≤ |j * h - n| ∨ (h : ℤ) - (n % h : ℕ) ≤ |j * h - n| := by
    obtain hle | hge : j ≤ (n / h : ℕ) ∨ (n / h : ℕ) + 1 ≤ j := by omega
    · have hmul : j * h ≤ (n / h : ℕ) * h := Int.mul_le_mul_of_nonneg_right hle (by omega)
      exact .inl (le_abs.mpr (.inr (by omega)))
    · have hmul : ((n / h : ℕ) + 1) * (h : ℤ) ≤ j * h := Int.mul_le_mul_of_nonneg_right hge (by omega)
      rw [add_mul, one_mul] at hmul
      exact .inr (le_abs.mpr (.inl (by omega)))
  obtain ⟨hq, hr⟩ | ⟨hq, hr⟩ := toMultiple_cases h n
  · have hdist : |(toMultiple h n : ℤ) * h - n| = (n % h : ℕ) := by
      rw [hq, abs_of_nonpos] <;> omega
    rw [hdist]
    omega
  · have hdist : |(toMultiple h n : ℤ) * h - n| = h - (n % h : ℕ) := by
      rw [hq, Nat.cast_add, Nat.cast_one, add_mul, one_mul, abs_of_nonneg] <;> omega
    rw [hdist]
    omega

theorem size_lt (p n : Nat) : n < 2 ^ (p + excess p n) :=
  Nat.lt_log2_self.trans_le (Nat.pow_le_pow_right (by decide) (by rw [excess]; omega))

theorem grid_le (h : 0 < excess (p + 1) n) : 2 ^ (p + excess (p + 1) n) ≤ n := by
  have hn : n ≠ 0 := by
    rintro rfl
    simp [excess] at h
  have hsize : p + excess (p + 1) n = n.log2 := by rw [excess] at h ⊢; omega
  rw [hsize]
  exact Nat.log2_self_le hn

/-- **The rounded number has the bits**, and an exponent that is one above the excess at most. -/
theorem roundEven_bits (p n : Nat) :
    ∃ m e : Nat, m < 2 ^ (p + 1) ∧ e ≤ excess (p + 1) n + 1 ∧ roundEven (p + 1) n = m * 2 ^ e := by
  have hlt : n / 2 ^ excess (p + 1) n < 2 ^ (p + 1) :=
    Nat.div_lt_of_lt_mul ((size_lt (p + 1) n).trans_eq (by rw [pow_add, mul_comm]))
  have hle : toMultiple (2 ^ excess (p + 1) n) n ≤ 2 ^ (p + 1) := by
    obtain ⟨hq, -⟩ | ⟨hq, -⟩ := toMultiple_cases (2 ^ excess (p + 1) n) n <;> omega
  obtain hlt | heq := hle.lt_or_eq
  · exact ⟨_, _, hlt, Nat.le_succ _, rfl⟩
  · -- all bits carry
    refine ⟨2 ^ p, excess (p + 1) n + 1, Nat.pow_lt_pow_right (by decide) p.lt_succ_self, Nat.le_refl _, ?_⟩
    rw [roundEven, heq, ← pow_add, ← pow_add]
    congr 1
    omega

/-- **No number with as many bits is closer.** -/
theorem roundEven_nearest {x : ℚ} (hx : Significant (p + 1) x) : |(roundEven (p + 1) n : ℚ) - n| ≤ |x - n| := by
  obtain ⟨m, e, hm, rfl⟩ := hx
  have hmultiple : ∀ j : ℤ, |(roundEven (p + 1) n : ℚ) - n| ≤ |(j : ℚ) * 2 ^ excess (p + 1) n - n| := by
    intro j
    have hnear := toMultiple_nearest (Nat.two_pow_pos (excess (p + 1) n)) n j
    rw [roundEven]
    exact_mod_cast hnear
  obtain hle | hlt := le_or_gt (excess (p + 1) n : ℤ) e
  · -- a point of the grid
    obtain ⟨k, hk⟩ := Int.le.dest hle
    have hj := hmultiple (m * 2 ^ k)
    rw [← hk, zpow_add₀ (by norm_num), zpow_natCast, zpow_natCast]
    push_cast at hj
    rwa [mul_assoc, mul_comm (2 ^ k : ℚ)] at hj
  · obtain hzero | hpos := (excess (p + 1) n).eq_zero_or_pos
    · -- all natural numbers are on the grid
      have hself := hmultiple n
      rw [hzero, pow_zero, mul_one, Int.cast_natCast, sub_self, abs_zero] at hself
      exact hself.trans (abs_nonneg _)
    · -- no larger than the first point of the grid
      have hgrid : ((2 ^ p : ℤ) : ℚ) * 2 ^ excess (p + 1) n ≤ n := by
        rw [Int.cast_pow, Int.cast_ofNat, ← pow_add]
        exact_mod_cast grid_le hpos
      have hsize : (m : ℚ) * 2 ^ e ≤ (2 ^ p : ℤ) * 2 ^ excess (p + 1) n := by
        have hm' : (m : ℚ) ≤ 2 ^ (p + 1) := by exact_mod_cast (le_abs_self m).trans hm.le
        calc (m : ℚ) * 2 ^ e ≤ 2 ^ (p + 1) * 2 ^ ((excess (p + 1) n : ℤ) - 1) :=
              mul_le_mul hm' (zpow_le_zpow_right₀ (by norm_num) (by omega)) (by positivity) (by positivity)
          _ = (2 ^ p : ℤ) * 2 ^ excess (p + 1) n := by
              rw [zpow_sub_one₀ (by norm_num), zpow_natCast, pow_succ]
              push_cast
              ring
      have hfirst := hmultiple (2 ^ p)
      rw [abs_of_nonpos (sub_nonpos.mpr hgrid)] at hfirst
      have hfar := neg_le_abs ((m : ℚ) * 2 ^ e - n)
      linarith

theorem significant_of_le (h : n ≤ 2 ^ (p + 1)) : Significant (p + 1) n := by
  obtain hlt | rfl := h.lt_or_eq
  · refine ⟨n, 0, by rw [Nat.abs_cast]; exact_mod_cast hlt, ?_⟩
    rw [zpow_zero, mul_one, Int.cast_natCast]
  · refine ⟨1, p + 1, by rw [abs_one]; exact one_lt_pow₀ (by norm_num) (Nat.succ_ne_zero p), ?_⟩
    rw [Int.cast_one, one_mul, Nat.cast_pow]
    exact_mod_cast rfl

theorem roundEven_eq_iff (p n : Nat) : roundEven (p + 1) n = n ↔ Significant (p + 1) n := by
  constructor
  · intro h
    obtain ⟨m, e, hm, -, heq⟩ := roundEven_bits p n
    refine ⟨m, e, by rw [Nat.abs_cast]; exact_mod_cast hm, ?_⟩
    rw [← h, heq]
    push_cast
    rw [zpow_natCast]
  · intro h
    have hnear := roundEven_nearest (n := n) h
    rw [sub_self, abs_zero, abs_nonpos_iff, sub_eq_zero] at hnear
    exact_mod_cast hnear

end Rounding

end Rounding
