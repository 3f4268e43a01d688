import Mathlib.Data.BitVec
import Mathlib.Tactic.Common

/- Serial numbers: integers of which only the residue modulo 2^w travels.

   `wrap w u` is what travels for `u`. The difference of two wrapped numbers is the true
   difference as long as that is neither negative nor too large (`toNat_sub_of_le`);
   otherwise it is off by one turn (`toNat_sub_of_lt`). The residue itself falls by more than
   half a turn where a small step leads into a later turn, and nowhere else (`turn_lt_iff`).
   `highest` is the running maximum of a stream, and `latest` the number seen last. -/
namespace Serial

def wrap (w : Nat) (u : Int) : BitVec w := BitVec.ofInt w u

theorem toNat_wrap_sub (w : Nat) (u v : Int) : ((wrap w u - wrap w v).toNat : Int) = (u - v) % 2^w := by
  have hsub : wrap w u - wrap w v = wrap w (u - v) := by
    rw [wrap, wrap, wrap, BitVec.sub_eq_add_neg, ← BitVec.ofInt_neg, ← BitVec.ofInt_add, Int.sub_eq_add_neg]
  have hpos : (0 : Int) ≤ (u - v) % ((2^w : Nat) : Int) := Int.emod_nonneg _ (by have := Nat.two_pow_pos w; omega)
  rw [hsub, wrap, BitVec.toNat_ofInt, Int.toNat_of_nonneg hpos]
  push_cast
  rfl

theorem toNat_sub_of_le {w : Nat} {u v : Int} (h : v ≤ u) (h' : u - v < 2^w) :
    ((wrap w u - wrap w v).toNat : Int) = u - v := by
  rw [toNat_wrap_sub, Int.emod_eq_of_lt (by omega) h']

theorem toNat_sub_of_lt {w : Nat} {u v : Int} (h : u < v) (h' : v - u ≤ 2^w) :
    ((wrap w u - wrap w v).toNat : Int) = 2^w - (v - u) := by
  rw [toNat_wrap_sub, ← Int.add_emod_right (u - v), Int.emod_eq_of_lt (by omega) (by omega)]
  omega

/-! Turns. -/

/-- The turn a number lies in. -/
def turn (w : Nat) (u : Int) : Int := u / 2^w

theorem toNat_wrap (w : Nat) (u : Int) : ((wrap w u).toNat : Int) = u - 2^w * turn w u := by
  have hpos : (0 : Int) < 2^w := Int.pow_pos (by decide)
  have hcast : (((2^w : Nat)) : Int) = 2^w := by push_cast; rfl
  rw [wrap, BitVec.toNat_ofInt, hcast, Int.toNat_of_nonneg (Int.emod_nonneg u hpos.ne'), turn, Int.emod_def]

/-- Within one turn the residue determines the number. -/
theorem wrap_inj {w : Nat} {u v : Int} (hturn : turn w u = turn w v) (h : wrap w u = wrap w v) : u = v := by
  have hu := toNat_wrap w u
  rw [h, toNat_wrap w v, hturn] at hu
  omega

/-- Of two numbers less than half a turn apart, the second lies in a later turn iff its residue is smaller by more
    than half a turn. -/
theorem turn_lt_iff {w : Nat} {u v : Int} (h : |v - u| < 2^w) :
    ((wrap (w + 1) v).toNat : Int) - (wrap (w + 1) u).toNat < -2^w ↔ turn (w + 1) u < turn (w + 1) v := by
  have hhalf : (2 : Int)^(w + 1) = 2^w + 2^w := by rw [Int.pow_succ]; omega
  have hpos : (0 : Int) < 2^w := Int.pow_pos (by decide)
  obtain ⟨hlo, hhi⟩ := abs_lt.mp h
  rw [toNat_wrap, toNat_wrap, hhalf]
  constructor
  · intro hdrop
    by_contra hle
    have hmul : (2^w + 2^w) * turn (w + 1) v ≤ (2^w + 2^w) * turn (w + 1) u :=
      Int.mul_le_mul_of_nonneg_left (not_lt.mp hle) (by omega)
    omega
  · intro hlt
    have hmul : (2^w + 2^w) * (turn (w + 1) u + 1) ≤ (2^w + 2^w) * turn (w + 1) v :=
      Int.mul_le_mul_of_nonneg_left hlt (by omega)
    rw [Int.mul_add, Int.mul_one] at hmul
    omega

/-! Streams. -/

def highest (u₀ : Int) (us : List Int) : Int := us.foldl max u₀
def latest (u₀ : Int) (us : List Int) : Int := us.getLastD u₀

@[simp] theorem highest_nil (u₀ : Int) : highest u₀ [] = u₀ := rfl
@[simp] theorem latest_nil (u₀ : Int) : latest u₀ [] = u₀ := rfl

@[simp] theorem highest_snoc (u₀ : Int) (us : List Int) (u : Int) :
    highest u₀ (us ++ [u]) = max (highest u₀ us) u := by
  simp [highest]

@[simp] theorem latest_snoc (u₀ : Int) (us : List Int) (u : Int) : latest u₀ (us ++ [u]) = u := by
  simp [latest]

theorem le_highest (u₀ : Int) (us : List Int) : u₀ ≤ highest u₀ us := by
  induction us using List.reverseRecOn with
  | nil => exact Int.le_refl u₀
  | append_singleton us u ih =>
    rw [highest_snoc]
    exact ih.trans (Int.le_max_left _ _)

theorem latest_mem (u₀ : Int) (us : List Int) : latest u₀ us ∈ u₀ :: us := by
  rcases us.eq_nil_or_concat with rfl | ⟨vs, v, rfl⟩
  · simp
  · simp [latest]

end Serial
