import Mathlib.Data.Rat.Floor
import Mathlib.Tactic.Common

/- The part of C the emulator leans on: `int` arithmetic, array indexing, the
   conversions between its integer types and the floating-point conversions of the
   window controller.

   What C leaves undefined ends the computation with a `Fault`. Two things are not
   faults: floating point is read as exact rational arithmetic, and a conversion of
   a number that does not fit an `int` gives what x86-64 gives (`INT_MIN`), since the
   program runs on after it. -/
namespace Handoff

/-- How a computation leaves the behaviour C defines. -/
inductive Fault
  | nullDeref
  | outOfBounds
  | overflow
  | exited
  deriving DecidableEq, Repr

/-- A C computation: a value, or the fault that ended it. -/
abbrev C := Except Fault

namespace C

@[simp] theorem bind_ok {α β : Type} {x : C α} {f : α → C β} {b : β} :
    x >>= f = .ok b ↔ ∃ a, x = .ok a ∧ f a = .ok b := by
  cases x <;> simp [bind, Except.bind]

@[simp] theorem ok_bind {α β : Type} (a : α) (f : α → C β) : (Except.ok a : C α) >>= f = f a := rfl

@[simp] theorem error_bind {α β : Type} (e : Fault) (f : α → C β) :
    (Except.error e : C α) >>= f = .error e := rfl

@[simp] theorem pure_eq_ok {α : Type} (a : α) : (pure a : C α) = .ok a := rfl

end C

/-! Integers. -/

def intMin : Int := -2^31
def intMax : Int := 2^31 - 1

/-- `x--` on an `int`. -/
def decInt (x : Int) : C Int := if intMin < x then .ok (x - 1) else .error .overflow

/-- `x + y` on `int`s. -/
def addInt (x y : Int) : C Int :=
  if intMin ≤ x + y ∧ x + y ≤ intMax then .ok (x + y) else .error .overflow

/-- The conversion of a `long` to an `int`. -/
def toInt (x : Int) : Int := x.bmod (2^32)

theorem toInt_le (x : Int) : toInt x ≤ intMax := by
  have hlt := Int.bmod_lt (x := x) (m := 2^32) (by decide)
  rw [toInt, intMax]
  omega

theorem decInt_ok {x y : Int} : decInt x = .ok y ↔ intMin < x ∧ y = x - 1 := by
  unfold decInt
  split
  · next h => simp [h, eq_comm]
  · next h => simp [h]

theorem addInt_ok {x y z : Int} :
    addInt x y = .ok z ↔ intMin ≤ x + y ∧ x + y ≤ intMax ∧ z = x + y := by
  unfold addInt
  split
  · next h => simp [h.1, h.2, eq_comm]
  · next h => simp only [reduceCtorEq, false_iff]; tauto

/-- `len < n` where `len` is an `int` and `n` a `size_t`: a negative `len` converts to a value
    above every `n` that occurs. -/
def ltSize (len : Int) (n : Nat) : Bool := 0 ≤ len && len < n

theorem ltSize_ofNat (m n : Nat) : ltSize (m : Int) n = decide (m < n) := by
  simp [ltSize]

/-! Arrays. -/

/-- `a[i]`. -/
def readAt {α : Type} {n : Nat} (a : Vector α n) (i : Int) : C α :=
  if h : 0 ≤ i ∧ i.toNat < n then .ok a[i.toNat] else .error .outOfBounds

/-- `a[i] = x`. -/
def writeAt {α : Type} {n : Nat} (a : Vector α n) (i : Int) (x : α) : C (Vector α n) :=
  if h : 0 ≤ i ∧ i.toNat < n then .ok (a.set i.toNat x h.2) else .error .outOfBounds

section Arrays
variable {α : Type} {n : Nat} {a : Vector α n}

theorem writeAt_ok {i : Int} {x : α} {b : Vector α n} :
    writeAt a i x = .ok b ↔ ∃ h : 0 ≤ i ∧ i.toNat < n, b = a.set i.toNat x h.2 := by
  unfold writeAt
  split
  · next h => simp [h, eq_comm]
  · next h => simp [h]

theorem readAt_ok {i : Int} {x : α} :
    readAt a i = .ok x ↔ ∃ h : 0 ≤ i ∧ i.toNat < n, x = a[i.toNat] := by
  unfold readAt
  split
  · next h => simp [h, eq_comm]
  · next h => simp [h]

/-- Reading after a write: the new value at its index, the old one elsewhere. -/
theorem readAt_set {i : Nat} {h : i < n} {x y : α} {j : Int} (hr : readAt (a.set i x h) j = .ok y) :
    j = i ∧ y = x ∨ j ≠ i ∧ readAt a j = .ok y := by
  obtain ⟨⟨h0, hn⟩, rfl⟩ := readAt_ok.mp hr
  by_cases hij : i = j.toNat
  · exact .inl ⟨by omega, by simp [hij]⟩
  · refine .inr ⟨by omega, readAt_ok.mpr ⟨⟨h0, hn⟩, ?_⟩⟩
    rw [Vector.getElem_set_ne h hn hij]

/-- Writing the next free cell appends to the filled part. -/
theorem take_writeAt {i : Int} {x : α} {b : Vector α n} (h : writeAt a i x = .ok b) :
    b.toList.take (i + 1).toNat = a.toList.take i.toNat ++ [x] := by
  obtain ⟨⟨h0, hn⟩, rfl⟩ := writeAt_ok.mp h
  have hl : i.toNat < a.toList.length := by simpa using hn
  have hi : (i + 1).toNat = i.toNat + 1 := by omega
  rw [Vector.toList_set, hi, List.take_succ_eq_append_getElem (by simpa using hl),
    List.take_set_of_le (Nat.le_refl _), List.getElem_set_self]

end Arrays

/-! Floating-point conversions, over the rationals. -/

/-- Truncation towards zero. -/
def trunc (x : ℚ) : Int := if 0 ≤ x then ⌊x⌋ else ⌈x⌉

/-- `(int)x` for a `double` or `float`. -/
def cvtInt (x : ℚ) : Int := if intMin ≤ trunc x ∧ trunc x ≤ intMax then trunc x else intMin

/-- `(uint16_t)x` for a `float`. -/
def cvtU16 (x : ℚ) : UInt16 := UInt16.ofInt (cvtInt x)

end Handoff
