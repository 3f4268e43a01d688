import Mathlib.Algebra.Order.Ring.Rat
import Mathlib.Algebra.Order.Field.Basic
import Mathlib.Data.List.Forall2
import Mathlib.Data.List.GetD
import Mathlib.Tactic.Common
import Mathlib.Tactic.Linarith

/- The part of Python the processing scripts lean on: the exceptions they can end with, indexing, the minimum and the
   maximum of a list, and what a function prints. Numbers are exact rationals. -/
namespace Handoff

inductive PyError
  | indexError
  | valueError
  deriving DecidableEq, Repr

/-- A Python computation: a value, or the exception that ended it. -/
abbrev Py := Except PyError

/-- What a function returns, and the lines it prints on the way. -/
structure Output (α : Type) where
  value : α
  printed : List String

section Lists
variable {α : Type}

/-- `xs[i]`, which counts from the end for a negative `i`. -/
def getItem (xs : List α) (i : Int) : Py α :=
  match xs[(if 0 ≤ i then i else xs.length + i).toNat]? with
  | some x => if -xs.length ≤ i then .ok x else .error .indexError
  | none => .error .indexError

theorem getItem_ofNat (xs : List α) (n : Nat) : getItem xs n = (xs[n]?).elim (.error .indexError) .ok := by
  rw [getItem, if_pos (by omega), Int.toNat_natCast]
  rcases xs[n]? with _ | x
  · rfl
  · exact if_pos (by omega)

theorem getItem_ok {xs : List α} {n : Nat} {x : α} : getItem xs n = .ok x ↔ xs[n]? = some x := by
  rw [getItem_ofNat]
  rcases xs[n]? with _ | y <;> simp

@[simp] theorem getItem_zero_nil : getItem ([] : List α) 0 = .error .indexError := rfl

@[simp] theorem getItem_zero_cons (x : α) (xs : List α) : getItem (x :: xs) 0 = .ok x := getItem_ofNat (x :: xs) 0

/-- `xs.index(x)`. -/
def index [DecidableEq α] (xs : List α) (x : α) : Py Nat := (xs.idxOf? x).elim (.error .valueError) .ok

/-- It is the first position of `x`. -/
theorem index_eq_ok [DecidableEq α] {xs : List α} {x : α} {i : Nat} :
    index xs x = .ok i ↔ ∃ h : i < xs.length, xs[i] = x ∧ ∀ k (hk : k < i), xs[k] ≠ x := by
  rw [← List.idxOf?_eq_some_iff, index]
  rcases xs.idxOf? x with _ | j <;> simp

/-- Within the list, indexing gives the element. -/
theorem getItem_getD {xs : List α} {i : Nat} (h : i < xs.length) (d : α) : getItem xs i = .ok (xs.getD i d) :=
  getItem_ok.mpr (by rw [List.getD_eq_getElem _ _ h, List.getElem?_eq_getElem h])

theorem getItem_eq_getD {xs : List α} {i : Nat} {x : α} (d : α) :
    getItem xs i = .ok x ↔ i < xs.length ∧ xs.getD i d = x := by
  constructor
  · intro h
    have hlt : i < xs.length := (List.getElem?_eq_some_iff.mp (getItem_ok.mp h)).1
    rw [getItem_getD hlt d] at h
    exact ⟨hlt, Except.ok.inj h⟩
  · intro hall
    obtain ⟨hlt, rfl⟩ := hall
    exact getItem_getD hlt d

theorem getItem_last (xs : List α) (x : α) : getItem (xs ++ [x]) (-1) = .ok x := by
  have hpos : ((if (0 : Int) ≤ -1 then -1 else ((xs ++ [x]).length : Int) + -1)).toNat = xs.length := by
    rw [if_neg (by decide), List.length_append, List.length_singleton]
    omega
  have hge : -((xs ++ [x]).length : Int) ≤ -1 := by
    rw [List.length_append, List.length_singleton]
    omega
  rw [getItem, hpos, List.getElem?_concat_length]
  exact if_pos hge

end Lists

/-- `max(xs)`. -/
def maxOf (xs : List ℚ) : Py ℚ := xs.max?.elim (.error .valueError) .ok

/-- `min(xs)`. -/
def minOf (xs : List ℚ) : Py ℚ := xs.min?.elim (.error .valueError) .ok

section Extrema
variable {xs : List ℚ} {m : ℚ}

theorem maxOf_eq_ok : maxOf xs = .ok m ↔ m ∈ xs ∧ ∀ x ∈ xs, x ≤ m := by
  rw [← List.max?_eq_some_iff, maxOf]
  rcases xs.max? with _ | m' <;> simp

theorem minOf_eq_ok : minOf xs = .ok m ↔ m ∈ xs ∧ ∀ x ∈ xs, m ≤ x := by
  rw [← List.min?_eq_some_iff, minOf]
  rcases xs.min? with _ | m' <;> simp

theorem maxOf_defined (h : xs ≠ []) : ∃ m, maxOf xs = .ok m := by
  rcases hm : xs.max? with _ | m
  · exact absurd (List.max?_eq_none_iff.mp hm) h
  · exact ⟨m, by rw [maxOf, hm]; rfl⟩

theorem minOf_defined (h : xs ≠ []) : ∃ m, minOf xs = .ok m := by
  rcases hm : xs.min? with _ | m
  · exact absurd (List.min?_eq_none_iff.mp hm) h
  · exact ⟨m, by rw [minOf, hm]; rfl⟩

end Extrema

namespace Py

@[simp] theorem ok_bind {α β : Type} (a : α) (f : α → Py β) : (Except.ok a : Py α) >>= f = f a := rfl

@[simp] theorem error_bind {α β : Type} (e : PyError) (f : α → Py β) : (Except.error e : Py α) >>= f = .error e := rfl

@[simp] theorem pure_eq_ok {α : Type} (a : α) : (pure a : Py α) = .ok a := rfl

theorem bind_eq_ok {α β : Type} {x : Py α} {f : α → Py β} {b : β} :
    x >>= f = .ok b ↔ ∃ a, x = .ok a ∧ f a = .ok b := by
  rcases x with e | a
  · exact ⟨nofun, fun ⟨_, h, _⟩ => by cases h⟩
  · exact ⟨fun h => ⟨a, rfl, h⟩, fun ⟨_, ha, h⟩ => by cases ha; exact h⟩

/-- A loop that collects one value for each element. -/
theorem mapM_eq_ok {α β : Type} {f : α → Py β} {xs : List α} {ys : List β} :
    xs.mapM f = .ok ys ↔ List.Forall₂ (fun x y => f x = .ok y) xs ys := by
  induction xs generalizing ys with
  | nil =>
    rw [List.mapM_nil, List.forall₂_nil_left_iff]
    exact ⟨fun h => (Except.ok.inj h).symm, fun h => by rw [h]; rfl⟩
  | cons x xs ih =>
    rw [List.mapM_cons, List.forall₂_cons_left_iff, bind_eq_ok]
    simp only [bind_eq_ok, pure_eq_ok, ih, Except.ok.injEq]
    constructor
    · intro hall
      obtain ⟨y, hy, ys', hys, rfl⟩ := hall
      exact ⟨y, ys', hy, hys, rfl⟩
    · intro hall
      obtain ⟨y, ys', hy, hys, rfl⟩ := hall
      exact ⟨y, hy, ys', hys, rfl⟩

end Py

end Handoff
