import Mathlib.Tactic.Common

/- Partial correctness of fallible computations.

   `Returns P x` says that the value `x` returns, if it returns one, has the property `P`.
   The rules follow the shape of the computation, so that what a function returns is read
   off from what the functions it calls return. -/

universe u v
variable {ε : Type u} {α β : Type v}

/-- If `x` returns a value, it has the property `P`. -/
structure Returns (P : α → Prop) (x : Except ε α) : Prop where
  value : ∀ a, x = .ok a → P a

namespace Returns

variable {P Q : α → Prop} {R : β → Prop} {x y : Except ε α}

theorem ok {a : α} (h : P a) : Returns P (.ok a : Except ε α) := by
  constructor
  intro b hb
  cases hb
  exact h

theorem error (e : ε) : Returns P (.error e : Except ε α) := by
  constructor
  intro b hb
  cases hb

theorem bind {f : α → Except ε β} (hx : Returns P x) (hf : ∀ a, P a → Returns R (f a)) :
    Returns R (x >>= f) := by
  constructor
  intro b hb
  cases hxa : x with
  | error e => rw [hxa] at hb; cases hb
  | ok a => rw [hxa] at hb; exact (hf a (hx.value a hxa)).value b hb

/-- The bind rule that keeps the equation of the first part. -/
theorem bind_eq {f : α → Except ε β} (hf : ∀ a, x = .ok a → Returns R (f a)) : Returns R (x >>= f) :=
  bind (P := fun a => x = .ok a) ⟨fun _ h => h⟩ hf

/-- The bind rule for a first part of which nothing is needed. -/
theorem bind_any {f : α → Except ε β} (hf : ∀ a, Returns R (f a)) : Returns R (x >>= f) :=
  bind_eq fun a _ => hf a

theorem mono (hx : Returns P x) (h : ∀ a, P a → Q a) : Returns Q x := ⟨fun a ha => h a (hx.value a ha)⟩

theorem ite {c : Prop} [Decidable c] (hx : c → Returns P x) (hy : ¬ c → Returns P y) :
    Returns P (if c then x else y) := by
  by_cases h : c
  · rw [if_pos h]
    exact hx h
  · rw [if_neg h]
    exact hy h

end Returns
