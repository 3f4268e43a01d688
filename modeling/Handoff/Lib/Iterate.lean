import Mathlib.Logic.Function.Iterate
import Mathlib.Tactic.Common

/- A loop as the iteration of its step function.

   `Reaches f s t` says that some number of steps leads from `s` to `t`, `Always f P s` that `P`
   holds of every state the loop passes from `s` on. A view `v` of the states under which each step of
   `f` is a step of `g` or none is a simulation: what the loop passes is seen on an orbit of `g`
   (`view_orbit`), and the whole of the orbit is seen if the loop always moves on (`orbit_view`). -/
namespace Iterate

variable {σ : Type*} {f : σ → σ} {P : σ → Prop} {s t u : σ}

def Reaches (f : σ → σ) (s t : σ) : Prop := ∃ n, f^[n] s = t

def Always (f : σ → σ) (P : σ → Prop) (s : σ) : Prop := ∀ n, P (f^[n] s)

theorem Reaches.refl (s : σ) : Reaches f s s := ⟨0, rfl⟩

theorem Reaches.head (h : Reaches f (f s) t) : Reaches f s t := by
  obtain ⟨n, rfl⟩ := h
  exact ⟨n + 1, rfl⟩

theorem Reaches.trans (h : Reaches f s t) (h' : Reaches f t u) : Reaches f s u := by
  obtain ⟨n, rfl⟩ := h
  obtain ⟨m, rfl⟩ := h'
  exact ⟨m + n, Function.iterate_add_apply f m n s⟩

theorem Always.now (h : Always f P s) : P s := h 0

theorem Always.later (h : Always f P s) (hr : Reaches f s t) : Always f P t := by
  obtain ⟨n, rfl⟩ := hr
  intro m
  rw [← Function.iterate_add_apply]
  exact h (m + n)

theorem Always.always (h : Always f P s) : Always f (fun t => Always f P t) s :=
  fun n => h.later ⟨n, rfl⟩

/-- What a step keeps wherever `Q` holds, holds always if `Q` does. -/
theorem Always.of_step {Q : σ → Prop} (hQ : Always f Q s) (h0 : P s) (hstep : ∀ s, Q s → P s → P (f s)) :
    Always f P s := by
  intro n
  induction n with
  | zero => exact h0
  | succ n ih =>
    rw [Function.iterate_succ_apply']
    exact hstep _ (hQ n) ih

/-- What a step keeps holds always. -/
theorem always_of_step (h0 : P s) (hstep : ∀ s, P s → P (f s)) : Always f P s :=
  Always.of_step (Q := fun _ => True) (fun _ => trivial) h0 fun s _ => hstep s

/-- A step that moves on downwards only comes to rest, after no more steps than the start is high. -/
theorem comes_to_rest {m : σ → Nat} (h0 : P s) (hstep : ∀ s, P s → f s = s ∨ P (f s) ∧ m (f s) < m s) :
    ∃ t, P t ∧ f t = t ∧ ∃ N ≤ m s, ∀ n, N ≤ n → f^[n] s = t := by
  -- on the height of the start
  induction hm : m s using Nat.strongRecOn generalizing s with
  | ind k ih =>
    subst hm
    obtain hrest | ⟨hP, hlt⟩ := hstep s h0
    · exact ⟨s, h0, hrest, 0, Nat.zero_le _, fun n _ => Function.iterate_fixed hrest n⟩
    · obtain ⟨t, ht, hrest, N, hN, hall⟩ := ih (m (f s)) hlt hP rfl
      refine ⟨t, ht, hrest, N + 1, Nat.lt_of_le_of_lt hN hlt, fun n hn => ?_⟩
      cases n with
      | zero => cases hn
      | succ n => exact hall n (Nat.le_of_succ_le_succ hn)

section View
variable {τ : Type*} {g : τ → τ} {v : σ → τ}

theorem view_orbit (hstep : ∀ s, v (f s) = v s ∨ v (f s) = g (v s)) (s : σ) (n : Nat) :
    ∃ k, v (f^[n] s) = g^[k] (v s) := by
  induction n with
  | zero => exact ⟨0, rfl⟩
  | succ n ih =>
    obtain ⟨k, hk⟩ := ih
    rw [Function.iterate_succ_apply']
    obtain h | h := hstep (f^[n] s)
    · exact ⟨k, h.trans hk⟩
    · exact ⟨k + 1, by rw [h, hk, Function.iterate_succ_apply']⟩

theorem orbit_view (hmove : ∀ s, ∃ t, Reaches f s t ∧ v t = g (v s)) (s : σ) (k : Nat) :
    ∃ t, Reaches f s t ∧ v t = g^[k] (v s) := by
  induction k with
  | zero => exact ⟨s, .refl s, rfl⟩
  | succ k ih =>
    obtain ⟨t, ht, hk⟩ := ih
    obtain ⟨u, hu, hg⟩ := hmove t
    exact ⟨u, ht.trans hu, by rw [hg, hk, Function.iterate_succ_apply']⟩

end View

end Iterate
