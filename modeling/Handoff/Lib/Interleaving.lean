import Mathlib.Data.List.Count
import Mathlib.Tactic.Common

/- Interleavings of threads with atomic steps.

   A system is a partial step function: `step s e` is the state after the event `e`, and
   `none` where `e` cannot happen. An interleaving from `s` to `s'` is a list of events that
   happen one after the other (`Runs`). Two rules are used beside plain induction: an
   invariant says something of every event that happens under it (`Runs.events`), and an
   invariant with a potential that pays for events of a kind bounds their number
   (`Runs.budget`). -/
namespace Interleaving

variable {σ ε : Type*} {step : σ → ε → Option σ}

/-- The events `es` happen in order and lead from the first state to the second. -/
inductive Runs (step : σ → ε → Option σ) : σ → List ε → σ → Prop
  | nil (s : σ) : Runs step s [] s
  | cons {s s₁ s' : σ} {e : ε} {es : List ε} (head : step s e = some s₁) (tail : Runs step s₁ es s') :
      Runs step s (e :: es) s'

namespace Runs

variable {s s' : σ} {e : ε} {es es' : List ε}

theorem split (h : Runs step s (es ++ es') s') : ∃ s₁, Runs step s es s₁ ∧ Runs step s₁ es' s' := by
  induction es generalizing s with
  | nil => exact ⟨s, .nil s, h⟩
  | cons e es ih =>
    cases h with
    | cons head tail =>
      obtain ⟨s₁, h₁, h₂⟩ := ih tail
      exact ⟨s₁, .cons head h₁, h₂⟩

theorem append {s₁ : σ} (h : Runs step s es s₁) (h' : Runs step s₁ es' s') : Runs step s (es ++ es') s' := by
  induction h with
  | nil => exact h'
  | cons head _ ih => exact .cons head (ih h')

/-- **Invariant rule.** What every step keeps whose event is one of `F`, a run of such events keeps. -/
theorem invariant {I : σ → Prop} {F : ε → Prop} (keeps : ∀ s e s', I s → F e → step s e = some s' → I s')
    (h : Runs step s es s') (h0 : I s) (hF : ∀ e ∈ es, F e) : I s' := by
  induction h with
  | nil => exact h0
  | cons head _ ih =>
    exact ih (keeps _ _ _ h0 (hF _ List.mem_cons_self) head) fun e he => hF e (List.mem_cons_of_mem _ he)

/-- **Event rule.** Under an invariant, every event that happens is one of `P`. -/
theorem events {I : σ → Prop} {F P : ε → Prop}
    (keeps : ∀ s e s', I s → F e → step s e = some s' → I s' ∧ P e) (h : Runs step s es s') (h0 : I s)
    (hF : ∀ e ∈ es, F e) : ∀ e ∈ es, P e := by
  induction h with
  | nil =>
    intro e he
    cases he
  | cons head _ ih =>
    obtain ⟨hI, hP⟩ := keeps _ _ _ h0 (hF _ List.mem_cons_self) head
    intro e he
    obtain rfl | he := List.mem_cons.mp he
    · exact hP
    · exact ih hI (fun e he => hF e (List.mem_cons_of_mem _ he)) e he

/-- **Budget rule.** If the potential pays for the events of a kind, it bounds their number. -/
theorem budget {I : σ → Prop} {F : ε → Prop} {kind : ε → Bool} {potential : σ → Nat}
    (keeps : ∀ s e s', I s → F e → step s e = some s' →
      I s' ∧ (if kind e then 1 else 0) + potential s' ≤ potential s)
    (h : Runs step s es s') (h0 : I s) (hF : ∀ e ∈ es, F e) :
    I s' ∧ es.countP kind + potential s' ≤ potential s := by
  induction h with
  | nil s => exact ⟨h0, by simp⟩
  | @cons s s₁ s' e es head tail ih =>
    obtain ⟨hI, hpay⟩ := keeps _ _ _ h0 (hF _ List.mem_cons_self) head
    obtain ⟨hI', hrest⟩ := ih hI fun e he => hF e (List.mem_cons_of_mem _ he)
    refine ⟨hI', ?_⟩
    rw [List.countP_cons]
    omega

end Runs

end Interleaving
