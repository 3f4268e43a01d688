import Mathlib.Data.List.Induction
import Mathlib.Data.List.Nodup
import Mathlib.Tactic.Common

/- Overtaking in a queue that may hold its items back.

   Items arrive one after the other and leave in some order. `ahead arrived left a` counts the items that arrived after
   `a` and have left. `Within` bounds it for every item at the moment it leaves: nobody leaves behind more than `B` later
   ones. The newest item is never late (`ahead_newest`), an item that waits falls behind by one with each departure
   (`ahead_snoc`), and a batch that is let go at once in any order falls behind by its own size at most
   (`Within.release`). -/
namespace Overtaking

variable {α : Type*} [DecidableEq α] {arrived left hold : List α} {a b : α} {B k : Nat}

/-- How many of the items that have left arrived after `a`. -/
def ahead (arrived left : List α) (a : α) : Nat := (left.filter fun b => arrived.idxOf a < arrived.idxOf b).length

/-- Every item that has left had at most `B` later ones ahead of it. -/
def Within (arrived left : List α) (B : Nat) : Prop :=
  ∀ before a after, left = before ++ a :: after → ahead arrived before a ≤ B

theorem ahead_append (arrived left more : List α) (a : α) :
    ahead arrived (left ++ more) a = ahead arrived left a + ahead arrived more a := by
  rw [ahead, List.filter_append, List.length_append, ahead, ahead]

theorem ahead_le_length (arrived left : List α) (a : α) : ahead arrived left a ≤ left.length := List.length_filter_le _ _

/-- An item falls behind by one departure at most. -/
theorem ahead_snoc (arrived left : List α) (a b : α) : ahead arrived (left ++ [b]) a ≤ ahead arrived left a + 1 := by
  have hone := ahead_le_length arrived [b] a
  rw [ahead_append]
  exact Nat.add_le_add_left hone _

theorem ahead_arrive (more : List α) (ha : a ∈ arrived) (hleft : ∀ b ∈ left, b ∈ arrived) :
    ahead (arrived ++ more) left a = ahead arrived left a := by
  unfold ahead
  congr 1
  refine List.filter_congr fun b hb => ?_
  rw [List.idxOf_append_of_mem ha, List.idxOf_append_of_mem (hleft b hb)]

theorem ahead_newest (ha : a ∉ arrived) (hleft : ∀ b ∈ left, b ∈ arrived) : ahead (arrived ++ [a]) left a = 0 := by
  rw [ahead, List.length_eq_zero_iff, List.filter_eq_nil_iff]
  intro b hb
  have hlast : (arrived ++ [a]).idxOf a = arrived.length := by
    rw [List.idxOf_append_of_notMem ha, List.idxOf_cons_self, Nat.add_zero]
  have hbefore : (arrived ++ [a]).idxOf b < arrived.length := by
    rw [List.idxOf_append_of_mem (hleft b hb)]
    exact List.idxOf_lt_length_of_mem (hleft b hb)
  rw [hlast, decide_eq_true_eq, Nat.not_lt]
  exact Nat.le_of_lt hbefore

namespace Within

theorem nil (arrived : List α) (B : Nat) : Within arrived [] B := by
  intro before a after h
  simp at h

theorem arrive (more : List α) (h : Within arrived left B) (hleft : ∀ b ∈ left, b ∈ arrived) :
    Within (arrived ++ more) left B := by
  intro before a after heq
  have ha : a ∈ arrived := hleft a (by simp [heq])
  have hbefore : ∀ b ∈ before, b ∈ arrived := fun b hb => hleft b (by simp [heq, hb])
  rw [ahead_arrive more ha hbefore]
  exact h before a after heq

/-- **Departure rule.** -/
theorem leave (h : Within arrived left B) (ha : ahead arrived left a ≤ B) : Within arrived (left ++ [a]) B := by
  intro before b after heq
  obtain ⟨rfl, rfl⟩ | ⟨after', rfl⟩ : (before = left ∧ b = a) ∨ ∃ after', left = before ++ b :: after' := by
    rcases List.eq_nil_or_concat after with rfl | ⟨after', c, rfl⟩
    · obtain ⟨rfl, hab⟩ := List.append_inj' heq rfl
      exact .inl ⟨rfl, (List.cons.inj hab).1.symm⟩
    · refine .inr ⟨after', ?_⟩
      rw [List.concat_eq_append, ← List.cons_append, ← List.append_assoc] at heq
      exact (List.append_inj' heq rfl).1
  · exact ha
  · exact h before b after' rfl

/-- **Release rule.** Held items that each are at most `k` behind leave together. -/
theorem release (h : Within arrived left B) (hold : List α) (hhold : ∀ a ∈ hold, ahead arrived left a ≤ k)
    (hB : k + hold.length ≤ B + 1) : Within arrived (left ++ hold) B := by
  induction hold generalizing left k with
  | nil => rwa [List.append_nil]
  | cons a hold ih =>
    obtain ⟨ha, hhold⟩ := List.forall_mem_cons.mp hhold
    rw [List.length_cons] at hB
    rw [List.append_cons]
    refine ih (h.leave (by omega)) (k := k + 1) (fun b hb => ?_) (by omega)
    exact Nat.le_trans (ahead_snoc arrived left b a) (Nat.succ_le_succ (hhold b hb))

/-- Without a bound to spend the items leave as they arrived. -/
theorem in_order (h : Within arrived left 0) (hleft : left.Nodup) (hmem : ∀ a ∈ left, a ∈ arrived) :
    left.Pairwise fun a b => arrived.idxOf a < arrived.idxOf b := by
  induction left using List.reverseRecOn with
  | nil => exact .nil
  | append_singleton left a ih =>
    have hbefore : Within arrived left 0 := by
      intro before b after heq
      refine h before b (after ++ [a]) ?_
      rw [heq, List.append_assoc, List.cons_append]
    obtain ⟨hnodup, -, hne⟩ := List.nodup_append.mp hleft
    rw [List.pairwise_append]
    refine ⟨ih hbefore hnodup fun b hb => hmem b (List.mem_append_left _ hb), List.pairwise_singleton _ a, ?_⟩
    intro b hb c hc
    obtain rfl := List.mem_singleton.mp hc
    have hnone : (left.filter fun b => arrived.idxOf c < arrived.idxOf b) = [] :=
      List.length_eq_zero_iff.mp (Nat.le_zero.mp (h left c [] rfl))
    have hle : ¬ arrived.idxOf c < arrived.idxOf b := by simpa using List.filter_eq_nil_iff.mp hnone b hb
    refine Nat.lt_of_le_of_ne (Nat.not_lt.mp hle) fun heq => hne b hb c (List.mem_singleton_self c) ?_
    exact (List.idxOf_inj (hmem b (List.mem_append_left _ hb))).mp heq

end Within

end Overtaking
