import Mathlib.Data.List.Perm.Basic
import Mathlib.Tactic.Common

/- Custody of items that arrive one after the other.

   Each item that arrived is decided, held for later, or lost. `Balanced` says so with
   multiplicities: what arrived is a permutation of the three. One rule,
   `Balanced.step`, follows any change in which what was held and what arrives is what
   is decided, what stays held and what is lost. When the items are distinct a balanced
   account answers two questions: no item is decided twice, and every item is decided
   or held exactly when nothing was lost. -/
namespace Custody

open scoped List

variable {α : Type*}

def Balanced (arrived decided held lost : List α) : Prop := arrived.Perm (decided ++ (held ++ lost))

namespace Balanced
variable {a d h l x o h' k : List α}

theorem nil : Balanced ([] : List α) [] [] [] := List.Perm.refl _

/-- **Flow rule.** -/
theorem step (b : Balanced a d h l) (flow : (h ++ x).Perm (o ++ (h' ++ k))) :
    Balanced (a ++ x) (d ++ o) h' (l ++ k) := by
  unfold Balanced at b ⊢
  calc a ++ x
      _ ~ (d ++ (h ++ l)) ++ x := b.append_right x
      _ ~ d ++ ((h ++ x) ++ l) := by
          rw [List.append_assoc, List.append_assoc, List.append_assoc]
          exact ((List.perm_append_comm : l ++ x ~ x ++ l).append_left h).append_left d
      _ ~ d ++ ((o ++ (h' ++ k)) ++ l) := (flow.append_right l).append_left d
      _ ~ (d ++ o) ++ (h' ++ (l ++ k)) := by
          simp only [List.append_assoc]
          exact (((List.perm_append_comm : k ++ l ~ l ++ k).append_left h').append_left o).append_left d

theorem decided_nodup (b : Balanced a d h l) (ha : a.Nodup) : d.Nodup :=
  (List.nodup_append.mp (b.nodup ha)).1

/-- With distinct items nothing is lost exactly when every item is decided or held. -/
theorem lost_eq_nil_iff (b : Balanced a d h l) (ha : a.Nodup) :
    l = [] ↔ ∀ i ∈ a, i ∈ d ∨ i ∈ h := by
  have hmem : ∀ i, i ∈ a ↔ i ∈ d ∨ i ∈ h ∨ i ∈ l := by
    intro i
    rw [b.mem_iff]
    simp
  obtain ⟨-, hhl, hd⟩ := List.nodup_append.mp (b.nodup ha)
  obtain ⟨-, -, hh⟩ := List.nodup_append.mp hhl
  constructor
  · rintro rfl i hi
    simpa using (hmem i).mp hi
  · intro hall
    refine List.eq_nil_iff_forall_not_mem.mpr fun i hi => ?_
    rcases hall i ((hmem i).mpr (.inr (.inr hi))) with hid | hih
    · exact hd i hid i (List.mem_append_right h hi) rfl
    · exact hh i hih i hi rfl

end Balanced

end Custody
