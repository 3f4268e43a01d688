import Handoff.Python
import Mathlib.Data.List.Induction

/- The operations on data frames the packet scripts lean on. A frame is the list of its rows, a column the list of its
   values.

   `sort_values` is a parameter, of which `SortsBy` says what its documentation does: the default algorithm is not
   stable, so rows with equal keys may come out in any order. -/
namespace Handoff

variable {α β κ : Type}

/-- `sort_values`: the same rows, with keys that do not decrease. -/
structure SortsBy (le : α → α → Prop) (sortValues : List α → List α) : Prop where
  perm : ∀ df, (sortValues df).Perm df
  sorted : ∀ df, (sortValues df).Pairwise le

/-- Every row with the one after it. -/
def steps (df : List α) : List (α × α) := df.zip df.tail

/-- `column.diff()`: the difference from the row before, and NaN in the first row. -/
def diff [Sub α] : List α → List (Option α)
  | [] => []
  | x :: xs => none :: (steps (x :: xs)).map fun s => some (s.2 - s.1)

/-- `df.drop_duplicates(subset=key, keep="first")`. -/
def dropDuplicates [DecidableEq κ] (key : α → κ) (df : List α) : List α :=
  df.foldl (fun kept row => if key row ∈ kept.map key then kept else kept ++ [row]) []

/-! Sorting. -/

theorem SortsBy.of_ascending {le : α → α → Prop} {sortValues : List α → List α} (h : SortsBy le sortValues)
    {df : List α} (hdf : df.Pairwise fun a b => le a b ∧ ¬ le b a) : sortValues df = df := by
  -- no two different rows of the frame are level
  have hlevel : ∀ a ∈ df, ∀ b ∈ df, le a b ∧ le b a → a = b := by
    refine fun a ha b hb => List.Pairwise.forall_of_forall_of_flip (R := fun a b => le a b ∧ le b a → a = b)
      (fun _ _ _ => rfl) (hdf.imp ?_) (hdf.imp ?_) ha hb
    · exact fun hlt hboth => absurd hboth.2 hlt.2
    · exact fun hlt hboth => absurd hboth.1 hlt.2
  refine List.Perm.eq_of_pairwise ?_ (h.sorted df) (hdf.imp fun hlt => hlt.1) (h.perm df)
  exact fun a b ha hb hab hba => hlevel a ((h.perm df).mem_iff.mp ha) b hb ⟨hab, hba⟩

theorem sortsBy_mergeSort {le : α → α → Prop} [DecidableRel le] (trans : ∀ a b c, le a b → le b c → le a c)
    (total : ∀ a b, le a b ∨ le b a) : SortsBy le fun df => df.mergeSort (le · ·) where
  perm df := List.mergeSort_perm df _
  sorted df := by
    have h : (df.mergeSort (le · ·)).Pairwise fun a b => decide (le a b) :=
      List.pairwise_mergeSort (fun a b c => by simpa using trans a b c) (fun a b => by simpa using total a b) df
    exact h.imp fun hab => by simpa using hab

/-! Steps. -/

theorem steps_cons (x y : α) (xs : List α) : steps (x :: y :: xs) = (x, y) :: steps (y :: xs) := rfl

theorem steps_map (f : α → β) (df : List α) : steps (df.map f) = (steps df).map fun s => (f s.1, f s.2) := by
  rw [steps, ← List.map_tail, List.zip_map]
  rfl

theorem constant_iff_steps (f : α → β) (df : List α) :
    (∀ x ∈ df, ∀ y ∈ df, f x = f y) ↔ ∀ s ∈ steps df, f s.1 = f s.2 := by
  constructor
  · intro h s hs
    obtain ⟨h₁, h₂⟩ := List.of_mem_zip hs
    exact h _ h₁ _ (List.mem_of_mem_tail h₂)
  · intro h
    rcases df with _ | ⟨x, xs⟩
    · exact fun _ hx => by cases hx
    · -- every row agrees with the first one
      suffices hfirst : ∀ y ∈ x :: xs, f y = f x from fun y hy z hz => (hfirst y hy).trans (hfirst z hz).symm
      induction xs generalizing x with
      | nil =>
        intro y hy
        rw [List.mem_singleton.mp hy]
      | cons x' xs ih =>
        rw [steps_cons, List.forall_mem_cons] at h
        intro y hy
        obtain rfl | hy := List.mem_cons.mp hy
        · rfl
        · exact (ih x' h.2 y hy).trans h.1.symm

/-- The rows with their differences: after the first row, the steps that lead to them. -/
theorem zip_diff [Sub β] (f : α → β) (x : α) (xs : List α) :
    (x :: xs).zip (diff ((x :: xs).map f)) =
      (x, none) :: (steps (x :: xs)).map fun s => (s.2, some (f s.2 - f s.1)) := by
  have hrows : xs = (steps (x :: xs)).map Prod.snd := (List.map_snd_zip (Nat.le_succ _)).symm
  have hdiff : diff ((x :: xs).map f) = none :: (steps (x :: xs)).map fun s => some (f s.2 - f s.1) := by
    show none :: (steps ((x :: xs).map f)).map _ = _
    rw [steps_map, List.map_map]
    rfl
  rw [hdiff, List.zip_cons_cons]
  congr 1
  calc xs.zip ((steps (x :: xs)).map fun s => some (f s.2 - f s.1))
      = ((steps (x :: xs)).map Prod.snd).zip ((steps (x :: xs)).map fun s => some (f s.2 - f s.1)) :=
        congrArg (List.zip · _) hrows
    _ = (steps (x :: xs)).map fun s => (s.2, some (f s.2 - f s.1)) := List.zip_map'

theorem length_diff [Sub α] (xs : List α) : (diff xs).length = xs.length := by
  rcases xs with _ | ⟨x, xs⟩
  · rfl
  · simp [diff, steps]

/-! Duplicates. -/

theorem dropDuplicates_nodup [DecidableEq κ] {key : α → κ} {df : List α} (h : (df.map key).Nodup) :
    dropDuplicates key df = df := by
  induction df using List.reverseRecOn with
  | nil => rfl
  | append_singleton df row ih =>
    rw [List.map_append, List.nodup_append] at h
    have hnew : key row ∉ df.map key := fun hmem => h.2.2 _ hmem _ (List.mem_singleton_self _) rfl
    rw [dropDuplicates, List.foldl_append]
    change List.foldl _ (dropDuplicates key df) [row] = _
    rw [ih h.1]
    exact if_neg hnew

end Handoff
