import Mathlib.Data.List.Sort

/- Stable sorting by a key.

   `StablySorted key xs ys` says that `ys` is `xs` sorted by `key`, elements of one key in the order
   they had. There is one such list (`StablySorted.unique`) and a stable algorithm gives it
   (`stablySorted_mergeSort`). An unstable one gives it too if the comparison breaks ties by a
   number that grows along `xs` (`stablySorted_of_tieBreak`). -/
namespace StableSort

variable {α κ ν : Type*} [LinearOrder κ] {key : α → κ} {xs ys zs : List α}

/-- `ys` is `xs` stably sorted by `key`. -/
structure StablySorted (key : α → κ) (xs ys : List α) : Prop where
  perm : ys.Perm xs
  sorted : ys.Pairwise fun a b => key a ≤ key b
  stable : ∀ k, ys.filter (key · = k) = xs.filter (key · = k)

/-- Two lists sorted by a key that have the same elements of each key, in the same order, are the same. -/
theorem eq_of_filter_eq (hy : ys.Pairwise fun a b => key a ≤ key b) (hz : zs.Pairwise fun a b => key a ≤ key b)
    (h : ∀ k, ys.filter (key · = k) = zs.filter (key · = k)) : ys = zs := by
  have hmem : ∀ {ys zs : List α}, (∀ k, ys.filter (key · = k) = zs.filter (key · = k)) → ∀ a ∈ ys, a ∈ zs := by
    intro ys zs h a ha
    have ha' : a ∈ ys.filter (key · = key a) := List.mem_filter.mpr ⟨ha, by simp⟩
    rw [h] at ha'
    exact (List.mem_filter.mp ha').1
  induction ys generalizing zs with
  | nil =>
    rcases zs with _ | ⟨b, zs⟩
    · rfl
    · cases hmem (fun k => (h k).symm) b List.mem_cons_self
  | cons a ys ih =>
    rcases zs with _ | ⟨b, zs⟩
    · cases hmem h a List.mem_cons_self
    · obtain ⟨hya, hys⟩ := List.pairwise_cons.mp hy
      obtain ⟨hzb, hzs⟩ := List.pairwise_cons.mp hz
      -- both heads have the least key
      have hle : ∀ {a b : α} {zs : List α}, (∀ c ∈ zs, key b ≤ key c) → a ∈ b :: zs → key b ≤ key a := by
        intro a b zs hzb ha
        obtain rfl | ha := List.mem_cons.mp ha
        · exact le_refl _
        · exact hzb a ha
      have hab : key a = key b :=
        le_antisymm (hle hya (hmem (fun k => (h k).symm) b List.mem_cons_self))
          (hle hzb (hmem h a List.mem_cons_self))
      have hhead := h (key a)
      simp only [List.filter_cons, decide_true, if_true, hab, List.cons.injEq] at hhead
      obtain ⟨rfl, -⟩ := hhead
      refine congrArg _ (ih hys hzs fun k => ?_)
      have hk := h k
      simp only [List.filter_cons] at hk
      split at hk
      · exact (List.cons.inj hk).2
      · exact hk

theorem StablySorted.unique (hy : StablySorted key xs ys) (hz : StablySorted key xs zs) : ys = zs :=
  eq_of_filter_eq hy.sorted hz.sorted fun k => (hy.stable k).trans (hz.stable k).symm

/-- Two lists have the same stable sort exactly if they have the same elements of each key, in the same order. -/
theorem StablySorted.eq_iff {xs' : List α} (hy : StablySorted key xs ys) (hz : StablySorted key xs' zs) :
    ys = zs ↔ ∀ k, xs.filter (key · = k) = xs'.filter (key · = k) := by
  constructor
  · rintro rfl k
    rw [← hy.stable, hz.stable]
  · exact fun h => eq_of_filter_eq hy.sorted hz.sorted fun k => by rw [hy.stable, h, hz.stable]

theorem StablySorted.filter (h : StablySorted key xs ys) (p : α → Bool) :
    StablySorted key (xs.filter p) (ys.filter p) where
  perm := h.perm.filter p
  sorted := h.sorted.sublist List.filter_sublist
  stable k := by rw [List.filter_comm, h.stable, List.filter_comm]

theorem StablySorted.map {β : Type*} (key' : β → κ) (f : α → β) (h : StablySorted key xs ys)
    (hf : ∀ a, key' (f a) = key a) : StablySorted key' (xs.map f) (ys.map f) where
  perm := h.perm.map f
  sorted := List.pairwise_map.mpr (by simpa only [hf] using h.sorted)
  stable k := by
    have hcomp : (fun b => decide (key' b = k)) ∘ f = fun a => decide (key a = k) := by
      funext a
      simp [hf]
    rw [List.filter_map, List.filter_map, hcomp, h.stable]

theorem StablySorted.le_getLast (h : StablySorted key xs ys) {last : α} (hlast : ys.getLast? = some last) :
    ∀ x ∈ xs, key x ≤ key last := by
  obtain ⟨init, rfl⟩ := List.getLast?_eq_some_iff.mp hlast
  intro x hx
  obtain hx | hx := List.mem_append.mp (h.perm.mem_iff.mpr hx)
  · exact (List.pairwise_append.mp h.sorted).2.2 x hx last (by simp)
  · rw [List.mem_singleton.mp hx]

theorem StablySorted.getLast?_eq (h : StablySorted key xs ys) {k : κ} (hle : ∀ x ∈ xs, key x ≤ k)
    (hk : ∃ x ∈ xs, key x = k) : ys.getLast? = (xs.filter (key · = k)).getLast? := by
  obtain ⟨x, hx, rfl⟩ := hk
  obtain ⟨last, hlast⟩ : ∃ last, ys.getLast? = some last := by
    rcases hys : ys.getLast? with _ | last
    · rw [List.getLast?_eq_none_iff] at hys
      subst hys
      cases h.perm.mem_iff.mpr hx
    · exact ⟨last, rfl⟩
  have hkey : key last = key x :=
    le_antisymm (hle last (h.perm.mem_iff.mp (List.mem_of_getLast? hlast))) (h.le_getLast hlast x hx)
  obtain ⟨init, rfl⟩ := List.getLast?_eq_some_iff.mp hlast
  rw [← h.stable, List.filter_append, hlast]
  simp [hkey]

theorem stablySorted_mergeSort (key : α → κ) (xs : List α) :
    StablySorted key xs (xs.mergeSort fun a b => key a ≤ key b) := by
  have htrans : ∀ a b c : α, decide (key a ≤ key b) = true → decide (key b ≤ key c) = true →
      decide (key a ≤ key c) = true := by
    intro a b c hab hbc
    simp only [decide_eq_true_eq] at hab hbc ⊢
    exact hab.trans hbc
  have htotal : ∀ a b : α, (decide (key a ≤ key b) || decide (key b ≤ key a)) = true := by
    intro a b
    simpa using le_total (key a) (key b)
  refine ⟨List.mergeSort_perm _ _, ?_, ?_⟩
  · exact (List.pairwise_mergeSort htrans htotal xs).imp fun hab => of_decide_eq_true hab
  · intro k
    have hone : (xs.filter (key · = k)).Pairwise fun a b => decide (key a ≤ key b) = true := by
      refine List.pairwise_of_forall_mem_list fun a ha b hb => ?_
      have hka := of_decide_eq_true (List.mem_filter.mp ha).2
      have hkb := of_decide_eq_true (List.mem_filter.mp hb).2
      rw [hka, hkb]
      exact decide_eq_true (le_refl k)
    have hsub := List.sublist_mergeSort htrans htotal hone List.filter_sublist
    have hsub' := hsub.filter (key · = k)
    rw [List.filter_filter] at hsub'
    simp only [Bool.and_self] at hsub'
    exact (hsub'.eq_of_length ((List.mergeSort_perm xs _).symm.filter _).length_eq).symm

/-- **A tie-break makes sorting stable.** Whatever permutation of `xs` is in order, if ties of the key are broken by
    a number that grows along `xs`. -/
theorem stablySorted_of_tieBreak [LinearOrder ν] {pos : α → ν} (hpos : xs.Pairwise fun a b => pos a < pos b)
    (hperm : ys.Perm xs) (hsort : ys.Pairwise fun a b => key a < key b ∨ key a = key b ∧ pos a ≤ pos b) :
    StablySorted key xs ys := by
  refine ⟨hperm, hsort.imp fun h => h.elim le_of_lt fun h => h.1.le, fun k => ?_⟩
  have hy : (ys.filter (key · = k)).Pairwise fun a b => pos a ≤ pos b := by
    refine (hsort.sublist List.filter_sublist).imp_of_mem fun ha hb hab => ?_
    have hka := of_decide_eq_true (List.mem_filter.mp ha).2
    have hkb := of_decide_eq_true (List.mem_filter.mp hb).2
    exact (hab.resolve_left (by rw [hka, hkb]; exact lt_irrefl k)).2
  have hx : (xs.filter (key · = k)).Pairwise fun a b => pos a ≤ pos b := (hpos.sublist List.filter_sublist).imp le_of_lt
  have hnodup : (xs.map pos).Nodup := List.pairwise_map.mpr (hpos.imp ne_of_lt)
  refine (hperm.filter _).eq_of_pairwise ?_ hy hx
  intro a b ha hb hab hba
  exact List.inj_on_of_nodup_map hnodup (hperm.subset (List.mem_filter.mp ha).1) (List.mem_filter.mp hb).1
    (le_antisymm hab hba)

end StableSort
