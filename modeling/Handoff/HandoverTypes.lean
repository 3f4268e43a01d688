import Handoff.LinkDuration
import Mathlib.Algebra.BigOperators.Group.List.Basic
import Mathlib.Tactic.FieldSimp

/- The handovers of one type, and the throughput around them (metrics.py).

   A handover is a step of the timeline of links, from the link before it to its target. `filter_ho_types` selects the
   steps between two links (`filterHoTypes_steps`), so with links 1 and 2 the four types share the handovers out
   (`handover_types_partition`), the switches being where the intervals of `filter_link_duration` begin and end. The
   averages around the handovers of the four types, weighted by their numbers, make up the average around all of them
   (`handover_averages`). -/
namespace Handoff

open Timeline

/-! The code. -/

/-- The variables of the loop of `filter_ho_types`. -/
structure TypeLoop where
  prevLink : Nat
  hoSpec : List ℚ

def typeIteration (hoTimes : List ℚ) (targetLinks : List Nat) (hoType : Nat × Nat) (s : TypeLoop) (i : Nat) :
    Py TypeLoop := do
  let targetLink ← getItem targetLinks i
  if s.prevLink = hoType.1 ∧ targetLink = hoType.2 then
    let hoTime ← getItem hoTimes i
    return ⟨targetLink, s.hoSpec ++ [hoTime]⟩
  else return ⟨targetLink, s.hoSpec⟩

/-- `filter_ho_types`. -/
def filterHoTypes (hoTimes : List ℚ) (targetLinks : List Nat) (hoType : Nat × Nat) (initialLink : Nat) :
    Py (List ℚ) := do
  if hoType.1 = 0 ∧ hoType.2 = 0 then return hoTimes
  let s ← (List.range hoTimes.length).foldlM (typeIteration hoTimes targetLinks hoType) ⟨initialLink, []⟩
  return s.hoSpec

/-- The four types of handover, by the links before and after. -/
def hoTypes : List (Nat × Nat) := [(1, 1), (1, 2), (2, 2), (2, 1)]

/-- `sum(xs) / len(xs)`; `none` is a `ZeroDivisionError`. -/
def average (xs : List ℚ) : Option ℚ := if xs.length = 0 then none else some (xs.sum / xs.length)

/-- `calculate_ho_thuput`; `none` is a `ZeroDivisionError`. -/
def calculateHoThuput (hoTimes thuputTimes thuput : List ℚ) (windowsz : ℚ) : Option (List ℚ) :=
  hoTimes.mapM fun t => average (filterTimeRange thuputTimes thuput (t - windowsz) (t + windowsz)).2

/-! The types. -/

/-- The times of the handovers from link `p.1` to link `p.2`. -/
def ofType (p : Nat × Nat) (initialLink : Nat) (hos : List (ℚ × Nat)) : List ℚ :=
  ((Timeline.steps initialLink hos).filter (·.2 = p)).map (·.1)

section Types
variable {p : Nat × Nat} {initialLink : Nat} {hos : List (ℚ × Nat)}

theorem steps_snoc (l : Nat) (hos : List (ℚ × Nat)) (ho : ℚ × Nat) :
    Timeline.steps l (hos ++ [ho]) = Timeline.steps l hos ++ [(ho.1, labelAfter l hos, ho.2)] := by
  induction hos generalizing l with
  | nil => rfl
  | cons c hos ih => rw [List.cons_append, Timeline.steps, Timeline.steps, ih, labelAfter_cons, List.cons_append]

/-- The loop after the handovers `hos`. -/
def afterTypes (p : Nat × Nat) (initialLink : Nat) (hos : List (ℚ × Nat)) : TypeLoop :=
  ⟨labelAfter initialLink hos, ofType p initialLink hos⟩

theorem type_step {hoTimes : List ℚ} {targetLinks : List Nat} {i : Nat} {ho : ℚ × Nat}
    (htime : getItem hoTimes i = .ok ho.1) (hlink : getItem targetLinks i = .ok ho.2) (hos : List (ℚ × Nat)) :
    typeIteration hoTimes targetLinks p (afterTypes p initialLink hos) i = .ok (afterTypes p initialLink (hos ++ [ho])) := by
  have hprev : (afterTypes p initialLink hos).prevLink = labelAfter initialLink hos := rfl
  have hafter : labelAfter initialLink (hos ++ [ho]) = ho.2 := by
    rw [labelAfter_append, labelAfter_cons, labelAfter_nil]
  rw [typeIteration, hlink, Py.ok_bind, hprev]
  by_cases htype : labelAfter initialLink hos = p.1 ∧ ho.2 = p.2
  · have hspec : ofType p initialLink (hos ++ [ho]) = ofType p initialLink hos ++ [ho.1] := by
      simp [ofType, steps_snoc, htype.1, htype.2]
    rw [if_pos htype, htime, Py.ok_bind, afterTypes, afterTypes, hspec, hafter]
    rfl
  · have hspec : ofType p initialLink (hos ++ [ho]) = ofType p initialLink hos := by
      have hne : ¬ (labelAfter initialLink hos, ho.2) = p := fun h => htype (Prod.ext_iff.mp h)
      rw [ofType, steps_snoc, List.filter_append, List.filter_cons_of_neg (by simpa using hne), List.filter_nil,
        List.append_nil, ofType]
    rw [if_neg htype, afterTypes, afterTypes, hspec, hafter]
    rfl

theorem type_run {n : Nat} (hn : n ≤ hos.length) :
    (List.range n).foldlM (typeIteration (hos.map (·.1)) (hos.map (·.2)) p) (afterTypes p initialLink []) =
      .ok (afterTypes p initialLink (hos.take n)) := by
  induction n with
  | zero => rfl
  | succ n ih =>
    have hget : hos[n]? = some hos[n] := List.getElem?_eq_getElem hn
    have htime : getItem (hos.map (·.1)) n = .ok hos[n].1 := getItem_ok.mpr (by rw [List.getElem?_map, hget]; rfl)
    have hlink : getItem (hos.map (·.2)) n = .ok hos[n].2 := getItem_ok.mpr (by rw [List.getElem?_map, hget]; rfl)
    rw [List.range_succ, List.foldlM_append, ih (by omega), Py.ok_bind, List.foldlM_cons,
      type_step htime hlink, List.take_succ_eq_append_getElem (by omega)]
    rfl

/-- **The handovers of a type are the steps between its links.** -/
theorem filterHoTypes_steps (hp : ¬ (p.1 = 0 ∧ p.2 = 0)) (initialLink : Nat) (hos : List (ℚ × Nat)) :
    filterHoTypes (hos.map (·.1)) (hos.map (·.2)) p initialLink = .ok (ofType p initialLink hos) := by
  have hstart : (⟨initialLink, []⟩ : TypeLoop) = afterTypes p initialLink [] := rfl
  have hrun := @type_run p initialLink hos hos.length le_rfl
  rw [List.take_length] at hrun
  rw [filterHoTypes, if_neg hp, hstart, List.length_map, hrun]
  rfl

theorem perm_classes {α κ : Type} [DecidableEq κ] (key : α → κ) {ks : List κ} (hks : ks.Nodup) {xs : List α}
    (h : ∀ x ∈ xs, key x ∈ ks) : (ks.flatMap fun k => xs.filter (key · = k)).Perm xs := by
  induction ks generalizing xs with
  | nil =>
    obtain rfl : xs = [] := List.eq_nil_iff_forall_not_mem.mpr fun x hx => by cases h x hx
    rfl
  | cons k ks ih =>
    obtain ⟨hk, hks⟩ := List.nodup_cons.mp hks
    have hothers : (ks.flatMap fun k' => xs.filter (key · = k')) =
        ks.flatMap fun k' => (xs.filter fun x => !decide (key x = k)).filter (key · = k') := by
      refine List.flatMap_congr fun k' hk' => ?_
      rw [List.filter_filter]
      refine List.filter_congr fun x _ => ?_
      by_cases hx : key x = k'
      · have hne : key x ≠ k := fun hxk => hk (hxk ▸ hx ▸ hk')
        simp [hx, hx ▸ hne]
      · simp [hx]
    rw [List.flatMap_cons, hothers]
    refine ((ih hks ?_).append_left _).trans (List.filter_append_perm _ xs)
    intro x hx
    obtain ⟨hx, hne⟩ := List.mem_filter.mp hx
    exact (List.mem_cons.mp (h x hx)).resolve_left (by simpa using hne)

theorem steps_links (h0 : initialLink = 1 ∨ initialLink = 2) (hlinks : ∀ h ∈ hos, h.2 = 1 ∨ h.2 = 2) :
    ∀ s ∈ Timeline.steps initialLink hos, s.2 ∈ hoTypes := by
  induction hos generalizing initialLink with
  | nil => exact fun s hs => by cases hs
  | cons c hos ih =>
    obtain ⟨hc, hhos⟩ := List.forall_mem_cons.mp hlinks
    intro s hs
    rw [Timeline.steps] at hs
    obtain rfl | hs := List.mem_cons.mp hs
    · rcases h0 with rfl | rfl <;> rcases hc with hc | hc <;> simp [hoTypes, hc]
    · exact ih hc hhos s hs

theorem types_perm (hlinks : ∀ h ∈ hos, h.2 = 1 ∨ h.2 = 2) :
    (hoTypes.flatMap fun p => ofType p 1 hos).Perm (hos.map (·.1)) := by
  have hclasses : (hoTypes.flatMap fun p => (Timeline.steps 1 hos).filter (·.2 = p)).Perm (Timeline.steps 1 hos) :=
    perm_classes (fun s : ℚ × Nat × Nat => s.2) (by decide) (steps_links (.inl rfl) hlinks)
  have htimes := hclasses.map fun s : ℚ × Nat × Nat => s.1
  rwa [steps_times, List.map_flatMap] at htimes

theorem switch_steps (hlinks : ∀ h ∈ hos, h.2 = 1 ∨ h.2 = 2) {a b : Nat} (hab : (a, b) = (1, 2) ∨ (a, b) = (2, 1)) :
    ofType (a, b) 1 hos = ((Timeline.steps 1 hos).filter fun s => s.2.1 ≠ s.2.2 ∧ s.2.2 = b).map (·.1) ∧
      ofType (a, b) 1 hos = ((Timeline.steps 1 hos).filter fun s => s.2.1 ≠ s.2.2 ∧ s.2.1 = a).map (·.1) := by
  have hall := steps_links (.inl rfl) hlinks
  constructor <;>
  · refine congrArg _ (List.filter_congr fun s hs => ?_)
    have := hall s hs
    simp only [hoTypes, List.mem_cons, List.not_mem_nil, or_false] at this
    rcases hab with h | h <;> cases h <;> rcases this with h | h | h | h <;> simp [h]

end Types

/-- **The four types share the handovers out.** On a trace of links 1 and 2 each handover is of exactly one type, and
    those of a type keep their order. The switches to a link are where the intervals of the link begin, but for
    the first interval, and the switches from it where they end, but for the last. -/
theorem handover_types_partition {hos : List (ℚ × Nat)} (hlinks : ∀ h ∈ hos, h.2 = 1 ∨ h.2 = 2) (timeEnd : ℚ) :
    ∃ spec : Nat × Nat → List ℚ,
      (∀ p ∈ hoTypes, filterHoTypes (hos.map (·.1)) (hos.map (·.2)) p 1 = .ok (spec p) ∧
        (spec p).Sublist (hos.map (·.1))) ∧
      (hoTypes.flatMap spec).Perm (hos.map (·.1)) ∧
      ∃ duration, filterLinkDuration (hos.map (·.1)) (hos.map (·.2)) timeEnd 1 = .ok duration ∧
        (duration 1).map (·.1) = 0 :: spec (2, 1) ∧ (duration 2).map (·.1) = spec (1, 2) ∧
        (duration 1).map (·.2) = spec (1, 2) ++ (if labelAfter 1 hos = 1 then [timeEnd] else []) ∧
        (duration 2).map (·.2) = spec (2, 1) ++ if labelAfter 1 hos = 2 then [timeEnd] else [] := by
  refine ⟨fun p => ofType p 1 hos, ?_, types_perm hlinks, _, filterLinkDuration_pieces hos timeEnd 1, ?_⟩
  · intro p hp
    refine ⟨filterHoTypes_steps ?_ 1 hos, ?_⟩
    · simp only [hoTypes, List.mem_cons, List.not_mem_nil, or_false] at hp
      rcases hp with rfl | rfl | rfl | rfl <;> decide
    · rw [← steps_times 1 hos]
      exact List.filter_sublist.map _
  · obtain ⟨hto₂, hfrom₁⟩ := switch_steps hlinks (.inl rfl)
    obtain ⟨hto₁, hfrom₂⟩ := switch_steps hlinks (.inr rfl)
    have hfirst : ∀ link, (intervalsOf (pieces 1 0 (changes 1 hos) timeEnd) link).map (·.1) = _ :=
      fun link => (List.map_map).trans (pieces_first link 1 (0 : ℚ) hos timeEnd)
    have hlast : ∀ link, (intervalsOf (pieces 1 0 (changes 1 hos) timeEnd) link).map (·.2) = _ :=
      fun link => (List.map_map).trans (pieces_end link 1 (0 : ℚ) hos timeEnd)
    rw [hfirst, hfirst, hlast, hlast, ← hto₁, ← hto₂, ← hfrom₁, ← hfrom₂]
    exact ⟨rfl, rfl, rfl, rfl⟩

/-- A switch each way and a handover within link 1, in a run of four seconds. -/
theorem handover_types_partition_three :
    ∃ spec : Nat × Nat → List ℚ,
      (∀ p ∈ hoTypes, filterHoTypes [1, 2, 3] [2, 1, 1] p 1 = .ok (spec p) ∧ (spec p).Sublist [1, 2, 3]) ∧
      (hoTypes.flatMap spec).Perm [1, 2, 3] ∧
      ∃ duration, filterLinkDuration [1, 2, 3] [2, 1, 1] 4 1 = .ok duration ∧
        (duration 1).map (·.1) = [0, 2] ∧ (duration 2).map (·.1) = [1] ∧
        (duration 1).map (·.2) = [1, 4] ∧ (duration 2).map (·.2) = [2] := by
  obtain ⟨spec, hspec, hperm, duration, hduration, hto₁, hto₂, hfrom₁, hfrom₂⟩ :=
    @handover_types_partition [(1, 2), (2, 1), (3, 1)] (by decide) 4
  have hvalue : ∀ p xs, p ∈ hoTypes → filterHoTypes [1, 2, 3] [2, 1, 1] p 1 = .ok xs → spec p = xs :=
    fun p xs hp h => Except.ok.inj ((hspec p hp).1.symm.trans h)
  rw [hvalue (2, 1) [2] (by decide) (by decide +kernel)] at hto₁ hfrom₂
  rw [hvalue (1, 2) [1] (by decide) (by decide +kernel)] at hto₂ hfrom₁
  exact ⟨spec, hspec, hperm, duration, hduration, hto₁, hto₂, hfrom₁, hfrom₂⟩

/-! The averages. -/

section Averages
variable {α β κ : Type} {f : α → Option β}

theorem mapM_eq_some {xs : List α} {ys : List β} :
    xs.mapM f = some ys ↔ List.Forall₂ (fun x y => f x = some y) xs ys := by
  induction xs generalizing ys with
  | nil =>
    rw [List.mapM_nil, List.forall₂_nil_left_iff]
    exact ⟨fun h => (Option.some.inj h).symm, fun h => h ▸ rfl⟩
  | cons x xs ih =>
    rw [List.mapM_cons, List.forall₂_cons_left_iff]
    simp only [Option.bind_eq_bind, Option.bind_eq_some_iff, ih, Option.pure_def, Option.some.injEq]
    constructor
    · rintro ⟨y, hy, ys', hys', rfl⟩
      exact ⟨y, ys', hy, hys', rfl⟩
    · rintro ⟨y, ys', hy, hys', rfl⟩
      exact ⟨y, hy, ys', hys', rfl⟩

theorem forall₂_defined {α β : Type} {R : α → β → Prop} {xs : List α} :
    (∃ ys, List.Forall₂ R xs ys) ↔ ∀ x ∈ xs, ∃ y, R x y := by
  constructor
  · rintro ⟨ys, hys⟩ x hx
    obtain ⟨i, hi, rfl⟩ := List.mem_iff_getElem.mp hx
    exact ⟨ys.get ⟨i, hys.length_eq ▸ hi⟩, hys.get hi (hys.length_eq ▸ hi)⟩
  · intro h
    induction xs with
    | nil => exact ⟨[], .nil⟩
    | cons x xs ih =>
      obtain ⟨hx, hxs⟩ := List.forall_mem_cons.mp h
      obtain ⟨y, hy⟩ := hx
      obtain ⟨ys, hys⟩ := ih hxs
      exact ⟨y :: ys, .cons hy hys⟩

theorem mapM_defined {xs : List α} : (∃ ys, xs.mapM f = some ys) ↔ ∀ x ∈ xs, ∃ y, f x = some y := by
  simp only [mapM_eq_some, forall₂_defined]

theorem mapM_perm {xs xs' : List α} (hperm : xs.Perm xs') {ys' : List β} (hys' : xs'.mapM f = some ys') :
    ∃ ys, xs.mapM f = some ys ∧ ys.Perm ys' := by
  obtain ⟨ys, hys, hperm⟩ := List.perm_comp_forall₂ hperm (mapM_eq_some.mp hys')
  exact ⟨ys, mapM_eq_some.mpr hys, hperm⟩

theorem mapM_flatMap {ks : List κ} {xs : κ → List α} {ys : κ → List β} (h : ∀ k ∈ ks, (xs k).mapM f = some (ys k)) :
    (ks.flatMap xs).mapM f = some (ks.flatMap ys) := by
  induction ks with
  | nil => rfl
  | cons k ks ih =>
    obtain ⟨hk, hks⟩ := List.forall_mem_cons.mp h
    rw [List.flatMap_cons, List.mapM_append, hk, ih hks]
    rfl

end Averages

theorem average_eq_some {xs : List ℚ} {a : ℚ} : average xs = some a ↔ xs ≠ [] ∧ xs.sum = a * xs.length := by
  rcases xs with _ | ⟨x, xs⟩
  · simp [average]
  · have hpos : ((x :: xs).length : ℚ) ≠ 0 := by rw [List.length_cons]; positivity
    rw [average, if_neg (by simp), Option.some.injEq, div_eq_iff hpos]
    simp

/-- **The average around all handovers is that of the types, weighted by their numbers.** The throughputs around the
    handovers of the trace are defined when those of the four types are, and when each type occurs, the sum of the
    averages of the types times their numbers, divided by the number of all handovers, is the average around all. -/
theorem handover_averages {hos : List (ℚ × Nat)} (hlinks : ∀ h ∈ hos, h.2 = 1 ∨ h.2 = 2) (thuputTimes thuput : List ℚ)
    (windowsz : ℚ) {spec : Nat × Nat → List ℚ}
    (hspec : ∀ p ∈ (0, 0) :: hoTypes, filterHoTypes (hos.map (·.1)) (hos.map (·.2)) p 1 = .ok (spec p)) :
    ((∃ hoThuputs, calculateHoThuput (spec (0, 0)) thuputTimes thuput windowsz = some hoThuputs) ↔
      ∀ p ∈ hoTypes, ∃ hoThuputs, calculateHoThuput (spec p) thuputTimes thuput windowsz = some hoThuputs) ∧
    ∀ (hoThuputs : Nat × Nat → List ℚ) (avg : Nat × Nat → ℚ),
      (∀ p ∈ (0, 0) :: hoTypes, calculateHoThuput (spec p) thuputTimes thuput windowsz = some (hoThuputs p) ∧
        average (hoThuputs p) = some (avg p)) →
      avg (0, 0) = (hoTypes.map fun p => avg p * (hoThuputs p).length).sum / (hoThuputs (0, 0)).length := by
  obtain ⟨hall, htypes⟩ := List.forall_mem_cons.mp hspec
  have hperm : (spec (0, 0)).Perm (hoTypes.flatMap spec) := by
    have hof : ∀ p ∈ hoTypes, spec p = ofType p 1 hos := by
      intro p hp
      have hne : ¬ (p.1 = 0 ∧ p.2 = 0) := by
        simp only [hoTypes, List.mem_cons, List.not_mem_nil, or_false] at hp
        rcases hp with rfl | rfl | rfl | rfl <;> decide
      exact Except.ok.inj ((htypes p hp).symm.trans (filterHoTypes_steps hne 1 hos))
    rw [← Except.ok.inj hall, List.flatMap_congr hof]
    exact (types_perm hlinks).symm
  constructor
  · simp only [calculateHoThuput, mapM_defined, hperm.mem_iff, List.mem_flatMap]
    exact ⟨fun h p hp t ht => h t ⟨p, hp, ht⟩, fun h t ⟨p, hp, ht⟩ => h p hp t ht⟩
  · intro hoThuputs avg hdefined
    obtain ⟨⟨hthuputs, havg⟩, htypes⟩ := List.forall_mem_cons.mp hdefined
    obtain ⟨ys, hys, hperm⟩ := mapM_perm hperm (mapM_flatMap fun p hp => (htypes p hp).1)
    obtain rfl := Option.some.inj (hthuputs.symm.trans hys)
    have hsums : ∀ p ∈ hoTypes, avg p * (hoThuputs p).length = (hoThuputs p).sum :=
      fun p hp => ((average_eq_some.mp (htypes p hp).2).2).symm
    obtain ⟨hne, hsum⟩ := average_eq_some.mp havg
    have hpos : ((hoThuputs (0, 0)).length : ℚ) ≠ 0 := by
      rwa [Nat.cast_ne_zero, Ne, List.length_eq_zero_iff]
    rw [eq_div_iff hpos, ← hsum, hperm.sum_eq, List.map_congr_left hsums]
    simp [hoTypes]

/-- One handover of each type. -/
theorem handover_averages_four :
    ∃ (hoThuputs : Nat × Nat → List ℚ) (avg : Nat × Nat → ℚ), hoThuputs (0, 0) = [10, 20, 30, 40] ∧
      avg (0, 0) = (hoTypes.map fun p => avg p * (hoThuputs p).length).sum / (hoThuputs (0, 0)).length := by
  let spec : Nat × Nat → List ℚ := fun p =>
    if p = (0, 0) then [1, 2, 3, 4] else if p = (1, 1) then [1] else if p = (1, 2) then [2]
    else if p = (2, 2) then [3] else [4]
  let hoThuputs : Nat × Nat → List ℚ := fun p => (spec p).map (10 * ·)
  let avg : Nat × Nat → ℚ := fun p => if p = (0, 0) then 25 else (hoThuputs p).sum
  have h := @handover_averages [(1, 1), (2, 2), (3, 2), (4, 1)] (by decide) [1, 2, 3, 4] [10, 20, 30, 40] (1 / 2) spec
    (by decide +kernel)
  exact ⟨hoThuputs, avg, by decide +kernel, h.2 hoThuputs avg (by decide +kernel)⟩

end Handoff
