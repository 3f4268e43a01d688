import Handoff.Python
import Mathlib.Tactic.IntervalCases
import Mathlib.Tactic.NormNum

/- The ramp-up times of metrics.py: how long after a handover the throughput is stable again.

   `calculate_rampup_time` searches from the sample closest to the handover. Its loop is written twice, and the copy for
   the last handover measures from the sample after the closest one. `RampsUp` is what one search finds, with the
   sample it measures from as a parameter (`rampup_recorded`). -/
namespace Handoff

/-! The code. -/

/-- One round of `find_closest_indices`. -/
def closestIndex (listB : List ℚ) (value : ℚ) : Py Nat := do
  let differences := listB.map fun b => |value - b|
  index differences (← minOf differences)

/-- `find_closest_indices`. -/
def findClosestIndices (listA listB : List ℚ) : Py (List Nat) := listA.mapM (closestIndex listB)

section Search
variable (thuputTimes thuputs : List ℚ) (stableThuput thresh : ℚ)

/-- The loop of `calculate_rampup_time`: `rampup_t` if it is left by `break`. -/
def rampupLoop (startT : ℚ) (i : Nat) (rampupT : ℚ) : Py (Option ℚ) :=
  if i < thuputTimes.length ∧ rampupT < thresh then do
    let rampupT := (← getItem thuputTimes i) - startT
    if (← getItem thuputs i) ≥ stableThuput then return some rampupT
    else rampupLoop startT (i + 1) rampupT
  else return none
termination_by thuputTimes.length - i

/-- The value recorded for a search. -/
def rampup (startT : ℚ) (i : Nat) : Py ℚ := do
  match ← rampupLoop thuputTimes thuputs stableThuput thresh startT i 0 with
  | some rampupT => return rampupT
  | none => return -1

/-- The two copies of the search: for all handovers but the last one, and for the last one. -/
def rampupSearches (rampStartIndices : List Nat) : Py (List ℚ) := do
  let rampupTimes ← (List.range (rampStartIndices.length - 1)).mapM fun idx : Nat => do
    let i ← getItem rampStartIndices idx
    rampup thuputTimes thuputs stableThuput thresh (← getItem thuputTimes i) i
  let i ← getItem rampStartIndices (-1)
  let last ← rampup thuputTimes thuputs stableThuput thresh (← getItem thuputTimes (i + 1)) i
  return rampupTimes ++ [last]

/-- `rampup_times` of `calculate_rampup_time`, before its negative and zero entries are replaced. -/
def rampupTimes (hoTimes : List ℚ) : Py (List ℚ) := do
  rampupSearches thuputTimes thuputs stableThuput thresh (← findClosestIndices hoTimes thuputTimes)

/-- The variables of the loop that replaces them. -/
structure ReplaceLoop where
  rampupTimes : List ℚ
  cntUndone : Nat
  cntStartFull : Nat

/-- The entry `t` in turn; `random k` is what the call number `k` of `random.random` returns. -/
def replaceIteration (random : Nat → ℚ) (maxRampT : ℚ) (s : ReplaceLoop) (t : ℚ) : ReplaceLoop :=
  if t < 0 then { s with rampupTimes := s.rampupTimes ++ [maxRampT], cntUndone := s.cntUndone + 1 }
  else if t = 0 then
    { s with
      rampupTimes := s.rampupTimes ++ [t + (random s.cntStartFull + 1 / 2)]
      cntStartFull := s.cntStartFull + 1 }
  else { s with rampupTimes := s.rampupTimes ++ [t] }

/-- `calculate_rampup_time`. -/
def calculateRampupTime (random : Nat → ℚ) (hoTimes : List ℚ) : Py (Output (List ℚ)) := do
  let rampupTimes ← rampupTimes thuputTimes thuputs stableThuput thresh hoTimes
  let maxRampT ← maxOf rampupTimes
  let s := rampupTimes.foldl (replaceIteration random (if maxRampT < 0 then thresh else maxRampT)) ⟨[], 0, 0⟩
  let warning := "Warning: no successful ramp up during threshold time! Using maximum threshold value..."
  return ⟨s.rampupTimes,
    [toString hoTimes.length ++ " handovers in total"] ++ (if maxRampT < 0 then [warning] else []) ++
      [toString s.cntUndone ++ " HOs didn't finished rampup", toString s.cntStartFull ++ " start with full bw"]⟩

end Search

/-! The closest sample. -/

/-- Sample `i` is the first of those closest to the time `h`. -/
structure Closest (times : List ℚ) (h : ℚ) (i : Nat) : Prop where
  lt : i < times.length
  least : ∀ k < times.length, |h - times.getD i 0| ≤ |h - times.getD k 0|
  first : ∀ k < i, |h - times.getD i 0| < |h - times.getD k 0|

theorem Closest.unique {times : List ℚ} {h : ℚ} {i j : Nat} (hi : Closest times h i) (hj : Closest times h j) : i = j := by
  obtain hlt | heq | hgt := Nat.lt_trichotomy i j
  · exact absurd (hj.first i hlt) (hi.least j hj.lt).not_gt
  · exact heq
  · exact absurd (hi.first j hgt) (hj.least i hi.lt).not_gt

theorem getElem_differences {times : List ℚ} {h : ℚ} {k : Nat} (hk : k < (times.map fun b => |h - b|).length) :
    (times.map fun b => |h - b|)[k] = |h - times.getD k 0| := by
  rw [List.length_map] at hk
  rw [List.getElem_map, List.getD_eq_getElem _ _ hk]

theorem closest_of_index {times : List ℚ} {h : ℚ} {i : Nat} (hi : closestIndex times h = .ok i) : Closest times h i := by
  obtain ⟨m, hmin, hindex⟩ := Py.bind_eq_ok.mp hi
  obtain ⟨hlt, rfl, hfirst⟩ := index_eq_ok.mp hindex
  have hle : ∀ k < times.length, |h - times.getD i 0| ≤ |h - times.getD k 0| := by
    intro k hk
    have hk' : k < (times.map fun b => |h - b|).length := by rwa [List.length_map]
    rw [← getElem_differences hlt, ← getElem_differences hk']
    exact (minOf_eq_ok.mp hmin).2 _ (List.getElem_mem hk')
  have hi : i < times.length := by rwa [List.length_map] at hlt
  refine ⟨hi, hle, fun k hk => lt_of_le_of_ne (hle k (hk.trans hi)) fun heq => hfirst k hk ?_⟩
  rw [getElem_differences, getElem_differences, heq]

/-- **`find_closest_indices` finds the closest samples.** -/
theorem closestIndex_ok {times : List ℚ} {h : ℚ} {i : Nat} : closestIndex times h = .ok i ↔ Closest times h i := by
  refine ⟨closest_of_index, fun hc => ?_⟩
  have hlen : (times.map fun b => |h - b|).length = times.length := List.length_map _
  have hlt : i < (times.map fun b => |h - b|).length := hlen ▸ hc.lt
  have hmin : minOf (times.map fun b => |h - b|) = .ok (times.map fun b => |h - b|)[i] := by
    refine minOf_eq_ok.mpr ⟨List.getElem_mem hlt, fun x hx => ?_⟩
    obtain ⟨k, hk, rfl⟩ := List.mem_iff_getElem.mp hx
    rw [getElem_differences, getElem_differences]
    exact hc.least k (hlen ▸ hk)
  refine Py.bind_eq_ok.mpr ⟨_, hmin, index_eq_ok.mpr ⟨hlt, rfl, fun k hk => ?_⟩⟩
  rw [getElem_differences, getElem_differences]
  exact (hc.first k hk).ne'

theorem closest_exists {times : List ℚ} (h : ℚ) (hne : times ≠ []) : ∃ i, Closest times h i := by
  obtain ⟨m, hmin⟩ := minOf_defined (List.map_eq_nil_iff.not.mpr hne : (times.map fun b => |h - b|) ≠ [])
  have hmem := (List.isSome_idxOf? (l := times.map fun b => |h - b|)).mpr (minOf_eq_ok.mp hmin).1
  obtain ⟨i, hi⟩ := Option.isSome_iff_exists.mp hmem
  exact ⟨i, closestIndex_ok.mp (Py.bind_eq_ok.mpr ⟨m, hmin, by rw [index, hi]; rfl⟩)⟩

/-! One search. -/

section Search
variable {thuputTimes thuputs : List ℚ} {stableThuput thresh startT : ℚ} {i j : Nat}

/-- Sample `j` is the first from `i` on with a stable throughput, and the search gets to it: every sample before it is
    less than `thresh` after `startT`. -/
structure RampsUp (thuputTimes thuputs : List ℚ) (stableThuput thresh startT : ℚ) (i j : Nat) : Prop where
  le : i ≤ j
  lt : j < thuputTimes.length
  stable : stableThuput ≤ thuputs.getD j 0
  before : ∀ k, i ≤ k → k < j → thuputs.getD k 0 < stableThuput ∧ thuputTimes.getD k 0 - startT < thresh

/-- It does not depend on where the time is measured from, if it is found. -/
theorem RampsUp.unique {j' : Nat} {startT' : ℚ} (h : RampsUp thuputTimes thuputs stableThuput thresh startT i j)
    (h' : RampsUp thuputTimes thuputs stableThuput thresh startT' i j') : j = j' := by
  obtain hlt | heq | hgt := Nat.lt_trichotomy j j'
  · exact absurd h.stable (h'.before j h.le hlt).1.not_ge
  · exact heq
  · exact absurd h'.stable (h.before j' h'.le hgt).1.not_ge

theorem rampsUp_cases (hi : i < thuputTimes.length) :
    RampsUp thuputTimes thuputs stableThuput thresh startT i j ↔
      if stableThuput ≤ thuputs.getD i 0 then j = i
      else thuputTimes.getD i 0 - startT < thresh ∧
        RampsUp thuputTimes thuputs stableThuput thresh startT (i + 1) j := by
  split
  · next hstable =>
    constructor
    · intro h
      by_contra hne
      exact absurd hstable (h.before i (Nat.le_refl i) (Nat.lt_of_le_of_ne h.le (Ne.symm hne))).1.not_ge
    · intro heq
      obtain rfl := heq
      exact ⟨Nat.le_refl _, hi, hstable, fun k hk hkj => absurd hk (Nat.not_le.mpr hkj)⟩
  · next hstable =>
    constructor
    · intro h
      have hne : i ≠ j := by
        intro heq
        obtain rfl := heq
        exact hstable h.stable
      have hlt : i < j := Nat.lt_of_le_of_ne h.le hne
      exact ⟨(h.before i (Nat.le_refl i) hlt).2, hlt, h.lt, h.stable, fun k hk => h.before k (Nat.le_of_succ_le hk)⟩
    · intro ⟨hthresh, h⟩
      refine ⟨Nat.le_of_succ_le h.le, h.lt, h.stable, fun k hk hkj => ?_⟩
      obtain rfl | hk := Nat.eq_or_lt_of_le hk
      · exact ⟨not_le.mp hstable, hthresh⟩
      · exact h.before k hk hkj

/-- **The loop finds the sample**, in lists of the same length, and runs past neither. -/
theorem rampupLoop_eq (stableThuput thresh startT : ℚ) (i : Nat) (hlen : thuputs.length = thuputTimes.length)
    (rampupT : ℚ) :
    ∃ found, rampupLoop thuputTimes thuputs stableThuput thresh startT i rampupT = .ok found ∧
      ∀ t, found = some t ↔ rampupT < thresh ∧
        ∃ j, RampsUp thuputTimes thuputs stableThuput thresh startT i j ∧ t = thuputTimes.getD j 0 - startT := by
  -- on the samples that are left
  induction hn : thuputTimes.length - i generalizing i rampupT with
  | zero =>
    rw [rampupLoop, if_neg fun h => absurd h.1 (by omega)]
    refine ⟨none, rfl, fun t => ⟨nofun, fun ⟨_, j, hj, _⟩ => ?_⟩⟩
    have hle := hj.le
    have hlt := hj.lt
    omega
  | succ n ih =>
    have hi : i < thuputTimes.length := by omega
    by_cases hr : rampupT < thresh
    · rw [rampupLoop, if_pos ⟨hi, hr⟩, getItem_getD hi 0, Py.ok_bind, getItem_getD (hlen ▸ hi) 0, Py.ok_bind]
      simp only [rampsUp_cases hi, ge_iff_le, hr, true_and]
      split
      · refine ⟨_, rfl, fun t => ?_⟩
        rw [exists_eq_left, Option.some.injEq, eq_comm]
      · obtain ⟨found, hloop, hfound⟩ := ih (i := i + 1) (thuputTimes.getD i 0 - startT) (by omega)
        refine ⟨found, hloop, fun t => (hfound t).trans ?_⟩
        constructor
        · exact fun ⟨hthresh, j, hj, ht⟩ => ⟨j, ⟨hthresh, hj⟩, ht⟩
        · exact fun ⟨j, ⟨hthresh, hj⟩, ht⟩ => ⟨hthresh, j, hj, ht⟩
    · rw [rampupLoop, if_neg fun h => hr h.2]
      exact ⟨none, rfl, fun t => ⟨nofun, fun h => absurd h.1 hr⟩⟩

/-- The value of a search from sample `i`, measured from `startT`: the time to the sample it finds, or -1. -/
def RampupFrom (thuputTimes thuputs : List ℚ) (stableThuput thresh startT : ℚ) (i : Nat) (v : ℚ) : Prop :=
  (∃ j, RampsUp thuputTimes thuputs stableThuput thresh startT i j ∧ v = thuputTimes.getD j 0 - startT) ∨
    (¬ ∃ j, RampsUp thuputTimes thuputs stableThuput thresh startT i j) ∧ v = -1

theorem rampup_defined (stableThuput : ℚ) (hlen : thuputs.length = thuputTimes.length) (hthresh : 0 < thresh)
    (startT : ℚ) (i : Nat) :
    ∃ v, rampup thuputTimes thuputs stableThuput thresh startT i = .ok v ∧
      RampupFrom thuputTimes thuputs stableThuput thresh startT i v := by
  obtain ⟨found, hloop, hfound⟩ := rampupLoop_eq stableThuput thresh startT i hlen 0
  rw [rampup, hloop, Py.ok_bind]
  rcases found with _ | t
  · refine ⟨-1, rfl, .inr ⟨fun ⟨j, hj⟩ => ?_, rfl⟩⟩
    cases (hfound (thuputTimes.getD j 0 - startT)).mpr ⟨hthresh, j, hj, rfl⟩
  · exact ⟨t, rfl, .inl ((hfound t).mp rfl).2⟩

theorem RampupFrom.unique {v v' : ℚ} (h : RampupFrom thuputTimes thuputs stableThuput thresh startT i v)
    (h' : RampupFrom thuputTimes thuputs stableThuput thresh startT i v') : v = v' := by
  obtain ⟨j, hj, rfl⟩ | ⟨hnone, rfl⟩ := h <;> obtain ⟨j', hj', rfl⟩ | ⟨hnone', rfl⟩ := h'
  · rw [hj.unique hj']
  · exact absurd ⟨j, hj⟩ hnone'
  · exact absurd ⟨j', hj'⟩ hnone
  · rfl

theorem rampup_ok (hlen : thuputs.length = thuputTimes.length) (hthresh : 0 < thresh) {v : ℚ} :
    rampup thuputTimes thuputs stableThuput thresh startT i = .ok v ↔
      RampupFrom thuputTimes thuputs stableThuput thresh startT i v := by
  obtain ⟨w, hw, hfrom⟩ := rampup_defined stableThuput hlen hthresh startT i
  rw [hw, Except.ok.injEq]
  constructor
  · intro h
    obtain rfl := h
    exact hfrom
  · exact hfrom.unique

/-! All handovers. -/

theorem firstLoop_eq {β : Type} (is : List Nat) (f : Nat → Py β) {n : Nat} (hn : n ≤ is.length) :
    (List.range n).mapM (fun idx : Nat => do f (← getItem is idx)) = (is.take n).mapM f := by
  induction n with
  | zero => rfl
  | succ n ih =>
    have hget : getItem is n = .ok is[n] := getItem_ok.mpr (List.getElem?_eq_getElem hn)
    rw [List.range_succ, List.take_succ_eq_append_getElem (by omega), List.mapM_append, List.mapM_append, ih (by omega)]
    simp only [List.mapM_cons, List.mapM_nil, hget, Py.ok_bind]

theorem findClosestIndices_snoc {hos : List ℚ} {h : ℚ} {is : List Nat} :
    findClosestIndices (hos ++ [h]) thuputTimes = .ok is ↔
      ∃ js i, List.Forall₂ (Closest thuputTimes) hos js ∧ Closest thuputTimes h i ∧ is = js ++ [i] := by
  simp only [findClosestIndices, List.mapM_append, List.mapM_cons, List.mapM_nil, Py.bind_eq_ok, Py.pure_eq_ok,
    Py.mapM_eq_ok, closestIndex_ok, Except.ok.injEq]
  constructor
  · intro hok
    obtain ⟨js, hjs, -, ⟨i, hi, -, rfl, rfl⟩, rfl⟩ := hok
    exact ⟨js, i, hjs, hi, rfl⟩
  · intro hok
    obtain ⟨js, i, hjs, hi, rfl⟩ := hok
    exact ⟨js, hjs, _, ⟨i, hi, _, rfl, rfl⟩, rfl⟩

theorem rampup_at (hlen : thuputs.length = thuputTimes.length) (hthresh : 0 < thresh) (i k : Nat) {v : ℚ} :
    (do rampup thuputTimes thuputs stableThuput thresh (← getItem thuputTimes k) i) = .ok v ↔
      k < thuputTimes.length ∧ RampupFrom thuputTimes thuputs stableThuput thresh (thuputTimes.getD k 0) i v := by
  simp only [Py.bind_eq_ok, getItem_eq_getD (0 : ℚ), rampup_ok hlen hthresh]
  constructor
  · intro h
    obtain ⟨t, ⟨hk, rfl⟩, hv⟩ := h
    exact ⟨hk, hv⟩
  · exact fun ⟨hk, hv⟩ => ⟨_, ⟨hk, rfl⟩, hv⟩

theorem rampupSearches_ok (hlen : thuputs.length = thuputTimes.length) (hthresh : 0 < thresh) {js : List Nat}
    {rs : List ℚ} :
    rampupSearches thuputTimes thuputs stableThuput thresh (js ++ [i]) = .ok rs ↔
      ∃ ws w, List.Forall₂ (fun j v => j < thuputTimes.length ∧
          RampupFrom thuputTimes thuputs stableThuput thresh (thuputTimes.getD j 0) j v) js ws ∧
        i + 1 < thuputTimes.length ∧
        RampupFrom thuputTimes thuputs stableThuput thresh (thuputTimes.getD (i + 1) 0) i w ∧ rs = ws ++ [w] := by
  have hn : (js ++ [i]).length - 1 = js.length := by simp
  have hfirst := firstLoop_eq (js ++ [i])
    (fun j => do rampup thuputTimes thuputs stableThuput thresh (← getItem thuputTimes j) j)
    (n := js.length) (by simp)
  rw [List.take_left] at hfirst
  have hnext : (i : Int) + 1 = ((i + 1 : Nat) : Int) := by push_cast; rfl
  rw [rampupSearches, hn, hfirst, Py.bind_eq_ok]
  simp only [Py.mapM_eq_ok, rampup_at hlen hthresh, getItem_last, Py.ok_bind, hnext]
  simp only [Py.bind_eq_ok, getItem_eq_getD (0 : ℚ), rampup_ok hlen hthresh, Py.pure_eq_ok, Except.ok.injEq]
  constructor
  · intro h
    obtain ⟨ws, hws, t, ⟨hlt, rfl⟩, w, hw, rfl⟩ := h
    exact ⟨ws, w, hws, hlt, hw, rfl⟩
  · intro h
    obtain ⟨ws, w, hws, hlt, hw, rfl⟩ := h
    exact ⟨ws, hws, _, ⟨hlt, rfl⟩, w, hw, rfl⟩

theorem rampupTimes_ok (hlen : thuputs.length = thuputTimes.length) (hthresh : 0 < thresh) {hos : List ℚ} {h : ℚ}
    {rs : List ℚ} :
    rampupTimes thuputTimes thuputs stableThuput thresh (hos ++ [h]) = .ok rs ↔
      ∃ js i ws w, List.Forall₂ (Closest thuputTimes) hos js ∧ Closest thuputTimes h i ∧
        List.Forall₂ (fun j v => j < thuputTimes.length ∧
          RampupFrom thuputTimes thuputs stableThuput thresh (thuputTimes.getD j 0) j v) js ws ∧
        i + 1 < thuputTimes.length ∧
        RampupFrom thuputTimes thuputs stableThuput thresh (thuputTimes.getD (i + 1) 0) i w ∧ rs = ws ++ [w] := by
  rw [rampupTimes, Py.bind_eq_ok]
  constructor
  · intro hok
    obtain ⟨is, his, hrest⟩ := hok
    obtain ⟨js, i, hjs, hi, rfl⟩ := findClosestIndices_snoc.mp his
    obtain ⟨ws, w, hrest⟩ := (rampupSearches_ok hlen hthresh).mp hrest
    exact ⟨js, i, ws, w, hjs, hi, hrest⟩
  · intro hok
    obtain ⟨js, i, ws, w, hjs, hi, hrest⟩ := hok
    exact ⟨_, findClosestIndices_snoc.mpr ⟨js, i, hjs, hi, rfl⟩, (rampupSearches_ok hlen hthresh).mpr ⟨ws, w, hrest⟩⟩

end Search

/-- What is recorded for a handover: the time from the closest sample to the first one from there on with a stable
    throughput, or -1. -/
def Recorded (thuputTimes thuputs : List ℚ) (stableThuput thresh h v : ℚ) : Prop :=
  ∃ i, Closest thuputTimes h i ∧
    RampupFrom thuputTimes thuputs stableThuput thresh (thuputTimes.getD i 0) i v ∧ (0 ≤ v ∨ v = -1)

/-- The ramp-up times are recorded, one for each handover, wherever it is in the list. -/
def RampupRecorded (thuputTimes thuputs : List ℚ) (stableThuput thresh : ℚ) (hoTimes : List ℚ) : Prop :=
  ∃ rs, rampupTimes thuputTimes thuputs stableThuput thresh hoTimes = .ok rs ∧
    List.Forall₂ (Recorded thuputTimes thuputs stableThuput thresh) hoTimes rs

section Recorded
variable {thuputTimes thuputs : List ℚ} {stableThuput thresh startT : ℚ} {i j : Nat} {v w : ℚ}

theorem getD_lt_getD (hsorted : thuputTimes.Pairwise (· < ·)) (hij : i < j) (hj : j < thuputTimes.length) :
    thuputTimes.getD i 0 < thuputTimes.getD j 0 := by
  rw [List.getD_eq_getElem _ _ (hij.trans hj), List.getD_eq_getElem _ _ hj]
  exact List.pairwise_iff_getElem.mp hsorted i j _ hj hij

theorem RampupFrom.nonneg (hsorted : thuputTimes.Pairwise (· < ·))
    (h : RampupFrom thuputTimes thuputs stableThuput thresh (thuputTimes.getD i 0) i v) : 0 ≤ v ∨ v = -1 := by
  obtain ⟨j, hj, rfl⟩ | ⟨-, rfl⟩ := h
  · refine .inl (sub_nonneg.mpr ?_)
    obtain rfl | hlt := Nat.eq_or_lt_of_le hj.le
    · exact le_refl _
    · exact (getD_lt_getD hsorted hlt hj.lt).le
  · exact .inr rfl

theorem RampsUp.later {startT' : ℚ} (h : RampsUp thuputTimes thuputs stableThuput thresh startT i j)
    (hle : startT ≤ startT') : RampsUp thuputTimes thuputs stableThuput thresh startT' i j :=
  ⟨h.le, h.lt, h.stable, fun k hk hkj => ⟨(h.before k hk hkj).1, by linarith [(h.before k hk hkj).2]⟩⟩

/-- The search of the last handover records what the other one would iff it finds no sample. -/
theorem last_agrees (hsorted : thuputTimes.Pairwise (· < ·)) (hi : i + 1 < thuputTimes.length)
    (hlast : RampupFrom thuputTimes thuputs stableThuput thresh (thuputTimes.getD (i + 1) 0) i w) :
    RampupFrom thuputTimes thuputs stableThuput thresh (thuputTimes.getD i 0) i w ↔
      ¬ ∃ j, RampsUp thuputTimes thuputs stableThuput thresh (thuputTimes.getD (i + 1) 0) i j := by
  have hlt := getD_lt_getD hsorted (Nat.lt_succ_self i) hi
  constructor
  · intro hw h
    obtain ⟨j, hj⟩ := h
    obtain rfl := hlast.unique (.inl ⟨j, hj, rfl⟩)
    obtain ⟨j', hj', heq⟩ | ⟨hnone, heq⟩ := hw
    · -- the same sample, measured from two
      rw [hj'.unique hj] at heq
      linarith
    · -- a negative time: the closest sample itself
      obtain rfl | hij := Nat.eq_or_lt_of_le hj.le
      · exact hnone ⟨i, Nat.le_refl _, hj.lt, hj.stable, fun k hk hki => absurd hk (Nat.not_le.mpr hki)⟩
      · have hle : thuputTimes.getD (i + 1) 0 ≤ thuputTimes.getD j 0 := by
          obtain rfl | hij := Nat.eq_or_lt_of_le hij
          · exact le_refl _
          · exact (getD_lt_getD hsorted hij hj.lt).le
        linarith
  · intro hnone
    obtain ⟨j, hj, -⟩ | ⟨-, rfl⟩ := hlast
    · exact absurd ⟨j, hj⟩ hnone
    · exact .inr ⟨fun ⟨j, hj⟩ => hnone ⟨j, hj.later hlt.le⟩, rfl⟩

theorem recorded_others (stableThuput : ℚ) (hsorted : thuputTimes.Pairwise (· < ·))
    (hlen : thuputs.length = thuputTimes.length) (hthresh : 0 < thresh) (hne : thuputTimes ≠ []) (hos : List ℚ) :
    ∃ js ws, List.Forall₂ (Closest thuputTimes) hos js ∧
      List.Forall₂ (fun j v => j < thuputTimes.length ∧
        RampupFrom thuputTimes thuputs stableThuput thresh (thuputTimes.getD j 0) j v) js ws ∧
      List.Forall₂ (Recorded thuputTimes thuputs stableThuput thresh) hos ws := by
  induction hos with
  | nil => exact ⟨[], [], .nil, .nil, .nil⟩
  | cons h hos ih =>
    obtain ⟨js, ws, hjs, hws, hrec⟩ := ih
    obtain ⟨j, hj⟩ := closest_exists h hne
    obtain ⟨w, -, hw⟩ := rampup_defined stableThuput hlen hthresh (thuputTimes.getD j 0) j
    exact ⟨j :: js, w :: ws, .cons hj hjs, .cons ⟨hj.lt, hw⟩ hws, .cons ⟨j, hj, hw, hw.nonneg hsorted⟩ hrec⟩

end Recorded

/-- **The ramp-up times are recorded** iff a sample follows the one closest to the last handover, and the search
    measured from that sample finds none. -/
theorem rampup_recorded_iff {thuputTimes thuputs : List ℚ} {stableThuput thresh : ℚ} {hoTimes : List ℚ}
    (hsorted : thuputTimes.Pairwise (· < ·)) (hlen : thuputs.length = thuputTimes.length) (hthresh : 0 < thresh)
    (hne : hoTimes ≠ []) :
    RampupRecorded thuputTimes thuputs stableThuput thresh hoTimes ↔
      ∃ i, Closest thuputTimes (hoTimes.getLast hne) i ∧ i + 1 < thuputTimes.length ∧
        ¬ ∃ j, RampsUp thuputTimes thuputs stableThuput thresh (thuputTimes.getD (i + 1) 0) i j := by
  have hsnoc := List.dropLast_append_getLast hne
  generalize hoTimes.getLast hne = h at hsnoc
  generalize hoTimes.dropLast = hos at hsnoc
  subst hsnoc
  constructor
  · intro hok
    obtain ⟨rs, hrs, hrec⟩ := hok
    obtain ⟨js, i, ws, w, hjs, hi, hws, hlt, hw, rfl⟩ := (rampupTimes_ok hlen hthresh).mp hrs
    have hlast : Recorded thuputTimes thuputs stableThuput thresh h w := by
      have hdrop := List.forall₂_drop_append _ _ _ hrec
      rw [← hws.length_eq, ← hjs.length_eq, List.drop_left] at hdrop
      exact (List.forall₂_cons.mp hdrop).1
    obtain ⟨i', hi', hw', -⟩ := hlast
    obtain rfl := hi.unique hi'
    exact ⟨i, hi, hlt, (last_agrees hsorted hlt hw).mp hw'⟩
  · intro hlast
    obtain ⟨i, hi, hlt, hnone⟩ := hlast
    have hne' : thuputTimes ≠ [] := List.ne_nil_of_length_pos (Nat.zero_lt_of_lt hlt)
    obtain ⟨js, ws, hjs, hws, hrec⟩ := recorded_others stableThuput hsorted hlen hthresh hne' hos
    obtain ⟨w, -, hw⟩ := rampup_defined stableThuput hlen hthresh (thuputTimes.getD (i + 1) 0) i
    have hw' := (last_agrees hsorted hlt hw).mpr hnone
    refine ⟨ws ++ [w], (rampupTimes_ok hlen hthresh).mpr ⟨js, i, ws, w, hjs, hi, hws, hlt, hw, rfl⟩, ?_⟩
    exact List.rel_append hrec (.cons ⟨i, hi, hw', hw'.nonneg hsorted⟩ .nil)

/-! The replacement. -/

theorem replace_loop (random : Nat → ℚ) (maxRampT : ℚ) (rs : List ℚ) (s : ReplaceLoop) :
    ∃ ts, (rs.foldl (replaceIteration random maxRampT) s).rampupTimes = s.rampupTimes ++ ts ∧
      List.Forall₂ (fun r t => 0 < r → t = r) rs ts := by
  induction rs generalizing s with
  | nil => exact ⟨[], (List.append_nil _).symm, .nil⟩
  | cons r rs ih =>
    obtain ⟨ts, hts, hkeep⟩ := ih (replaceIteration random maxRampT s r)
    have hstep : ∃ t, (replaceIteration random maxRampT s r).rampupTimes = s.rampupTimes ++ [t] ∧ (0 < r → t = r) := by
      unfold replaceIteration
      by_cases hneg : r < 0
      · rw [if_pos hneg]
        exact ⟨maxRampT, rfl, fun h => absurd h hneg.not_gt⟩
      · rw [if_neg hneg]
        by_cases hzero : r = 0
        · rw [if_pos hzero]
          exact ⟨_, rfl, fun h => absurd hzero h.ne'⟩
        · rw [if_neg hzero]
          exact ⟨r, rfl, fun _ => rfl⟩
    obtain ⟨t, ht, htr⟩ := hstep
    refine ⟨t :: ts, ?_, .cons htr hkeep⟩
    rw [List.foldl_cons, hts, ht, List.append_assoc, List.singleton_append]

theorem calculateRampupTime_keeps {thuputTimes thuputs : List ℚ} {stableThuput thresh : ℚ} {random : Nat → ℚ}
    {hoTimes : List ℚ} {out : Output (List ℚ)}
    (h : calculateRampupTime thuputTimes thuputs stableThuput thresh random hoTimes = .ok out) :
    ∃ rs, rampupTimes thuputTimes thuputs stableThuput thresh hoTimes = .ok rs ∧
      List.Forall₂ (fun r t => 0 < r → t = r) rs out.value := by
  obtain ⟨rs, hrs, hrest⟩ := Py.bind_eq_ok.mp h
  obtain ⟨maxRampT, -, hout⟩ := Py.bind_eq_ok.mp hrest
  obtain ⟨ts, hts, hkeep⟩ := replace_loop random (if maxRampT < 0 then thresh else maxRampT) rs ⟨[], 0, 0⟩
  obtain rfl := Except.ok.inj hout
  refine ⟨rs, hrs, ?_⟩
  rw [← List.nil_append ts, ← hts] at hkeep
  exact hkeep

/-! Samples at 0, 1 and 3 s, stable from 1 s on. -/

/-- A single handover at 1 s records -2, and one at 3 s runs past the list. -/
theorem rampup_misrecorded :
    rampupTimes [0, 1, 3] [0, 10, 10] 5 40 [1] = .ok [-2] ∧
      rampupTimes [0, 1, 3] [0, 10, 10] 5 40 [3] = .error .indexError ∧
      ¬ RampupRecorded [0, 1, 3] [0, 10, 10] 5 40 [1] ∧ ¬ RampupRecorded [0, 1, 3] [0, 10, 10] 5 40 [3] := by
  have hclosest : Closest [0, 1, 3] 1 1 := ⟨by decide, by decide +kernel, by decide +kernel⟩
  have hfound : RampsUp [0, 1, 3] [0, 10, 10] 5 40 3 1 1 :=
    ⟨Nat.le_refl _, by decide, by decide +kernel, fun k hk hk' => absurd hk (Nat.not_le.mpr hk')⟩
  have hlen : ([0, 10, 10] : List ℚ).length = ([0, 1, 3] : List ℚ).length := rfl
  have hthresh : (0 : ℚ) < 40 := by norm_num
  have hneg : rampupTimes [0, 1, 3] [0, 10, 10] 5 40 ([] ++ [1]) = .ok [-2] :=
    (rampupTimes_ok hlen hthresh).mpr
      ⟨[], 1, [], -2, .nil, hclosest, .nil, by decide, .inl ⟨1, hfound, by norm_num⟩, rfl⟩
  have hindex : rampupTimes [0, 1, 3] [0, 10, 10] 5 40 [3] = .error .indexError := by
    have hfind : findClosestIndices [3] [0, 1, 3] = .ok [2] := by decide +kernel
    rw [rampupTimes, hfind]
    rfl
  refine ⟨hneg, hindex, ?_, ?_⟩
  · intro hok
    obtain ⟨rs, hrs, hrec⟩ := hok
    obtain rfl := Except.ok.inj (hneg.symm.trans hrs)
    obtain ⟨-, -, -, h⟩ := (List.forall₂_cons.mp hrec).1
    norm_num at h
  · intro hok
    obtain ⟨rs, hrs, -⟩ := hok
    rw [hindex] at hrs
    cases hrs

theorem rampup_recorded_iff_two : RampupRecorded [0, 1, 2, 3, 4] [0, 0, 9, 0, 0] 5 40 [1, 3] := by
  have hsorted : ([0, 1, 2, 3, 4] : List ℚ).Pairwise (· < ·) := by decide +kernel
  have hlen : ([0, 0, 9, 0, 0] : List ℚ).length = ([0, 1, 2, 3, 4] : List ℚ).length := rfl
  have hthresh : (0 : ℚ) < 40 := by norm_num
  refine (rampup_recorded_iff hsorted hlen hthresh (List.cons_ne_nil _ _)).mpr ⟨3, ?_, by decide, ?_⟩
  · exact ⟨by decide, by decide +kernel, by decide +kernel⟩
  · intro h
    obtain ⟨j, hle, hlt, hstable, -⟩ := h
    have hlt' : j < 5 := hlt
    interval_cases j <;> norm_num at hstable

end Handoff
