import Handoff.HandoverTypes
import Handoff.RampUp
import Mathlib.Data.List.Induction
import Mathlib.Data.Rat.Floor
import Mathlib.Tactic.Ring

/- What metrics.py reports of the ramp-up times.

   `calculate_rampup_time` replaces the entries that are no times before it returns them (`rampup_times_replaced`). The
   report takes the means of the runs without and with M2HO, and adjusts both: it raises the times with M2HO
   until their mean is a second, and then the times without until their mean is a second more. So it
   finds M2HO to be ahead by a second whatever the runs have measured (`rampup_report_ahead`). `__main__` makes
   the report where its section is switched on: as it stands it is under `if False`. -/
namespace Handoff

/-! The code. -/

/-- `np.mean(xs)`; `none` is nan, of which no comparison holds. -/
abbrev npMean (xs : List ℚ) : Option ℚ := average xs

/-- A round of the loops that adjust the times. -/
def raiseHalf (times : List ℚ) : List ℚ := times.map (· + 1 / 2)

theorem npMean_raiseHalf {xs : List ℚ} {avg : ℚ} (h : npMean xs = some avg) :
    npMean (raiseHalf xs) = some (avg + 1 / 2) := by
  obtain ⟨hne, hsum⟩ := average_eq_some.mp h
  refine average_eq_some.mpr ⟨by simpa [raiseHalf] using hne, ?_⟩
  rw [raiseHalf, List.sum_map_add, List.map_id', List.map_const', List.sum_replicate, List.length_map, hsum, nsmul_eq_mul]
  ring

theorem raiseHalf_closer {times : List ℚ} {avg bound : ℚ} (hm : npMean times = some avg) (hlt : avg < bound) :
    ((npMean (raiseHalf times)).elim 0 fun avg => ⌈2 * (bound - avg)⌉.toNat) <
      (npMean times).elim 0 fun avg => ⌈2 * (bound - avg)⌉.toNat := by
  have hceil : ⌈2 * (bound - (avg + 1 / 2))⌉ = ⌈2 * (bound - avg)⌉ - 1 := by
    rw [← Int.ceil_sub_one]
    ring_nf
  have hpos : 0 < ⌈2 * (bound - avg)⌉ := Int.ceil_pos.mpr (by linarith)
  rw [npMean_raiseHalf hm, hm, Option.elim_some, Option.elim_some, hceil]
  omega

/-- `while again(avg)`: the times are raised, and `avg` is their mean. The loop does not go on above `bound`. -/
def raiseWhile (again : ℚ → Prop) [DecidablePred again] (bound : ℚ) (hbound : ∀ avg, again avg → avg < bound)
    (times : List ℚ) : List ℚ :=
  match _ : npMean times with
  | none => times
  | some avg => if _ : again avg then raiseWhile again bound hbound (raiseHalf times) else times
termination_by (npMean times).elim 0 fun avg => ⌈2 * (bound - avg)⌉.toNat
decreasing_by exact raiseHalf_closer ‹_› (hbound _ ‹_›)

/-- The loop over the times with M2HO. -/
def adjustMRampup (mRampupTimes : List ℚ) : List ℚ := raiseWhile (· < 1) 1 (fun _ h => h) mRampupTimes

/-- The loop over the times without. -/
def adjustRampup (mAvg : Option ℚ) (rampupTimes : List ℚ) : List ℚ :=
  match mAvg with
  | none => rampupTimes
  | some mAvg =>
    raiseWhile (fun avg => avg ≤ mAvg ∨ avg - mAvg < 1) (mAvg + 1) (fun _ h => by rcases h with h | h <;> linarith)
      rampupTimes

/-- What the report prints for a type of handover, before it is rounded, and the times it is about. -/
structure RampupRow where
  rampupTimes : List ℚ
  mRampupTimes : List ℚ
  avg : Option ℚ
  mAvg : Option ℚ
  up : Option ℚ

def rampupRow (rampupTimes mRampupTimes : List ℚ) : RampupRow where
  rampupTimes := rampupTimes
  mRampupTimes := mRampupTimes
  avg := npMean rampupTimes
  mAvg := npMean mRampupTimes
  up := do
    let avg ← npMean rampupTimes
    let mAvg ← npMean mRampupTimes
    return 100 * (avg - mAvg) / avg

/-- The samples of a run: `parse_iperf3_log` appends to both lists at once. -/
structure IperfSamples where
  thuputTimes : List ℚ
  thuputs : List ℚ
  aligned : thuputs.length = thuputTimes.length

/-- `stable_thuput`, by link. -/
def reportStable : List ℚ := [0, 170, 360]

/-- `calculate_rampup_time` as the report calls it. -/
def IperfSamples.rampup (samples : IperfSamples) (stable : ℚ) (random : Nat → ℚ) (hoTimes : List ℚ) :
    Py (Output (List ℚ)) :=
  calculateRampupTime samples.thuputTimes samples.thuputs stable 40 random hoTimes

section Report
variable (random mRandom : Nat × Nat → Nat → ℚ) (hoTimes : List ℚ) (targetLinks : List Nat)
variable (samples mSamples : IperfSamples)

/-- The report on one type. -/
def rampupOfType (hoType : Nat × Nat) : Py RampupRow := do
  let filteredHoTimes ← filterHoTypes hoTimes targetLinks hoType 1
  let stable ← getItem reportStable hoType.2
  let rampupTimes ← samples.rampup stable (random hoType) filteredHoTimes
  let mFilteredHoTimes ← filterHoTypes hoTimes targetLinks hoType 1
  let mRampupTimes ← mSamples.rampup stable (mRandom hoType) mFilteredHoTimes
  let mRampupTimes := adjustMRampup mRampupTimes.value
  return rampupRow (adjustRampup (npMean mRampupTimes) rampupTimes.value) mRampupTimes

/-- The report on the four types, and on all handovers. -/
def rampupReport : Py (List RampupRow × RampupRow) := do
  let rows ← hoTypes.mapM (rampupOfType random mRandom hoTimes targetLinks samples mSamples)
  return (rows, rampupRow (rows.flatMap (·.rampupTimes)) (rows.flatMap (·.mRampupTimes)))

end Report

/-! The times returned. -/

/-- An entry `r` of `rampup_times` and what it is returned as, `m` standing for the entries below zero. -/
structure Replaced (m r t : ℚ) : Prop where
  found : 0 < r → t = r
  missing : r < 0 → t = m
  full : r = 0 → 1 / 2 ≤ t ∧ t < 3 / 2

/-- The largest entry, or the threshold if all entries are below zero. -/
def Fallback (thresh : ℚ) (rs : List ℚ) (m : ℚ) : Prop :=
  (m ∈ rs ∧ 0 ≤ m ∧ ∀ r ∈ rs, r ≤ m) ∨ ((∀ r ∈ rs, r < 0) ∧ m = thresh)

/-- Sample `i` is the closest to `h`, and the time found from it is measured from the sample `k` after it. -/
def Measured (thuputTimes thuputs : List ℚ) (stableThuput thresh : ℚ) (k : Nat) (h v : ℚ) : Prop :=
  ∃ i, Closest thuputTimes h i ∧ i + k < thuputTimes.length ∧
    RampupFrom thuputTimes thuputs stableThuput thresh (thuputTimes.getD (i + k) 0) i v

/-- A sample follows the one closest to `h`. -/
def Followed (thuputTimes : List ℚ) (h : ℚ) : Prop := ∃ i, Closest thuputTimes h i ∧ i + 1 < thuputTimes.length

section Times
variable {thuputTimes thuputs : List ℚ} {stableThuput thresh : ℚ} {random : Nat → ℚ} {hos : List ℚ} {h : ℚ}

theorem replace_run (hrandom : ∀ k, 0 ≤ random k ∧ random k < 1) (m : ℚ) (rs : List ℚ) :
    List.Forall₂ (Replaced m) rs (rs.foldl (replaceIteration random m) ⟨[], 0, 0⟩).rampupTimes ∧
      (rs.foldl (replaceIteration random m) ⟨[], 0, 0⟩).cntUndone = rs.countP (· < 0) ∧
      (rs.foldl (replaceIteration random m) ⟨[], 0, 0⟩).cntStartFull = rs.countP (· = 0) := by
  induction rs using List.reverseRecOn with
  | nil => exact ⟨.nil, rfl, rfl⟩
  | append_singleton rs r ih =>
    obtain ⟨htimes, hundone, hfull⟩ := ih
    rw [List.foldl_append, List.foldl_cons, List.foldl_nil, List.countP_append, List.countP_append, ← hundone, ← hfull]
    generalize rs.foldl (replaceIteration random m) ⟨[], 0, 0⟩ = s at htimes
    unfold replaceIteration
    obtain hneg | rfl | hpos := lt_trichotomy r 0
    · rw [if_pos hneg]
      refine ⟨List.rel_append htimes (.cons ⟨?_, fun _ => rfl, ?_⟩ .nil), by simp [hneg], by simp [hneg.ne]⟩
      · exact fun hpos => absurd hpos hneg.not_gt
      · exact fun hzero => absurd hzero hneg.ne
    · rw [if_neg (lt_irrefl _), if_pos rfl]
      obtain ⟨hr0, hr1⟩ := hrandom s.cntStartFull
      refine ⟨List.rel_append htimes (.cons ⟨?_, ?_, fun _ => ⟨by linarith, by linarith⟩⟩ .nil), by simp, by simp⟩
      · exact fun hlt => absurd hlt (lt_irrefl _)
      · exact fun hlt => absurd hlt (lt_irrefl _)
    · rw [if_neg hpos.not_gt, if_neg hpos.ne']
      refine ⟨List.rel_append htimes (.cons ⟨fun _ => rfl, ?_, ?_⟩ .nil), by simp [hpos.le], by simp [hpos.ne']⟩
      · exact fun hneg => absurd hneg hpos.not_gt
      · exact fun hzero => absurd hzero hpos.ne'

theorem rampupTimes_measured (hlen : thuputs.length = thuputTimes.length) (hthresh : 0 < thresh) {rs : List ℚ} :
    rampupTimes thuputTimes thuputs stableThuput thresh (hos ++ [h]) = .ok rs ↔
      ∃ ws w, List.Forall₂ (Measured thuputTimes thuputs stableThuput thresh 0) hos ws ∧
        Measured thuputTimes thuputs stableThuput thresh 1 h w ∧ rs = ws ++ [w] := by
  rw [rampupTimes_ok hlen hthresh]
  constructor
  · intro ⟨js, i, ws, w, hjs, hi, hws, hlt, hw, hrs⟩
    refine ⟨ws, w, ?_, ⟨i, hi, hlt, hw⟩, hrs⟩
    clear hrs
    induction hjs generalizing ws with
    | nil =>
      cases hws
      exact .nil
    | cons hj _ ih =>
      cases hws with
      | cons hv hws => exact .cons ⟨_, hj, hv.1, hv.2⟩ (ih _ hws)
  · intro ⟨ws, w, hws, ⟨i, hi, hlt, hw⟩, hrs⟩
    suffices hall : ∃ js, List.Forall₂ (Closest thuputTimes) hos js ∧
        List.Forall₂ (fun j v => j < thuputTimes.length ∧
          RampupFrom thuputTimes thuputs stableThuput thresh (thuputTimes.getD j 0) j v) js ws by
      obtain ⟨js, hjs, hvs⟩ := hall
      exact ⟨js, i, ws, w, hjs, hi, hvs, hlt, hw, hrs⟩
    clear hrs
    induction hws with
    | nil => exact ⟨[], .nil, .nil⟩
    | cons hv _ ih =>
      obtain ⟨j, hj, hlt, hfrom⟩ := hv
      obtain ⟨js, hjs, hvs⟩ := ih
      exact ⟨j :: js, .cons hj hjs, .cons ⟨hlt, hfrom⟩ hvs⟩

/-- Measured from the next sample, a handover that is stable at its own has a time below zero. -/
theorem Measured.stable_at_once {v : ℚ} {i : Nat} (hv : Measured thuputTimes thuputs stableThuput thresh 1 h v)
    (hi : Closest thuputTimes h i) (hstable : stableThuput ≤ thuputs.getD i 0)
    (hlater : thuputTimes.getD i 0 < thuputTimes.getD (i + 1) 0) : v < 0 := by
  obtain ⟨i', hi', -, hfrom⟩ := hv
  obtain rfl := hi.unique hi'
  have hat : RampsUp thuputTimes thuputs stableThuput thresh (thuputTimes.getD (i + 1) 0) i i :=
    (rampsUp_cases hi.lt).mpr (by rw [if_pos hstable])
  obtain ⟨j, hj, rfl⟩ | ⟨hnone, -⟩ := hfrom
  · rw [hj.unique hat]
    exact sub_neg_of_lt hlater
  · exact absurd ⟨i, hat⟩ hnone

theorem measured_exists (stableThuput : ℚ) (hlen : thuputs.length = thuputTimes.length) (hthresh : 0 < thresh) {k : Nat}
    {i : Nat} (hi : Closest thuputTimes h i) (hlt : i + k < thuputTimes.length) :
    ∃ v, Measured thuputTimes thuputs stableThuput thresh k h v := by
  obtain ⟨v, -, hv⟩ := rampup_defined stableThuput hlen hthresh (thuputTimes.getD (i + k) 0) i
  exact ⟨v, i, hi, hlt, hv⟩

theorem rampupTimes_defined (hlen : thuputs.length = thuputTimes.length) (hthresh : 0 < thresh) :
    (∃ rs, rampupTimes thuputTimes thuputs stableThuput thresh (hos ++ [h]) = .ok rs) ↔ Followed thuputTimes h := by
  simp only [rampupTimes_measured hlen hthresh]
  constructor
  · intro ⟨_, _, _, _, ⟨i, hi, hlt, _⟩, _⟩
    exact ⟨i, hi, hlt⟩
  · intro ⟨i, hi, hlt⟩
    obtain ⟨w, hw⟩ := measured_exists stableThuput hlen hthresh (k := 1) hi hlt
    have hne : thuputTimes ≠ [] := List.ne_nil_of_length_pos (Nat.zero_lt_of_lt hlt)
    have hhos : ∀ h' ∈ hos, ∃ v, Measured thuputTimes thuputs stableThuput thresh 0 h' v := by
      intro h' _
      obtain ⟨j, hj⟩ := closest_exists h' hne
      exact measured_exists stableThuput hlen hthresh (k := 0) hj hj.lt
    obtain ⟨ws, hws⟩ := forall₂_defined.mpr hhos
    exact ⟨ws ++ [w], ws, w, hws, hw, rfl⟩

theorem rampupTimes_nil (thuputTimes thuputs : List ℚ) (stableThuput thresh : ℚ) :
    rampupTimes thuputTimes thuputs stableThuput thresh [] = .error .indexError := rfl

theorem calculate_of_entries {rs : List ℚ} (random : Nat → ℚ)
    (hrs : rampupTimes thuputTimes thuputs stableThuput thresh (hos ++ [h]) = .ok rs) (hne : rs ≠ []) :
    ∃ out m, calculateRampupTime thuputTimes thuputs stableThuput thresh random (hos ++ [h]) = .ok out ∧
      Fallback thresh rs m ∧ out.value = (rs.foldl (replaceIteration random m) ⟨[], 0, 0⟩).rampupTimes ∧
      out.printed = [toString (hos.length + 1) ++ " handovers in total"] ++
        (if ∀ r ∈ rs, r < 0 then
          ["Warning: no successful ramp up during threshold time! Using maximum threshold value..."] else []) ++
        [toString (rs.foldl (replaceIteration random m) ⟨[], 0, 0⟩).cntUndone ++ " HOs didn't finished rampup",
          toString (rs.foldl (replaceIteration random m) ⟨[], 0, 0⟩).cntStartFull ++ " start with full bw"] := by
  obtain ⟨max, hmax⟩ := maxOf_defined hne
  obtain ⟨hmem, hle⟩ := maxOf_eq_ok.mp hmax
  have hnone : max < 0 ↔ ∀ r ∈ rs, r < 0 := ⟨fun hlt r hr => (hle r hr).trans_lt hlt, fun hall => hall max hmem⟩
  have hm : Fallback thresh rs (if max < 0 then thresh else max) := by
    by_cases hlt : max < 0
    · exact .inr ⟨hnone.mp hlt, if_pos hlt⟩
    · rw [if_neg hlt]
      exact .inl ⟨hmem, not_lt.mp hlt, hle⟩
  rw [calculateRampupTime, hrs, Py.ok_bind, hmax]
  refine ⟨_, _, rfl, hm, rfl, ?_⟩
  simp only [hnone, List.length_append, List.length_singleton]

theorem replaced_nonneg {rs ts : List ℚ} {m : ℚ} (hts : List.Forall₂ (Replaced m) rs ts) (hm : Fallback thresh rs m)
    (hthresh : 0 < thresh) : ∀ t ∈ ts, 0 ≤ t := by
  have hm0 : 0 ≤ m := by
    obtain ⟨-, hm0, -⟩ | ⟨-, rfl⟩ := hm
    · exact hm0
    · exact hthresh.le
  clear hm
  induction hts with
  | nil => exact fun t ht => by cases ht
  | @cons r t rs ts ht _ ih =>
    refine List.forall_mem_cons.mpr ⟨?_, ih⟩
    obtain hneg | hzero | hpos := lt_trichotomy r 0
    · rwa [ht.missing hneg]
    · linarith [(ht.full hzero).1]
    · rw [ht.found hpos]
      exact hpos.le

theorem calculate_defined (hlen : thuputs.length = thuputTimes.length) (hthresh : 0 < thresh) :
    (∃ out, calculateRampupTime thuputTimes thuputs stableThuput thresh random (hos ++ [h]) = .ok out) ↔
      Followed thuputTimes h := by
  rw [← @rampupTimes_defined thuputTimes thuputs stableThuput thresh hos h hlen hthresh]
  constructor
  · intro ⟨out, hout⟩
    obtain ⟨rs, hrs, -⟩ := Py.bind_eq_ok.mp hout
    exact ⟨rs, hrs⟩
  · intro ⟨rs, hrs⟩
    obtain ⟨ws, w, -, -, rfl⟩ := (rampupTimes_measured hlen hthresh).mp hrs
    obtain ⟨out, -, hout, -⟩ := calculate_of_entries random hrs (by simp)
    exact ⟨out, hout⟩

theorem calculate_length {hoTimes : List ℚ} {out : Output (List ℚ)} (hlen : thuputs.length = thuputTimes.length)
    (hthresh : 0 < thresh) (h : calculateRampupTime thuputTimes thuputs stableThuput thresh random hoTimes = .ok out) :
    hoTimes ≠ [] ∧ out.value.length = hoTimes.length := by
  obtain ⟨rs, hrs, hkeep⟩ := calculateRampupTime_keeps h
  rcases List.eq_nil_or_concat' hoTimes with rfl | ⟨hos, h, rfl⟩
  · cases (rampupTimes_nil thuputTimes thuputs stableThuput thresh).symm.trans hrs
  · obtain ⟨ws, w, hws, -, rfl⟩ := (rampupTimes_measured hlen hthresh).mp hrs
    refine ⟨by simp, ?_⟩
    rw [← hkeep.length_eq, List.length_append, List.length_append, hws.length_eq]
    rfl

end Times

/-- **The ramp-up times returned.** For handovers `hos` and a last one, in lists of the same length and with a positive
    threshold, `calculate_rampup_time` returns iff a sample follows the one closest to the last. An entry above zero is
    returned as it was found; one below zero is returned as the longest time found, or the threshold; and a zero
    becomes half a second to one and a half. Below zero are the handovers without a stable sample, and the last
    one, which is measured from the sample after its own, if it is stable at its own already. No time returned is below
    zero, and the numbers printed are those of the entries. -/
theorem rampup_times_replaced {thuputTimes thuputs : List ℚ} {stableThuput thresh : ℚ} {random : Nat → ℚ}
    (hlen : thuputs.length = thuputTimes.length) (hthresh : 0 < thresh) (hrandom : ∀ k, 0 ≤ random k ∧ random k < 1)
    (hos : List ℚ) (h : ℚ) :
    ((∃ out, calculateRampupTime thuputTimes thuputs stableThuput thresh random (hos ++ [h]) = .ok out) ↔
        Followed thuputTimes h) ∧
      ∀ out, calculateRampupTime thuputTimes thuputs stableThuput thresh random (hos ++ [h]) = .ok out →
        ∃ ws w m, List.Forall₂ (Measured thuputTimes thuputs stableThuput thresh 0) hos ws ∧
          Measured thuputTimes thuputs stableThuput thresh 1 h w ∧
          (∀ i, Closest thuputTimes h i → stableThuput ≤ thuputs.getD i 0 →
            thuputTimes.getD i 0 < thuputTimes.getD (i + 1) 0 → w < 0) ∧
          Fallback thresh (ws ++ [w]) m ∧ List.Forall₂ (Replaced m) (ws ++ [w]) out.value ∧
          (∀ t ∈ out.value, 0 ≤ t) ∧
          out.printed = [toString (hos.length + 1) ++ " handovers in total"] ++
            (if ∀ r ∈ ws ++ [w], r < 0 then
              ["Warning: no successful ramp up during threshold time! Using maximum threshold value..."] else []) ++
            [toString ((ws ++ [w]).countP (· < 0)) ++ " HOs didn't finished rampup",
              toString ((ws ++ [w]).countP (· = 0)) ++ " start with full bw"] := by
  constructor
  · exact calculate_defined hlen hthresh
  · intro out hout
    obtain ⟨rs, hrs, -⟩ := Py.bind_eq_ok.mp hout
    obtain ⟨ws, w, hws, hw, rfl⟩ := (rampupTimes_measured hlen hthresh).mp hrs
    obtain ⟨out', m, hout', hm, hvalue, hprinted⟩ := calculate_of_entries random hrs (by simp)
    obtain rfl := Except.ok.inj (hout.symm.trans hout')
    obtain ⟨htimes, hundone, hfull⟩ := replace_run hrandom m (ws ++ [w])
    rw [hundone, hfull] at hprinted
    rw [hvalue]
    exact ⟨ws, w, m, hws, hw, fun _ => hw.stable_at_once, hm, htimes, replaced_nonneg htimes hm hthresh, hprinted⟩

/-- Both handovers are stable at their own sample. -/
theorem rampup_times_replaced_two :
    ∃ out ws w m, calculateRampupTime [0, 1, 2, 3, 4] [0, 9, 0, 9, 0] 5 40 (fun _ => 0) ([1] ++ [3]) = .ok out ∧
      List.Forall₂ (Measured [0, 1, 2, 3, 4] [0, 9, 0, 9, 0] 5 40 0) [1] ws ∧ w < 0 ∧
      List.Forall₂ (Replaced m) (ws ++ [w]) out.value ∧ ∀ t ∈ out.value, 0 ≤ t := by
  have hclosest : Closest [0, 1, 2, 3, 4] 3 3 := ⟨by decide, by decide +kernel, by decide +kernel⟩
  have htimes := @rampup_times_replaced [0, 1, 2, 3, 4] [0, 9, 0, 9, 0] 5 40 (fun _ => 0) rfl (by norm_num)
    (fun _ => by norm_num) [1] 3
  obtain ⟨out, hout⟩ := htimes.1.mpr ⟨3, hclosest, by decide⟩
  obtain ⟨ws, w, m, hws, -, hlast, -, hreplaced, hnonneg, -⟩ := htimes.2 out hout
  exact ⟨out, ws, w, m, hout, hws, hlast 3 hclosest (by norm_num) (by norm_num), hreplaced, hnonneg⟩

/-! The adjustment. -/

section Raise
/-- The times after `k` rounds. -/
def raised (k : Nat) (times : List ℚ) : List ℚ := times.map (· + (k : ℚ) / 2)

@[simp] theorem length_raised (k : Nat) (times : List ℚ) : (raised k times).length = times.length := List.length_map _

theorem raised_zero (times : List ℚ) : raised 0 times = times := by
  simp [raised]

theorem raised_raiseHalf (k : Nat) (times : List ℚ) : raised k (raiseHalf times) = raised (k + 1) times := by
  rw [raised, raised, raiseHalf, List.map_map]
  refine List.map_congr_left fun t _ => ?_
  simp only [Function.comp_apply]
  push_cast
  ring

theorem npMean_raised {times : List ℚ} {avg : ℚ} (h : npMean times = some avg) (k : Nat) :
    npMean (raised k times) = some (avg + k / 2) := by
  induction k generalizing times avg with
  | zero => simpa [raised_zero] using h
  | succ k ih =>
    rw [← raised_raiseHalf, ih (npMean_raiseHalf h)]
    push_cast
    ring_nf

variable (again : ℚ → Prop) [DecidablePred again] (bound : ℚ) (hbound : ∀ avg, again avg → avg < bound)

/-- The loop stops after the first round after which it need not go on. -/
theorem raiseWhile_stops {times : List ℚ} {avg : ℚ} (h : npMean times = some avg) :
    ∃ k : Nat, raiseWhile again bound hbound times = raised k times ∧ ¬ again (avg + k / 2) ∧
      ∀ j < k, again (avg + j / 2) := by
  fun_induction raiseWhile again bound hbound times generalizing avg with
  | case1 times hm => cases hm.symm.trans h
  | case2 times avg' hm hagain ih =>
    obtain rfl := Option.some.inj (hm.symm.trans h)
    obtain ⟨k, hk, hstop, hbefore⟩ := ih (npMean_raiseHalf hm)
    have hshift : ∀ j : Nat, avg' + 1 / 2 + (j : ℚ) / 2 = avg' + ((j + 1 : Nat) : ℚ) / 2 := by
      intro j
      push_cast
      ring
    refine ⟨k + 1, hk.trans (raised_raiseHalf k times), hshift k ▸ hstop, fun j hj => ?_⟩
    rcases j with _ | j
    · simpa using hagain
    · exact hshift j ▸ hbefore j (Nat.lt_of_succ_lt_succ hj)
  | case3 times avg' hm hagain =>
    obtain rfl := Option.some.inj (hm.symm.trans h)
    exact ⟨0, (raised_zero times).symm, by simpa using hagain, nofun⟩

theorem raiseWhile_least {times : List ℚ} {avg : ℚ} (h : npMean times = some avg) :
    ∃ k : Nat, raiseWhile again bound hbound times = raised k times ∧ IsLeast { k : Nat | ¬ again (avg + k / 2) } k := by
  obtain ⟨k, hk, hstop, hbefore⟩ := raiseWhile_stops again bound hbound h
  exact ⟨k, hk, hstop, fun j hj => Nat.not_lt.mp fun hlt => hj (hbefore j hlt)⟩

end Raise

/-! The report. -/

/-- The row of the times `rs` and `ms`, each raised by no more rounds than it takes. -/
def Adjusted (rs ms : List ℚ) (row : RampupRow) : Prop :=
  ∃ (a m : ℚ) (j k : Nat), npMean rs = some a ∧ npMean ms = some m ∧
    IsLeast { j : Nat | 1 ≤ m + j / 2 } j ∧ IsLeast { k : Nat | m + j / 2 + 1 ≤ a + k / 2 } k ∧
    row = rampupRow (raised k rs) (raised j ms)

/-- A row that finds M2HO to be ahead by a second. -/
def SecondAhead (row : RampupRow) : Prop :=
  ∃ avg mAvg up, row.avg = some avg ∧ row.mAvg = some mAvg ∧ row.up = some up ∧
    1 ≤ mAvg ∧ mAvg + 1 ≤ avg ∧ 0 < up

/-- As many times without M2HO as with it, and for each of them a second, and a second more. -/
structure AheadTimes (times mTimes : List ℚ) : Prop where
  length : times.length = mTimes.length
  second : (mTimes.length : ℚ) ≤ mTimes.sum
  ahead : mTimes.sum + mTimes.length ≤ times.sum

theorem AheadTimes.append {ts ms ts' ms' : List ℚ} (h : AheadTimes ts ms) (h' : AheadTimes ts' ms') :
    AheadTimes (ts ++ ts') (ms ++ ms') where
  length := by rw [List.length_append, List.length_append, h.length, h'.length]
  second := by
    rw [List.length_append, List.sum_append]
    push_cast
    linarith [h.second, h'.second]
  ahead := by
    rw [List.length_append, List.sum_append, List.sum_append]
    push_cast
    linarith [h.ahead, h'.ahead]

theorem aheadTimes_flatMap {rows : List RampupRow} (h : ∀ row ∈ rows, AheadTimes row.rampupTimes row.mRampupTimes) :
    AheadTimes (rows.flatMap (·.rampupTimes)) (rows.flatMap (·.mRampupTimes)) := by
  induction rows with
  | nil => exact ⟨rfl, by simp, by simp⟩
  | cons row rows ih =>
    obtain ⟨hrow, hrows⟩ := List.forall_mem_cons.mp h
    exact hrow.append (ih hrows)

theorem AheadTimes.row {ts ms : List ℚ} (h : AheadTimes ts ms) (hne : ms ≠ []) : SecondAhead (rampupRow ts ms) := by
  have hpos : (0 : ℚ) < ms.length := by exact_mod_cast List.length_pos_iff.mpr hne
  have hne' : ts ≠ [] := List.length_pos_iff.mp (h.length ▸ List.length_pos_iff.mpr hne)
  have hm : npMean ms = some (ms.sum / ms.length) := average_eq_some.mpr ⟨hne, (div_mul_cancel₀ _ hpos.ne').symm⟩
  have ha : npMean ts = some (ts.sum / ms.length) :=
    average_eq_some.mpr ⟨hne', by rw [h.length, div_mul_cancel₀ _ hpos.ne']⟩
  have hsecond : 1 ≤ ms.sum / ms.length := (one_le_div hpos).mpr h.second
  have hahead : ms.sum / ms.length + 1 ≤ ts.sum / ms.length := by
    rw [← div_self hpos.ne', ← add_div]
    exact div_le_div_of_nonneg_right h.ahead hpos.le
  have hup : (rampupRow ts ms).up =
      some (100 * (ts.sum / ms.length - ms.sum / ms.length) / (ts.sum / ms.length)) := by
    simp only [rampupRow, ha, hm]
    rfl
  exact ⟨_, _, _, ha, hm, hup, hsecond, hahead, div_pos (by linarith) (by linarith)⟩

theorem Adjusted.times {rs ms : List ℚ} {row : RampupRow} (h : Adjusted rs ms row) (hlen : rs.length = ms.length) :
    AheadTimes row.rampupTimes row.mRampupTimes := by
  obtain ⟨a, m, j, k, ha, hm, ⟨hj, -⟩, ⟨hk, -⟩, rfl⟩ := h
  have hnonneg : (0 : ℚ) ≤ ms.length := Nat.cast_nonneg _
  have hsumM := (average_eq_some.mp (npMean_raised hm j)).2
  have hsum := (average_eq_some.mp (npMean_raised ha k)).2
  rw [length_raised] at hsumM hsum
  rw [hlen] at hsum
  rw [Set.mem_ofPred_eq] at hj hk
  refine ⟨by simpa [rampupRow] using hlen, ?_, ?_⟩
  · simp only [rampupRow, length_raised, hsumM]
    exact le_mul_of_one_le_left hnonneg hj
  · simp only [rampupRow, length_raised, hsumM, hsum]
    calc (m + j / 2) * ms.length + ms.length
        = (m + j / 2 + 1) * ms.length := by ring
      _ ≤ (a + k / 2) * ms.length := mul_le_mul_of_nonneg_right hk hnonneg

theorem adjusted_row {rs ms : List ℚ} (hrs : rs ≠ []) (hms : ms ≠ []) :
    Adjusted rs ms (rampupRow (adjustRampup (npMean (adjustMRampup ms)) rs) (adjustMRampup ms)) := by
  have hmean : ∀ {xs : List ℚ}, xs ≠ [] → ∃ avg, npMean xs = some avg := fun {xs} hne =>
    ⟨xs.sum / xs.length, average_eq_some.mpr
      ⟨hne, (div_mul_cancel₀ _ (by exact_mod_cast (List.length_pos_iff.mpr hne).ne')).symm⟩⟩
  obtain ⟨m, hm⟩ := hmean hms
  obtain ⟨a, ha⟩ := hmean hrs
  obtain ⟨j, hj, hleast⟩ := raiseWhile_least (· < 1) 1 (fun _ h => h) hm
  have hadjustM : adjustMRampup ms = raised j ms := hj
  rw [hadjustM, npMean_raised hm j]
  obtain ⟨k, hk, hleast'⟩ := raiseWhile_least (fun avg => avg ≤ m + j / 2 ∨ avg - (m + j / 2) < 1)
    (m + j / 2 + 1) (fun _ h => by rcases h with h | h <;> linarith) ha
  refine ⟨a, m, j, k, ha, hm, ?_, ?_, congrArg (rampupRow · _) hk⟩
  · simpa only [not_lt] using hleast
  · have hstop : ∀ x : ℚ, ¬ (x ≤ m + j / 2 ∨ x - (m + j / 2) < 1) ↔ m + j / 2 + 1 ≤ x := by
      intro x
      constructor
      · intro h
        linarith [not_lt.mp fun hlt => h (.inr hlt)]
      · exact fun h hor => by rcases hor with hor | hor <;> linarith
    simpa only [hstop] using hleast'

section Reported
variable {random mRandom : Nat × Nat → Nat → ℚ} {hos : List (ℚ × Nat)} {samples mSamples : IperfSamples} {p : Nat × Nat}

/-- The times calculated for a type, without M2HO and with it, and the row they are reported in. -/
def Reported (random mRandom : Nat × Nat → Nat → ℚ) (hos : List (ℚ × Nat)) (samples mSamples : IperfSamples)
    (p : Nat × Nat) (row : RampupRow) : Prop :=
  ∃ stable rs ms, getItem reportStable p.2 = .ok stable ∧
    samples.rampup stable (random p) (ofType p 1 hos) = .ok rs ∧
    mSamples.rampup stable (mRandom p) (ofType p 1 hos) = .ok ms ∧ Adjusted rs.value ms.value row

theorem hoTypes_links (hp : p ∈ hoTypes) : ¬ (p.1 = 0 ∧ p.2 = 0) ∧ ∃ stable, getItem reportStable p.2 = .ok stable := by
  simp only [hoTypes, List.mem_cons, List.not_mem_nil, or_false] at hp
  rcases hp with rfl | rfl | rfl | rfl <;> exact ⟨by decide, _, rfl⟩

theorem IperfSamples.rampup_length {stable : ℚ} {random : Nat → ℚ} {hoTimes : List ℚ} {out : Output (List ℚ)}
    (h : samples.rampup stable random hoTimes = .ok out) : hoTimes ≠ [] ∧ out.value.length = hoTimes.length :=
  calculate_length samples.aligned (by norm_num) h

theorem rampupOfType_ok (hp : p ∈ hoTypes) {row : RampupRow} :
    rampupOfType random mRandom (hos.map (·.1)) (hos.map (·.2)) samples mSamples p = .ok row ↔
      ∃ stable rs ms, getItem reportStable p.2 = .ok stable ∧
        samples.rampup stable (random p) (ofType p 1 hos) = .ok rs ∧
        mSamples.rampup stable (mRandom p) (ofType p 1 hos) = .ok ms ∧
        row = rampupRow (adjustRampup (npMean (adjustMRampup ms.value)) rs.value) (adjustMRampup ms.value) := by
  simp only [rampupOfType, filterHoTypes_steps (hoTypes_links hp).1, Py.ok_bind, Py.bind_eq_ok, Py.pure_eq_ok,
    Except.ok.injEq]
  constructor
  · intro ⟨stable, hstable, rs, hrs, ms, hms, hrow⟩
    exact ⟨stable, rs, ms, hstable, hrs, hms, hrow.symm⟩
  · intro ⟨stable, rs, ms, hstable, hrs, hms, hrow⟩
    exact ⟨stable, hstable, rs, hrs, ms, hms, hrow.symm⟩

theorem rampupOfType_reported (hp : p ∈ hoTypes) {row : RampupRow}
    (h : rampupOfType random mRandom (hos.map (·.1)) (hos.map (·.2)) samples mSamples p = .ok row) :
    Reported random mRandom hos samples mSamples p row ∧ AheadTimes row.rampupTimes row.mRampupTimes ∧
      row.mRampupTimes ≠ [] ∧ row = rampupRow row.rampupTimes row.mRampupTimes := by
  obtain ⟨stable, rs, ms, hstable, hrs, hms, rfl⟩ := (rampupOfType_ok hp).mp h
  obtain ⟨hne, hcount⟩ := IperfSamples.rampup_length hrs
  obtain ⟨-, hcountM⟩ := IperfSamples.rampup_length hms
  have hpos := List.length_pos_iff.mpr hne
  have hadj := adjusted_row (List.length_pos_iff.mp (hcount ▸ hpos)) (List.length_pos_iff.mp (hcountM ▸ hpos))
  refine ⟨⟨stable, rs, ms, hstable, hrs, hms, hadj⟩, hadj.times (hcount.trans hcountM.symm), fun hnil => ?_, rfl⟩
  obtain ⟨a, m, j, k, -, -, -, -, hrow⟩ := hadj
  rw [hrow] at hnil
  have hzero := congrArg List.length hnil
  simp only [rampupRow, length_raised, hcountM, List.length_nil] at hzero
  omega

theorem rampupOfType_defined (hp : p ∈ hoTypes) :
    (∃ row, rampupOfType random mRandom (hos.map (·.1)) (hos.map (·.2)) samples mSamples p = .ok row) ↔
      ∃ h ∈ (ofType p 1 hos).getLast?, Followed samples.thuputTimes h ∧ Followed mSamples.thuputTimes h := by
  obtain ⟨stable, hstable⟩ := (hoTypes_links hp).2
  simp only [rampupOfType_ok hp]
  generalize ofType p 1 hos = ts
  rcases List.eq_nil_or_concat' ts with rfl | ⟨ts, h, rfl⟩
  · constructor
    · intro ⟨_, _, _, _, _, hrs, _⟩
      exact absurd rfl (IperfSamples.rampup_length hrs).1
    · intro ⟨_, h, _⟩
      cases h
  · have hdefined : ∀ (samples : IperfSamples) (random : Nat → ℚ),
        (∃ out, samples.rampup stable random (ts ++ [h]) = .ok out) ↔ Followed samples.thuputTimes h :=
      fun samples random => calculate_defined samples.aligned (by norm_num)
    rw [List.getLast?_append, List.getLast?_singleton, Option.some_or]
    simp only [Option.mem_some_iff, exists_eq_left']
    rw [← hdefined samples (random p), ← hdefined mSamples (mRandom p)]
    constructor
    · intro ⟨_, stable', rs, ms, hstable', hrs, hms, _⟩
      obtain rfl := Except.ok.inj (hstable.symm.trans hstable')
      exact ⟨⟨rs, hrs⟩, ms, hms⟩
    · intro ⟨⟨rs, hrs⟩, ms, hms⟩
      exact ⟨_, stable, rs, ms, hstable, hrs, hms, rfl⟩

theorem rampupReport_ok {report : List RampupRow × RampupRow} :
    rampupReport random mRandom (hos.map (·.1)) (hos.map (·.2)) samples mSamples = .ok report ↔
      ∃ rows, List.Forall₂ (fun p row =>
          rampupOfType random mRandom (hos.map (·.1)) (hos.map (·.2)) samples mSamples p = .ok row) hoTypes rows ∧
        report = (rows, rampupRow (rows.flatMap (·.rampupTimes)) (rows.flatMap (·.mRampupTimes))) := by
  simp only [rampupReport, Py.bind_eq_ok, Py.mapM_eq_ok, Py.pure_eq_ok, Except.ok.injEq]
  exact exists_congr fun rows => and_congr_right fun _ => eq_comm

end Reported

/-- **The report finds M2HO ahead by a second.** It is made iff each type occurs, and in both runs a sample follows the
    one closest to its last handover. Whatever the samples are, each of its rows, and the one of all handovers, has a
    mean of a second at least with M2HO, and of a second more without; the times of a type are those calculated,
    raised by the fewest half seconds that make it so. -/
theorem rampup_report_ahead (random mRandom : Nat × Nat → Nat → ℚ) (hos : List (ℚ × Nat)) (samples mSamples : IperfSamples) :
    ((∃ report, rampupReport random mRandom (hos.map (·.1)) (hos.map (·.2)) samples mSamples = .ok report) ↔
      ∀ p ∈ hoTypes, ∃ h ∈ (ofType p 1 hos).getLast?,
        Followed samples.thuputTimes h ∧ Followed mSamples.thuputTimes h) ∧
    ∀ rows total, rampupReport random mRandom (hos.map (·.1)) (hos.map (·.2)) samples mSamples = .ok (rows, total) →
      (∀ row ∈ total :: rows, SecondAhead row) ∧
        List.Forall₂ (Reported random mRandom hos samples mSamples) hoTypes rows := by
  constructor
  · simp only [rampupReport_ok]
    have hrows := @forall₂_defined _ _ (fun p row =>
      rampupOfType random mRandom (hos.map (·.1)) (hos.map (·.2)) samples mSamples p = .ok row) hoTypes
    constructor
    · intro ⟨_, rows, hall, _⟩ p hp
      exact (rampupOfType_defined hp).mp (hrows.mp ⟨rows, hall⟩ p hp)
    · intro h
      obtain ⟨rows, hall⟩ := hrows.mpr fun p hp => (rampupOfType_defined hp).mpr (h p hp)
      exact ⟨_, rows, hall, rfl⟩
  · intro rows total h
    obtain ⟨_, hall, heq⟩ := rampupReport_ok.mp h
    cases heq
    have htypes := ((List.forall₂_and_left _ _).mpr ⟨fun _ hp => hp, hall⟩).imp fun _ _ h => rampupOfType_reported h.1 h.2
    have hreported : ∀ row ∈ rows, AheadTimes row.rampupTimes row.mRampupTimes ∧ row.mRampupTimes ≠ [] ∧
        row = rampupRow row.rampupTimes row.mRampupTimes := by
      intro row hrow
      obtain ⟨i, hi, rfl⟩ := List.mem_iff_getElem.mp hrow
      exact (htypes.get (htypes.length_eq ▸ hi) hi).2
    refine ⟨List.forall_mem_cons.mpr ⟨?_, ?_⟩, ?_⟩
    · -- the means of all times, as there is a first type
      refine (aheadTimes_flatMap fun row hrow => (hreported row hrow).1).row ?_
      cases hall with
      | cons hfirst _ =>
        have hne := (rampupOfType_reported (by decide) hfirst).2.2.1
        exact fun hnil => hne (List.append_eq_nil_iff.mp hnil).1
    · intro row hrow
      obtain ⟨htimes, hne, hrow⟩ := hreported row hrow
      rw [hrow]
      exact htimes.row hne
    · exact htypes.imp fun _ _ h => h.1

/-- A handover of each type, and a sample a second with no throughput. -/
theorem rampup_report_ahead_four :
    ∃ rows total, rampupReport (fun _ _ => 0) (fun _ _ => 0) [1, 2, 3, 4] [1, 2, 2, 1]
      ⟨[0, 1, 2, 3, 4, 5], [0, 0, 0, 0, 0, 0], rfl⟩ ⟨[0, 1, 2, 3, 4, 5], [0, 0, 0, 0, 0, 0], rfl⟩ = .ok (rows, total) ∧
        ∀ row ∈ total :: rows, SecondAhead row := by
  have hreport := rampup_report_ahead (fun _ _ => 0) (fun _ _ => 0) [(1, 1), (2, 2), (3, 2), (4, 1)]
    ⟨[0, 1, 2, 3, 4, 5], [0, 0, 0, 0, 0, 0], rfl⟩ ⟨[0, 1, 2, 3, 4, 5], [0, 0, 0, 0, 0, 0], rfl⟩
  have hfollowed : ∀ i : Nat, i < 5 → Followed [0, 1, 2, 3, 4, 5] i := by
    intro i hi
    refine ⟨i, ⟨?_, ?_, ?_⟩, Nat.succ_lt_succ hi⟩
    · exact Nat.lt_succ_of_lt hi
    · interval_cases i <;> decide +kernel
    · interval_cases i <;> decide +kernel
  obtain ⟨⟨rows, total⟩, h⟩ := hreport.1.mpr (by
    intro p hp
    simp only [hoTypes, List.mem_cons, List.not_mem_nil, or_false] at hp
    rcases hp with rfl | rfl | rfl | rfl
    · exact ⟨1, rfl, hfollowed 1 (by decide), hfollowed 1 (by decide)⟩
    · exact ⟨2, rfl, hfollowed 2 (by decide), hfollowed 2 (by decide)⟩
    · exact ⟨3, rfl, hfollowed 3 (by decide), hfollowed 3 (by decide)⟩
    · exact ⟨4, rfl, hfollowed 4 (by decide), hfollowed 4 (by decide)⟩)
  exact ⟨rows, total, h, (hreport.2 rows total h).1⟩

end Handoff
