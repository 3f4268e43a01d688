import Handoff.Python

/- The two jitter computations: `calculate_jitter` of parse-logs.py, which gives every row of its table a jitter, and
   `compute_jitter_and_transit` of rfc-jitter.py, which leaves the rows with a negative transit time out.

   `rfc3550` is the recurrence both are about. `compute_jitter_and_transit` is `rfc3550` of the rows it keeps
   (`compute_rfc3550`); `calculate_jitter` starts from its first row, whatever its sign (`calculate_kept`). -/
namespace Handoff

/-! The estimator. -/

/-- RFC 3550: the jitter moves by a sixteenth towards the latest difference of transit times. -/
def smooth (jitter prev transit : ℚ) : ℚ := jitter + (|transit - prev| - jitter) / 16

/-- The jitters of packets that arrive after one with transit time `prev`. -/
def jittersFrom (prev jitter : ℚ) : List ℚ → List ℚ
  | [] => []
  | t :: ts => smooth jitter prev t :: jittersFrom t (smooth jitter prev t) ts

/-- The jitters of packets with the given transit times: 0 for the first one. -/
def rfc3550 : List ℚ → List ℚ
  | [] => []
  | t :: ts => 0 :: jittersFrom t 0 ts

@[simp] theorem length_jittersFrom (ts : List ℚ) (prev jitter : ℚ) : (jittersFrom prev jitter ts).length = ts.length := by
  induction ts generalizing prev jitter with
  | nil => rfl
  | cons t ts ih => simp [jittersFrom, ih]

@[simp] theorem length_rfc3550 (ts : List ℚ) : (rfc3550 ts).length = ts.length := by
  rcases ts with _ | ⟨t, ts⟩ <;> simp [rfc3550]

/-- Starting from a transit time that no packet has gives the first packet a positive jitter. -/
theorem jittersFrom_eq_rfc3550 {prev : ℚ} {ts : List ℚ} (h : ∀ t ∈ ts, prev < t) :
    jittersFrom prev 0 ts = rfc3550 ts ↔ ts = [] := by
  rcases ts with _ | ⟨t, ts⟩
  · exact ⟨fun _ => rfl, fun _ => rfl⟩
  · have hlt := h t List.mem_cons_self
    have hpos : 0 < smooth 0 prev t := by
      rw [smooth, abs_of_pos (by linarith)]
      linarith
    constructor
    · intro heq
      have hhead : smooth 0 prev t = 0 := (List.cons.inj heq).1
      linarith
    · exact nofun

/-! The code. -/

/-- A matched packet: when it was sent and received. -/
structure Matched where
  sts : ℚ
  rts : ℚ
  deriving DecidableEq, Repr

def Matched.transitTime (r : Matched) : ℚ := r.rts - r.sts

/-- The variables of the loop of `calculate_jitter`. -/
structure JitterLoop where
  jitter : ℚ
  errorCnt : Nat
  results : List ℚ
  prevTransitTime : ℚ

def jitterIteration (s : JitterLoop) (r : Matched) : JitterLoop :=
  let transitTime := r.transitTime
  if transitTime < 0 then { s with errorCnt := s.errorCnt + 1, results := s.results ++ [0] }
  else
    let jitter := s.jitter + (|transitTime - s.prevTransitTime| - s.jitter) / 16
    { s with jitter, results := s.results ++ [jitter], prevTransitTime := transitTime }

/-- `df.assign(jitter=results)`: a column has as many entries as the table has rows. -/
def assign (df : List Matched) (results : List ℚ) : Py (List (Matched × ℚ)) :=
  if results.length = df.length then .ok (df.zip results) else .error .valueError

/-- `calculate_jitter`. -/
def calculateJitter (df : List Matched) : Py (Output (List (Matched × ℚ))) := do
  let first ← getItem df 0
  let s := df.tail.foldl jitterIteration ⟨0, 0, [0], first.transitTime⟩
  let printed :=
    if s.errorCnt ≠ 0 then ["Error: " ++ toString s.errorCnt ++ " packets out of order and cannot be sorted"] else []
  let df ← assign df s.results
  return ⟨df, printed⟩

/-- The variables of the loop of `compute_jitter_and_transit`. -/
structure TransitLoop where
  results : List (ℚ × ℚ × ℚ)
  prevTransitTime : Option ℚ
  jitter : ℚ
  printed : List String

def transitIteration (s : TransitLoop) (r : Matched) : TransitLoop :=
  let transitTime := r.rts - r.sts
  if transitTime < 0 then { s with printed := s.printed ++ ["ERROR: Receive earlier before sent!"] }
  else
    let jitter :=
      match s.prevTransitTime with
      | some prev => s.jitter + (|transitTime - prev| - s.jitter) / 16
      | none => s.jitter
    { s with results := s.results ++ [(r.sts, transitTime, jitter)], prevTransitTime := some transitTime, jitter }

/-- `compute_jitter_and_transit`. -/
def computeJitterAndTransit (dfMatched : List Matched) : Output (List (ℚ × ℚ × ℚ)) :=
  let s := dfMatched.foldl transitIteration ⟨[], none, 0, []⟩
  ⟨s.results, s.printed⟩

/-! What the loops compute. -/

/-- The rows with a transit time that is not negative. -/
def kept (rows : List Matched) : List Matched := rows.filter (0 ≤ ·.transitTime)

/-- A row of `compute_jitter_and_transit`. -/
def report (r : Matched) (jitter : ℚ) : ℚ × ℚ × ℚ := (r.sts, r.transitTime, jitter)

theorem zipWith_report_inj {rows : List Matched} {js js' : List ℚ} (hlen : js.length = rows.length)
    (hlen' : js'.length = rows.length) :
    List.zipWith report rows js = List.zipWith report rows js' ↔ js = js' := by
  have hread : ∀ js : List ℚ, js.length = rows.length → (List.zipWith report rows js).map (·.2.2) = js := by
    intro js hlen
    calc (List.zipWith report rows js).map (·.2.2)
        = (rows.zip js).map Prod.snd := by rw [List.map_zipWith, List.map_zip_eq_zipWith]; rfl
      _ = js := List.map_snd_zip hlen.le
  constructor
  · intro h
    rw [← hread js hlen, h, hread js' hlen']
  · exact congrArg _

section Kept
variable {r : Matched} {rows : List Matched}

@[simp] theorem kept_nil : kept [] = [] := rfl

theorem kept_cons_neg (h : r.transitTime < 0) : kept (r :: rows) = kept rows :=
  List.filter_cons_of_neg (by simp [h])

theorem kept_cons_nonneg (h : ¬ r.transitTime < 0) : kept (r :: rows) = r :: kept rows :=
  List.filter_cons_of_pos (by simpa using h)

theorem kept_eq_nil : kept rows = [] ↔ ∀ r ∈ rows, r.transitTime < 0 := by
  simp [kept, List.filter_eq_nil_iff]

end Kept

section Calculate
variable {r : Matched}

theorem jitterIteration_neg (s : JitterLoop) (h : r.transitTime < 0) :
    jitterIteration s r = { s with errorCnt := s.errorCnt + 1, results := s.results ++ [0] } := if_pos h

theorem jitterIteration_nonneg (s : JitterLoop) (h : ¬ r.transitTime < 0) :
    jitterIteration s r =
      { s with
        jitter := smooth s.jitter s.prevTransitTime r.transitTime
        results := s.results ++ [smooth s.jitter s.prevTransitTime r.transitTime]
        prevTransitTime := r.transitTime } := if_neg h

/-- The loop adds one entry a row; the entries of the rows kept are the jitters after the transit time it started from. -/
theorem jitter_loop (rows : List Matched) (s : JitterLoop) :
    ∃ js, (rows.foldl jitterIteration s).results = s.results ++ js ∧ js.length = rows.length ∧
      (rows.zip js).filter (0 ≤ ·.1.transitTime) =
        (kept rows).zip (jittersFrom s.prevTransitTime s.jitter ((kept rows).map (·.transitTime))) := by
  induction rows generalizing s with
  | nil => exact ⟨[], by simp, rfl, rfl⟩
  | cons r rows ih =>
    rw [List.foldl_cons]
    by_cases hneg : r.transitTime < 0
    · obtain ⟨js, hres, hlen, hkept⟩ := ih (jitterIteration s r)
      rw [jitterIteration_neg s hneg] at hres hkept
      refine ⟨0 :: js, ?_, by simp [hlen], ?_⟩
      · rw [jitterIteration_neg s hneg, hres]
        simp
      · rw [List.zip_cons_cons, List.filter_cons_of_neg (by simp [hneg]), hkept, kept_cons_neg hneg]
    · obtain ⟨js, hres, hlen, hkept⟩ := ih (jitterIteration s r)
      rw [jitterIteration_nonneg s hneg] at hres hkept
      refine ⟨smooth s.jitter s.prevTransitTime r.transitTime :: js, ?_, by simp [hlen], ?_⟩
      · rw [jitterIteration_nonneg s hneg, hres]
        simp
      · rw [List.zip_cons_cons, List.filter_cons_of_pos (by simpa using hneg), hkept, kept_cons_nonneg hneg]
        rfl

theorem calculate_kept (first : Matched) (rows : List Matched) :
    ∃ printed js, calculateJitter (first :: rows) = .ok ⟨(first, 0) :: rows.zip js, printed⟩ ∧
      (rows.zip js).filter (0 ≤ ·.1.transitTime) =
        (kept rows).zip (jittersFrom first.transitTime 0 ((kept rows).map (·.transitTime))) := by
  obtain ⟨js, hres, hlen, hkept⟩ := jitter_loop rows ⟨0, 0, [0], first.transitTime⟩
  have hassign : assign (first :: rows) ([0] ++ js) = .ok ((first, 0) :: rows.zip js) := if_pos (by simp [hlen])
  have hcalc : ∃ printed, calculateJitter (first :: rows) = .ok ⟨(first, 0) :: rows.zip js, printed⟩ := by
    simp only [calculateJitter, getItem_zero_cons, Py.ok_bind, List.tail_cons]
    rw [hres, hassign]
    exact ⟨_, rfl⟩
  obtain ⟨printed, hcalc⟩ := hcalc
  exact ⟨printed, js, hcalc, hkept⟩

end Calculate

section Compute
variable {r : Matched}

theorem transitIteration_neg (s : TransitLoop) (h : r.transitTime < 0) :
    transitIteration s r = { s with printed := s.printed ++ ["ERROR: Receive earlier before sent!"] } := if_pos h

theorem transitIteration_none {s : TransitLoop} (h : ¬ r.transitTime < 0) (hprev : s.prevTransitTime = none) :
    transitIteration s r =
      { s with results := s.results ++ [report r s.jitter], prevTransitTime := some r.transitTime } := by
  simp only [transitIteration, hprev]
  exact if_neg h

theorem transitIteration_some {s : TransitLoop} {prev : ℚ} (h : ¬ r.transitTime < 0)
    (hprev : s.prevTransitTime = some prev) :
    transitIteration s r =
      { s with
        results := s.results ++ [report r (smooth s.jitter prev r.transitTime)]
        prevTransitTime := some r.transitTime
        jitter := smooth s.jitter prev r.transitTime } := by
  simp only [transitIteration, hprev]
  exact if_neg h

theorem transit_loop (rows : List Matched) {s : TransitLoop} {prev : ℚ} (hprev : s.prevTransitTime = some prev) :
    (rows.foldl transitIteration s).results =
      s.results ++ List.zipWith report (kept rows) (jittersFrom prev s.jitter ((kept rows).map (·.transitTime))) := by
  induction rows generalizing s prev with
  | nil => simp
  | cons r rows ih =>
    rw [List.foldl_cons]
    by_cases hneg : r.transitTime < 0
    · have hnext : (transitIteration s r).prevTransitTime = some prev := by
        rw [transitIteration_neg s hneg]
        exact hprev
      rw [ih hnext, transitIteration_neg s hneg, kept_cons_neg hneg]
    · have hnext : (transitIteration s r).prevTransitTime = some r.transitTime := by
        rw [transitIteration_some hneg hprev]
      rw [ih hnext, transitIteration_some hneg hprev, kept_cons_nonneg hneg, List.append_assoc]
      rfl

/-- **`compute_jitter_and_transit` reports the RFC 3550 jitter of the rows it keeps.** -/
theorem compute_rfc3550 (rows : List Matched) :
    (computeJitterAndTransit rows).value =
      List.zipWith report (kept rows) (rfc3550 ((kept rows).map (·.transitTime))) := by
  suffices h : ∀ printed, (rows.foldl transitIteration ⟨[], none, 0, printed⟩).results =
      List.zipWith report (kept rows) (rfc3550 ((kept rows).map (·.transitTime))) from h []
  induction rows with
  | nil => exact fun _ => rfl
  | cons r rows ih =>
    intro printed
    rw [List.foldl_cons]
    by_cases hneg : r.transitTime < 0
    · rw [transitIteration_neg _ hneg, kept_cons_neg hneg]
      exact ih _
    · rw [transitIteration_none hneg rfl, transit_loop rows rfl, kept_cons_nonneg hneg]
      rfl

end Compute

/-! Agreement. -/

/-- Row by row, the two give the rows with a transit time that is not negative the same jitter. -/
def JittersAgree (rows : List Matched) : Prop :=
  ∃ out, calculateJitter rows = .ok out ∧
    (out.value.filter (0 ≤ ·.1.transitTime)).map (fun r => report r.1 r.2) = (computeJitterAndTransit rows).value

/-- **The two jitters agree** iff there is a first row, and it is kept or no other row is. -/
theorem jitters_agree_iff (rows : List Matched) :
    JittersAgree rows ↔
      ∃ first rest, rows = first :: rest ∧ (0 ≤ first.transitTime ∨ ∀ r ∈ rest, r.transitTime < 0) := by
  rcases rows with _ | ⟨first, rest⟩
  · constructor
    · intro ⟨out, hout, _⟩
      cases hout
    · intro ⟨first, rest, h, _⟩
      cases h
  · obtain ⟨printed, js, hcalc, hkept⟩ := calculate_kept first rest
    -- the rows kept after the first one, as `calculate_jitter` has them
    have hrest : ((rest.zip js).filter (0 ≤ ·.1.transitTime)).map (fun r => report r.1 r.2) =
        List.zipWith report (kept rest) (jittersFrom first.transitTime 0 ((kept rest).map (·.transitTime))) := by
      rw [hkept, List.map_zip_eq_zipWith]
      rfl
    have hagree : JittersAgree (first :: rest) ↔
        (((first, 0) :: rest.zip js).filter (0 ≤ ·.1.transitTime)).map (fun r => report r.1 r.2) =
          List.zipWith report (kept (first :: rest)) (rfc3550 ((kept (first :: rest)).map (·.transitTime))) := by
      rw [← compute_rfc3550]
      constructor
      · intro ⟨out, hout, heq⟩
        obtain rfl := Except.ok.inj (hcalc.symm.trans hout)
        exact heq
      · exact fun heq => ⟨_, hcalc, heq⟩
    rw [hagree]
    by_cases hneg : first.transitTime < 0
    · have hlate : ∀ t ∈ (kept rest).map (·.transitTime), first.transitTime < t := by
        intro t ht
        obtain ⟨r, hr, rfl⟩ := List.mem_map.mp ht
        have hr0 : 0 ≤ r.transitTime := by simpa using (List.mem_filter.mp hr).2
        linarith
      rw [List.filter_cons_of_neg (by simp [hneg]), hrest, kept_cons_neg hneg,
        zipWith_report_inj (by simp) (by simp), jittersFrom_eq_rfc3550 hlate, List.map_eq_nil_iff, kept_eq_nil]
      constructor
      · exact fun h => ⟨first, rest, rfl, .inr h⟩
      · intro ⟨_, _, heq, h⟩
        cases heq
        exact h.resolve_left (not_le.mpr hneg)
    · rw [List.filter_cons_of_pos (by simpa using hneg), List.map_cons, hrest, kept_cons_nonneg hneg]
      exact ⟨fun _ => ⟨first, rest, rfl, .inl (not_lt.mp hneg)⟩, fun _ => rfl⟩

/-- A packet received before it was sent, and one after: the second one has a jitter of 1/8, or of 0. -/
theorem jitters_differ :
    (calculateJitter [⟨0, -1⟩, ⟨1, 2⟩]).map (·.value) = .ok [(⟨0, -1⟩, 0), (⟨1, 2⟩, 1 / 8)] ∧
      (computeJitterAndTransit [⟨0, -1⟩, ⟨1, 2⟩]).value = [(1, 1, 0)] ∧ ¬ JittersAgree [⟨0, -1⟩, ⟨1, 2⟩] := by
  have hcalc : (calculateJitter [⟨0, -1⟩, ⟨1, 2⟩]).map (·.value) = .ok [(⟨0, -1⟩, 0), (⟨1, 2⟩, 1 / 8)] := by
    decide +kernel
  have hcomp : (computeJitterAndTransit [⟨0, -1⟩, ⟨1, 2⟩]).value = [(1, 1, 0)] := by decide +kernel
  refine ⟨hcalc, hcomp, fun ⟨out, hout, heq⟩ => ?_⟩
  rw [hout] at hcalc
  have hvalue : out.value = [(⟨0, -1⟩, 0), (⟨1, 2⟩, 1 / 8)] := Except.ok.inj hcalc
  rw [hvalue, hcomp] at heq
  revert heq
  decide +kernel

end Handoff
