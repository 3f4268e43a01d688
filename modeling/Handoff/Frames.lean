import Handoff.DataFrame
import Mathlib.Algebra.Order.BigOperators.Group.List
import Mathlib.Order.Bounds.Basic
import Mathlib.Tactic.Ring

/- `estimate_frame` of parse-logs.py: when is each frame of a video stream complete?

   The code carries on the bytes a frame leaves over and completes at most one frame a packet. That is enough while no
   packet is longer than a frame: the frames emitted and the bytes left over then account for every byte so far
   (`frame_step`), so that the k-th frame is complete at the first packet at which the bytes reach k times the frame
   size. -/
namespace Handoff

/-- The columns of a captured packet the function reads. -/
structure FramePacket where
  time : ℚ
  seq : Nat
  len : ℚ
  deriving DecidableEq, Repr

/-- One entry of `frame_completion_timestamps`. -/
structure FrameCompletion where
  frame : Nat
  completionTime : ℚ
  completionTimeRaw : ℚ
  deriving DecidableEq, Repr

/-- A row of the result. -/
structure FrameRow extends FrameCompletion where
  interval : Option ℚ
  deriving DecidableEq, Repr

/-- The variables of the loop. -/
structure FrameLoop where
  accumulatedLength : ℚ
  frameCompletionTimestamps : List FrameCompletion
  frameNumber : Nat
  prevCompletionTime : ℚ

def frameStart : FrameLoop := ⟨0, [], 1, 0⟩

def frameIteration (frameSize : ℚ) (s : FrameLoop) (row : FramePacket) : FrameLoop :=
  let accumulatedLength := s.accumulatedLength + row.len
  if frameSize ≤ accumulatedLength then
    let adjustedTime := if row.time < s.prevCompletionTime then s.prevCompletionTime else row.time
    { accumulatedLength := accumulatedLength - frameSize
      frameCompletionTimestamps := s.frameCompletionTimestamps ++ [⟨s.frameNumber, adjustedTime, row.time⟩]
      frameNumber := s.frameNumber + 1
      prevCompletionTime := adjustedTime }
  else { s with accumulatedLength }

/-- `estimate_frame`. A frame of no rows has no column `completion_time`, which is a `KeyError`: `none`. -/
def estimateFrame (sortValues : List FramePacket → List FramePacket) (df : List FramePacket) (frameSize : ℚ) :
    Option (List FrameRow) :=
  let df := dropDuplicates (·.seq) (sortValues df)
  let s := df.foldl (frameIteration frameSize) frameStart
  match s.frameCompletionTimestamps with
  | [] => none
  | rows => some (List.zipWith FrameRow.mk rows (diff (rows.map (·.completionTime))))

/-- `by=["seq", "time"]`. -/
def BySeqTime (p q : FramePacket) : Prop := p.seq < q.seq ∨ p.seq = q.seq ∧ p.time ≤ q.time

instance : DecidableRel BySeqTime := fun p q =>
  inferInstanceAs (Decidable (p.seq < q.seq ∨ p.seq = q.seq ∧ p.time ≤ q.time))

/-! What the frames are. -/

/-- The bytes of some packets. -/
def cumulative (ps : List FramePacket) : ℚ := (ps.map (·.len)).sum

/-- `p` is the first packet at which the bytes so far reach `bytes`. -/
def FirstReaching (ps : List FramePacket) (bytes : ℚ) (p : FramePacket) : Prop :=
  ∃ before after, ps = before ++ p :: after ∧ bytes ≤ cumulative (before ++ [p]) ∧
    ∀ pre, pre <+: before → cumulative pre < bytes

/-- The frames of packets in the order of their sequence numbers. -/
structure FramesComplete (ps : List FramePacket) (frameSize : ℚ) (rows : List FrameRow) : Prop where
  exist : ∀ k : Nat, 1 ≤ k → (k ≤ rows.length ↔ k * frameSize ≤ cumulative ps)
  number : ∀ (k : Nat) row, rows[k]? = some row → row.frame = k + 1
  raw : ∀ (k : Nat) row, rows[k]? = some row →
    ∃ p, FirstReaching ps ((k + 1 : Nat) * frameSize) p ∧ row.completionTimeRaw = p.time
  time : ∀ (k : Nat) row, rows[k]? = some row →
    IsGreatest { t | t ∈ (rows.take (k + 1)).map (·.completionTimeRaw) } row.completionTime

@[simp] theorem cumulative_nil : cumulative [] = 0 := rfl

@[simp] theorem cumulative_snoc (ps : List FramePacket) (p : FramePacket) :
    cumulative (ps ++ [p]) = cumulative ps + p.len := by
  simp [cumulative]

theorem cumulative_append (ps qs : List FramePacket) : cumulative (ps ++ qs) = cumulative ps + cumulative qs := by
  simp [cumulative]

theorem cumulative_nonneg {ps : List FramePacket} (h : ∀ p ∈ ps, 0 ≤ p.len) : 0 ≤ cumulative ps := by
  apply List.sum_nonneg
  intro x hx
  obtain ⟨p, hp, rfl⟩ := List.mem_map.mp hx
  exact h p hp

theorem cumulative_mono {pre ps : List FramePacket} (h : ∀ p ∈ ps, 0 ≤ p.len) (hpre : pre <+: ps) :
    cumulative pre ≤ cumulative ps := by
  obtain ⟨rest, rfl⟩ := hpre
  have hrest := cumulative_nonneg fun p hp => h p (List.mem_append_right pre hp)
  rw [cumulative_append]
  linarith

theorem FirstReaching.append {ps : List FramePacket} {bytes : ℚ} {p : FramePacket} (h : FirstReaching ps bytes p)
    (qs : List FramePacket) : FirstReaching (ps ++ qs) bytes p := by
  obtain ⟨before, after, rfl, hreach, hbefore⟩ := h
  exact ⟨before, after ++ qs, by simp, hreach, hbefore⟩

theorem isGreatest_foldl_max {ts : List ℚ} (hne : ts ≠ []) (h : ∀ t ∈ ts, 0 ≤ t) :
    IsGreatest { t | t ∈ ts } (ts.foldl max 0) := by
  induction ts using List.reverseRecOn with
  | nil => exact absurd rfl hne
  | append_singleton ts t ih =>
    rw [List.foldl_append]
    show IsGreatest _ (max (ts.foldl max 0) t)
    have ht : 0 ≤ t := h t (by simp)
    by_cases hts : ts = []
    · subst hts
      simp [ht]
    · have hset : { t' | t' ∈ ts ++ [t] } = insert t { t' | t' ∈ ts } := by
        ext t'
        simp [or_comm]
      rw [hset, max_comm]
      exact (ih hts fun t' ht' => h t' (List.mem_append_left _ ht')).insert t

/-! The loop. -/

/-- The loop after some packets. -/
structure FrameInv (frameSize : ℚ) (pre : List FramePacket) (s : FrameLoop) : Prop where
  bytes : s.frameCompletionTimestamps.length * frameSize + s.accumulatedLength = cumulative pre
  nonneg : 0 ≤ s.accumulatedLength
  leftover : s.accumulatedLength < frameSize
  next : s.frameNumber = s.frameCompletionTimestamps.length + 1
  prev : s.prevCompletionTime = (s.frameCompletionTimestamps.map (·.completionTimeRaw)).foldl max 0
  emitted : ∀ (k : Nat) c, s.frameCompletionTimestamps[k]? = some c →
    c.frame = k + 1 ∧
    (∃ p, FirstReaching pre ((k + 1 : Nat) * frameSize) p ∧ c.completionTimeRaw = p.time) ∧
    c.completionTime = ((s.frameCompletionTimestamps.take (k + 1)).map (·.completionTimeRaw)).foldl max 0

section Loop
variable {frameSize : ℚ} {pre : List FramePacket} {s : FrameLoop} {row : FramePacket}

theorem frameIteration_short (h : s.accumulatedLength + row.len < frameSize) :
    frameIteration frameSize s row = { s with accumulatedLength := s.accumulatedLength + row.len } :=
  if_neg (not_le.mpr h)

/-- A late packet completes its frame when the frame before it was complete. -/
theorem frameIteration_full (h : frameSize ≤ s.accumulatedLength + row.len) :
    frameIteration frameSize s row =
      { accumulatedLength := s.accumulatedLength + row.len - frameSize
        frameCompletionTimestamps := s.frameCompletionTimestamps ++
          [⟨s.frameNumber, max s.prevCompletionTime row.time, row.time⟩]
        frameNumber := s.frameNumber + 1
        prevCompletionTime := max s.prevCompletionTime row.time } := by
  have hmax : (if row.time < s.prevCompletionTime then s.prevCompletionTime else row.time) =
      max s.prevCompletionTime row.time := by
    split
    · next hlt => exact (max_eq_left hlt.le).symm
    · next hle => exact (max_eq_right (not_lt.mp hle)).symm
  rw [← hmax]
  exact if_pos h

/-- The packet that completes a frame is the first to reach its bytes. -/
theorem FrameInv.reaches (h : FrameInv frameSize pre s) (hpre : ∀ p ∈ pre, 0 ≤ p.len)
    (hfull : frameSize ≤ s.accumulatedLength + row.len) :
    FirstReaching (pre ++ [row]) ((s.frameCompletionTimestamps.length + 1 : Nat) * frameSize) row := by
  have hbytes := h.bytes
  have hleft := h.leftover
  refine ⟨pre, [], rfl, ?_, fun pre' hpre' => ?_⟩
  · rw [cumulative_snoc, ← hbytes]
    push_cast
    linarith
  · have hle := cumulative_mono hpre hpre'
    push_cast
    linarith

/-- **One packet**, no longer than a frame, completes at most one frame. -/
theorem frame_step (h : FrameInv frameSize pre s) (hpre : ∀ p ∈ pre, 0 ≤ p.len) (hlen : 0 ≤ row.len)
    (hshort : row.len ≤ frameSize) : FrameInv frameSize (pre ++ [row]) (frameIteration frameSize s row) := by
  by_cases hfull : s.accumulatedLength + row.len < frameSize
  · rw [frameIteration_short hfull]
    refine ⟨?_, add_nonneg h.nonneg hlen, hfull, h.next, h.prev, fun k c hc => ?_⟩
    · rw [cumulative_snoc, ← h.bytes, add_assoc]
    · obtain ⟨hframe, ⟨p, hp, hraw⟩, htime⟩ := h.emitted k c hc
      exact ⟨hframe, ⟨p, hp.append _, hraw⟩, htime⟩
  · have hfull := not_lt.mp hfull
    have hleft := h.leftover
    have hreach := h.reaches hpre hfull
    rw [frameIteration_full hfull]
    refine ⟨?_, sub_nonneg.mpr hfull, by linarith, ?_, ?_, fun k c hc => ?_⟩
    · rw [cumulative_snoc, ← h.bytes, List.length_append, List.length_singleton]
      push_cast
      ring
    · rw [h.next, List.length_append, List.length_singleton]
    · rw [h.prev, List.map_append, List.foldl_append]
      rfl
    · generalize hn : s.frameCompletionTimestamps.length = n at hreach
      rw [List.getElem?_append, hn] at hc
      split at hc
      · next hk =>
        -- an earlier frame
        obtain ⟨hframe, ⟨p, hp, hraw⟩, htime⟩ := h.emitted k c hc
        refine ⟨hframe, ⟨p, hp.append _, hraw⟩, ?_⟩
        rw [List.take_append_of_le_length (by omega), htime]
      · next hk =>
        -- the frame this packet completes
        obtain ⟨hlast, rfl⟩ := List.getElem?_eq_some_iff.mp hc
        obtain rfl : k = n := by simp at hlast; omega
        rw [List.getElem_singleton]
        refine ⟨by rw [h.next, hn], ⟨row, hreach, rfl⟩, ?_⟩
        rw [List.take_of_length_le (by simp [hn]), List.map_append, List.foldl_append, h.prev]
        rfl

theorem frame_run (hframe : 0 < frameSize) (ps : List FramePacket) (hps : ∀ p ∈ ps, 0 ≤ p.len ∧ p.len ≤ frameSize) :
    FrameInv frameSize ps (ps.foldl (frameIteration frameSize) frameStart) := by
  induction ps using List.reverseRecOn with
  | nil => exact ⟨by simp [frameStart], le_refl 0, hframe, rfl, rfl, fun k c hc => by simp [frameStart] at hc⟩
  | append_singleton ps row ih =>
    obtain ⟨hlen, hshort⟩ := hps row (by simp)
    have hps' := fun p hp => hps p (List.mem_append_left _ hp)
    rw [List.foldl_append]
    exact frame_step (ih hps') (fun p hp => (hps' p hp).1) hlen hshort

theorem FrameInv.exist (h : FrameInv frameSize pre s) (hframe : 0 < frameSize) (k : Nat) :
    k ≤ s.frameCompletionTimestamps.length ↔ k * frameSize ≤ cumulative pre := by
  have hbytes := h.bytes
  have hleft := h.leftover
  have hnonneg := h.nonneg
  generalize s.frameCompletionTimestamps.length = n at hbytes
  refine ⟨fun hk => ?_, fun hk => ?_⟩
  · calc (k : ℚ) * frameSize ≤ n * frameSize := mul_le_mul_of_nonneg_right (by exact_mod_cast hk) hframe.le
      _ ≤ n * frameSize + s.accumulatedLength := le_add_of_nonneg_right hnonneg
      _ = cumulative pre := hbytes
  · by_contra hlt
    have hover : cumulative pre < cumulative pre := by
      calc cumulative pre = n * frameSize + s.accumulatedLength := hbytes.symm
        _ < (n + 1 : Nat) * frameSize := by push_cast; linarith
        _ ≤ k * frameSize := mul_le_mul_of_nonneg_right (by exact_mod_cast not_le.mp hlt) hframe.le
        _ ≤ cumulative pre := hk
    exact lt_irrefl _ hover

end Loop

/-! The result. -/

theorem zipWith_completions (cs : List FrameCompletion) (is : List (Option ℚ)) (h : cs.length = is.length) :
    (List.zipWith FrameRow.mk cs is).map (·.toFrameCompletion) = cs := by
  induction cs generalizing is with
  | nil => rfl
  | cons c cs ih =>
    cases is with
    | nil => simp at h
    | cons i is => exact congrArg (c :: ·) (ih is (by simpa using h))

theorem FrameInv.complete {frameSize : ℚ} {ps : List FramePacket} {s : FrameLoop} (h : FrameInv frameSize ps s)
    (hframe : 0 < frameSize) (htime : ∀ p ∈ ps, 0 ≤ p.time) {rows : List FrameRow}
    (hrows : rows.map (·.toFrameCompletion) = s.frameCompletionTimestamps) : FramesComplete ps frameSize rows := by
  have hget : ∀ (k : Nat) row, rows[k]? = some row →
      s.frameCompletionTimestamps[k]? = some row.toFrameCompletion := by
    intro k row hrow
    rw [← hrows, List.getElem?_map, hrow]
    rfl
  have hraws : ∀ k, (s.frameCompletionTimestamps.take k).map (·.completionTimeRaw) =
      (rows.take k).map (·.completionTimeRaw) := by
    intro k
    rw [← hrows, ← List.map_take, List.map_map]
    rfl
  refine ⟨fun k _ => ?_, fun k row hrow => (h.emitted k _ (hget k row hrow)).1,
    fun k row hrow => (h.emitted k _ (hget k row hrow)).2.1, fun k row hrow => ?_⟩
  · rw [← h.exist hframe, ← hrows, List.length_map]
  · rw [(h.emitted k _ (hget k row hrow)).2.2, hraws]
    apply isGreatest_foldl_max
    · have hmem : row ∈ rows.take (k + 1) := List.mem_of_getElem? (by rw [List.getElem?_take_of_succ, hrow])
      exact List.ne_nil_of_mem (List.mem_map_of_mem hmem)
    · intro t ht
      obtain ⟨r, hr, rfl⟩ := List.mem_map.mp ht
      obtain ⟨i, hi⟩ := List.mem_iff_getElem?.mp (List.mem_of_mem_take hr)
      obtain ⟨p, ⟨before, after, rfl, -⟩, hraw⟩ := (h.emitted i _ (hget i r hi)).2.1
      rw [hraw]
      exact htime p (by simp)

theorem sum_perm {df ps : List FramePacket} (h : ps.Perm df) : cumulative ps = cumulative df :=
  (h.map _).sum_eq

/-- **The frames are complete in time.** Every packet is no longer than a frame, and the packets fill at least one. -/
theorem frames_complete {sortValues : List FramePacket → List FramePacket} (hsort : SortsBy BySeqTime sortValues)
    {df : List FramePacket} {frameSize : ℚ} (hframe : 0 < frameSize) (hseq : (df.map (·.seq)).Nodup)
    (htime : ∀ p ∈ df, 0 ≤ p.time) (hlen : ∀ p ∈ df, 0 ≤ p.len ∧ p.len ≤ frameSize)
    (htotal : frameSize ≤ cumulative df) :
    (sortValues df).Perm df ∧ (sortValues df).Pairwise (·.seq < ·.seq) ∧
      (∃ rows, estimateFrame sortValues df frameSize = some rows ∧ FramesComplete (sortValues df) frameSize rows) ∧
      ∀ pre, pre <+: sortValues df →
        0 ≤ (pre.foldl (frameIteration frameSize) frameStart).accumulatedLength ∧
        (pre.foldl (frameIteration frameSize) frameStart).accumulatedLength < frameSize := by
  have hperm := hsort.perm df
  have hsorted := hsort.sorted df
  rw [← sum_perm hperm] at htotal
  have hnodup : ((sortValues df).map (·.seq)).Nodup := ((hperm.map _).nodup_iff).mpr hseq
  have htime' : ∀ p ∈ sortValues df, 0 ≤ p.time := fun p hp => htime p (hperm.mem_iff.mp hp)
  have hlen' : ∀ p ∈ sortValues df, 0 ≤ p.len ∧ p.len ≤ frameSize := fun p hp => hlen p (hperm.mem_iff.mp hp)
  unfold estimateFrame
  simp only [dropDuplicates_nodup hnodup]
  generalize sortValues df = ps at *
  refine ⟨hperm, ?_, ?_, fun pre hpre => ?_⟩
  · have hne : ps.Pairwise (·.seq ≠ ·.seq) := List.pairwise_map.mp hnodup
    refine (hsorted.and hne).imp fun {p q} h => ?_
    obtain ⟨hlt | ⟨heq, -⟩, hne⟩ := h
    · exact hlt
    · exact absurd heq hne
  · have hrun := frame_run hframe ps hlen'
    generalize ps.foldl (frameIteration frameSize) frameStart = s at hrun
    -- the first frame is there, so the table has its columns
    have hone : 1 ≤ s.frameCompletionTimestamps.length := (hrun.exist hframe 1).mpr (by simpa using htotal)
    have hrows := fun is h => zipWith_completions s.frameCompletionTimestamps is h
    obtain ⟨c, cs, hcs⟩ := List.exists_cons_of_length_pos hone
    refine ⟨_, by rw [hcs], hrun.complete hframe htime' ?_⟩
    rw [← hcs]
    exact hrows _ (by rw [length_diff, List.length_map])
  · have hrun := frame_run hframe pre fun p hp => hlen' p (hpre.subset hp)
    exact ⟨hrun.nonneg, hrun.leftover⟩

/-- `sort_values(by=["seq", "time"])` by a stable algorithm. -/
def sortBySeqTime (df : List FramePacket) : List FramePacket := df.mergeSort (BySeqTime · ·)

theorem sortBySeqTime_sortsBy : SortsBy BySeqTime sortBySeqTime := by
  refine sortsBy_mergeSort ?_ ?_
  · rintro p q r (hpq | ⟨hpq, ht⟩) (hqr | ⟨hqr, ht'⟩)
    · exact .inl (hpq.trans hqr)
    · exact .inl (hqr ▸ hpq)
    · exact .inl (hpq ▸ hqr)
    · exact .inr ⟨hpq.trans hqr, ht.trans ht'⟩
  · intro p q
    rcases lt_trichotomy p.seq q.seq with hlt | heq | hlt
    · exact .inl (.inl hlt)
    · exact (le_total p.time q.time).imp (fun h => .inr ⟨heq, h⟩) fun h => .inr ⟨heq.symm, h⟩
    · exact .inr (.inl hlt)

/-- Two frames of 1000 bytes; the packet that completes the first one comes last. -/
theorem frames_complete_late :
    let df : List FramePacket := [⟨3, 1, 600⟩, ⟨5, 601, 700⟩, ⟨4, 1301, 800⟩]
    (sortBySeqTime df).Perm df ∧ (sortBySeqTime df).Pairwise (·.seq < ·.seq) ∧
      (∃ rows, estimateFrame sortBySeqTime df 1000 = some rows ∧ FramesComplete (sortBySeqTime df) 1000 rows) ∧
      ∀ pre, pre <+: sortBySeqTime df →
        0 ≤ (pre.foldl (frameIteration 1000) frameStart).accumulatedLength ∧
        (pre.foldl (frameIteration 1000) frameStart).accumulatedLength < 1000 :=
  frames_complete sortBySeqTime_sortsBy (by norm_num) (by decide) (by decide +kernel) (by decide +kernel)
    (by norm_num [cumulative])

end Handoff
