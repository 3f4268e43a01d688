import Handoff.DataFrame
import Handoff.Lib.Serial

/- `check_rollover` of parse-logs.py: did the 32-bit sequence numbers of a capture roll over, so that packets cannot be
   matched by them any more?

   Behind the numbers are positions in the byte stream, and a rollover is a step between two packets into another block
   of 2^32 positions. Reordered packets can take it in both directions. A step into the later block is seen as a large
   fall of the numbers, which is what the code looks for (`rolloverPt_eq`); a step into the earlier one is a large rise,
   and is not seen. -/
namespace Handoff

open Serial

/-- The columns of a captured packet the function reads. -/
structure CapturedRow where
  time : ℚ
  epoch : ℚ
  seq : Nat
  deriving DecidableEq, Repr

/-- What `check_rollover` returns, and the rows it prints. -/
structure RolloverCheck where
  rolloverPt : List Nat
  printed : List CapturedRow
  deriving DecidableEq, Repr

def rolloverThreshold : Int := -2^31

/-- `check_rollover`. A comparison with NaN is false. The index is reset, so that `df.iloc[idx]` is the row the
    difference belongs to. -/
def checkRollover (sortValues : List CapturedRow → List CapturedRow) (df : List CapturedRow) : RolloverCheck :=
  let df := sortValues df
  let seqDiff := diff (df.map fun r => (r.seq : Int))
  let rows := ((df.zip seqDiff).filter fun r => r.2.any (· < rolloverThreshold)).map Prod.fst
  { rolloverPt := rows.map (·.seq), printed := rows }

/-! The stream behind the numbers. -/

/-- The sequence number of a position. -/
def seqNumber (u : Int) : Nat := (wrap 32 u).toNat

/-- The block of 2^32 positions it lies in. -/
def block (u : Int) : Int := turn 32 u

/-- The rows have the positions `us`, and neighbours are less than half the range apart. -/
structure Positions (rows : List CapturedRow) (us : List Int) : Prop where
  seq : rows.map (·.seq) = us.map seqNumber
  close : ∀ s ∈ steps us, |s.2 - s.1| < 2^31

def SameBlock (us : List Int) : Prop := ∀ u ∈ us, ∀ v ∈ us, block u = block v

/-- Some packet lies in a later block than the packet before it. -/
def StepsForward (us : List Int) : Prop := ∃ s ∈ steps us, block s.1 < block s.2

/-- Some packet lies in an earlier one. -/
def StepsBack (us : List Int) : Prop := ∃ s ∈ steps us, block s.2 < block s.1

instance (us : List Int) : Decidable (StepsForward us) := inferInstanceAs (Decidable (∃ s ∈ steps us, _))
instance (us : List Int) : Decidable (StepsBack us) := inferInstanceAs (Decidable (∃ s ∈ steps us, _))

theorem sameBlock_iff (us : List Int) : SameBlock us ↔ ¬ StepsForward us ∧ ¬ StepsBack us := by
  unfold SameBlock StepsForward StepsBack
  rw [constant_iff_steps block us]
  constructor
  · intro h
    exact ⟨fun ⟨s, hs, hlt⟩ => absurd (h s hs) hlt.ne, fun ⟨s, hs, hlt⟩ => absurd (h s hs) hlt.ne'⟩
  · intro ⟨hforward, hback⟩ s hs
    exact le_antisymm (not_lt.mp fun hlt => hback ⟨s, hs, hlt⟩) (not_lt.mp fun hlt => hforward ⟨s, hs, hlt⟩)

/-! What the code finds. -/

/-- The numbers that fall by more than half the range. -/
def falls (seqs : List Nat) : List Nat :=
  ((steps seqs).filter fun s => (s.2 : Int) - s.1 < rolloverThreshold).map Prod.snd

theorem rolloverPt_falls (sortValues : List CapturedRow → List CapturedRow) (df : List CapturedRow) :
    (checkRollover sortValues df).rolloverPt = falls ((sortValues df).map (·.seq)) := by
  unfold checkRollover falls
  rcases sortValues df with _ | ⟨r, rows⟩
  · rfl
  · simp only [zip_diff fun r : CapturedRow => (r.seq : Int), steps_map]
    rw [List.filter_cons_of_neg (by simp), List.filter_map, List.filter_map, List.map_map, List.map_map, List.map_map]
    rfl

/-- **The code finds the packets that step into a later block.** -/
theorem rolloverPt_eq {sortValues : List CapturedRow → List CapturedRow} {df : List CapturedRow} {us : List Int}
    (h : Positions (sortValues df) us) :
    (checkRollover sortValues df).rolloverPt =
      ((steps us).filter fun s => block s.1 < block s.2).map fun s => seqNumber s.2 := by
  rw [rolloverPt_falls, h.seq, falls, steps_map, List.filter_map, List.map_map]
  refine congrArg _ (List.filter_congr fun s hs => ?_)
  exact decide_eq_decide.mpr (turn_lt_iff (h.close s hs))

theorem rolloverPt_nil {sortValues : List CapturedRow → List CapturedRow} {df : List CapturedRow} {us : List Int}
    (h : Positions (sortValues df) us) : (checkRollover sortValues df).rolloverPt = [] ↔ ¬ StepsForward us := by
  rw [rolloverPt_eq h, List.map_eq_nil_iff, List.filter_eq_nil_iff]
  simp [StepsForward]

/-- A rollover is found if and only if there is one, so that packets can be told apart by their numbers when none is
    found. -/
structure RolloverTold (sortValues : List CapturedRow → List CapturedRow) (df : List CapturedRow) (us : List Int) :
    Prop where
  told : (checkRollover sortValues df).rolloverPt = [] ↔ SameBlock us
  unconfused : (checkRollover sortValues df).rolloverPt = [] →
    ∀ u ∈ us, ∀ v ∈ us, seqNumber u = seqNumber v → u = v

/-- **Rollovers are told** iff the capture steps into a later block if it steps into an earlier one. The capture is
    taken in the order the function goes through it. -/
theorem rollover_told_iff {sortValues : List CapturedRow → List CapturedRow} {df : List CapturedRow} {us : List Int}
    (h : Positions (sortValues df) us) : RolloverTold sortValues df us ↔ (StepsBack us → StepsForward us) := by
  constructor
  · intro htold hback
    by_contra hforward
    have hsame := htold.told.mp ((rolloverPt_nil h).mpr hforward)
    exact ((sameBlock_iff us).mp hsame).2 hback
  · intro hcond
    have htold : (checkRollover sortValues df).rolloverPt = [] ↔ SameBlock us := by
      rw [rolloverPt_nil h, sameBlock_iff]
      exact ⟨fun hforward => ⟨hforward, fun hback => hforward (hcond hback)⟩, And.left⟩
    refine ⟨htold, fun hnil u hu v hv hseq => ?_⟩
    exact wrap_inj (htold.mp hnil u hu v hv) (BitVec.eq_of_toNat_eq hseq)

/-- `df.sort_values(by="time")` by a stable algorithm. -/
def sortByTime (df : List CapturedRow) : List CapturedRow := df.mergeSort (·.time ≤ ·.time)

theorem sortByTime_sortsBy : SortsBy (fun r r' : CapturedRow => r.time ≤ r'.time) sortByTime :=
  sortsBy_mergeSort (fun _ _ _ => le_trans) fun _ _ => le_total _ _

/-- A capture that starts behind the rollover: the second packet was sent before it and comes late. -/
theorem rollover_missed :
    (checkRollover sortByTime [⟨0, 0, 5⟩, ⟨1, 1, 4294967286⟩]).rolloverPt = [] ∧
      Positions (sortByTime [⟨0, 0, 5⟩, ⟨1, 1, 4294967286⟩]) [4294967301, 4294967286] ∧
      ¬ SameBlock [4294967301, 4294967286] ∧
      ¬ RolloverTold sortByTime [⟨0, 0, 5⟩, ⟨1, 1, 4294967286⟩] [4294967301, 4294967286] := by
  have horder : sortByTime [⟨0, 0, 5⟩, ⟨1, 1, 4294967286⟩] = [⟨0, 0, 5⟩, ⟨1, 1, 4294967286⟩] :=
    sortByTime_sortsBy.of_ascending (by simp)
  have hpos : Positions (sortByTime [⟨0, 0, 5⟩, ⟨1, 1, 4294967286⟩]) [4294967301, 4294967286] := by
    rw [horder]
    exact ⟨by decide, by decide⟩
  have hforward : ¬ StepsForward [4294967301, 4294967286] := by decide
  have hsame : ¬ SameBlock [4294967301, 4294967286] := fun h =>
    absurd (h 4294967301 (by simp) 4294967286 (by simp)) (by decide)
  have hnil := (rolloverPt_nil hpos).mpr hforward
  exact ⟨hnil, hpos, hsame, fun htold => hsame (htold.told.mp hnil)⟩

/-- Two packets in order, on either side of the rollover. -/
theorem rollover_told_iff_forward :
    RolloverTold sortByTime [⟨0, 0, 4294967286⟩, ⟨1, 1, 5⟩] [4294967286, 4294967301] := by
  have horder : sortByTime [⟨0, 0, 4294967286⟩, ⟨1, 1, 5⟩] = [⟨0, 0, 4294967286⟩, ⟨1, 1, 5⟩] :=
    sortByTime_sortsBy.of_ascending (by simp)
  refine (rollover_told_iff ⟨?_, ?_⟩).mpr fun _ => by decide
  · rw [horder]
    decide
  · decide

end Handoff
