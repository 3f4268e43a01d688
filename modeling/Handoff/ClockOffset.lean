import Handoff.Jitter
import Handoff.PacketMatch

/- The jitter of rfc-jitter.py from the two logs on, and the clocks the logs were written by.

   The sender and the receiver have a clock each. `map_packets` compares times of the sender with one another only
   (`mapPackets_shift`), the table is sorted by the sender's times, and a jitter is made of differences of transit
   times. So an offset between the clocks moves the transit times and nothing else, until it moves one across zero:
   `compute_jitter_and_transit` leaves negative ones out (`clock_offset_iff`). -/
namespace Handoff

/-! The code. -/

/-- A row of matched.csv, which `read_csv` takes the names of the columns from the first row of. -/
def ResultRow.packet? : ResultRow → Option MatchedPacket
  | .header _ _ _ _ => none
  | .packet r => some r

/-- The columns `sts` and `rts`; `none` is the `KeyError` of a table with no rows. -/
def relativeTimes (df : List MatchedPacket) : Option (List Matched) :=
  df.head?.map fun first => df.map fun r => ⟨r.sendTs - first.sendTs, r.recvTs - first.sendTs⟩

/-- `sort_values("sts")`, which takes the rows in the order `argsort` finds for the column. -/
def sortBySts (argsort : List ℚ → List Nat) (df : List Matched) : List Matched :=
  (argsort (df.map (·.sts))).filterMap (df[·]?)

/-- rfc-jitter.py, from the packets of the two logs to the rows of jitter.csv. -/
def rfcJitter (argsort : List ℚ → List Nat) (sender receiver : List TcpPacket) :
    Option (Output (List (ℚ × ℚ × ℚ))) := do
  let df ← relativeTimes ((mapPackets sender receiver).value.filterMap ResultRow.packet?)
  return computeJitterAndTransit (sortBySts argsort df)

/-! What an offset does. -/

/-- A log by a clock that is `δ` ahead. -/
def shiftClock (δ : ℚ) (ps : List TcpPacket) : List TcpPacket := ps.map fun p => { p with time := p.time + δ }

/-- The rows of jitter.csv with transit times `c` longer. -/
def shiftTransit (c : ℚ) (out : Output (List (ℚ × ℚ × ℚ))) : Output (List (ℚ × ℚ × ℚ)) :=
  { out with value := out.value.map fun r => (r.1, r.2.1 + c, r.2.2) }

section Match
variable (δ ε : ℚ)

def shiftDict (d : SenderDict) : SenderDict := fun k => (d k).map fun e => (e.1 + δ, e.2)

def shiftRow (r : MatchedPacket) : MatchedPacket := { r with sendTs := r.sendTs + δ, recvTs := r.recvTs + ε }

def shiftResult : ResultRow → ResultRow
  | .header seq ack sendTs recvTs => .header seq ack sendTs recvTs
  | .packet r => .packet (shiftRow δ ε r)

def shiftLoop (s : MatchLoop) : MatchLoop := { s with result := s.result.map (shiftResult δ ε) }

theorem shiftDict_update (d : SenderDict) (k : Nat) (t : ℚ) (a : Nat) :
    shiftDict δ (Function.update d k (some (t, a))) = Function.update (shiftDict δ d) k (some (t + δ, a)) := by
  funext k'
  by_cases hk : k' = k
  · subst hk
    simp [shiftDict]
  · simp [shiftDict, hk]

theorem senderIteration_shift (d : SenderDict) (p : TcpPacket) :
    senderIteration (shiftDict δ d) { p with time := p.time + δ } = shiftDict δ (senderIteration d p) := by
  rcases hd : d p.seq with _ | ⟨t, a⟩
  · have hd' : shiftDict δ d p.seq = none := by rw [shiftDict, hd]; rfl
    simp only [senderIteration, hd, hd', shiftDict_update]
  · have hd' : shiftDict δ d p.seq = some (t + δ, a) := by rw [shiftDict, hd]; rfl
    simp only [senderIteration, hd, hd', gt_iff_lt, add_lt_add_iff_right]
    split
    · rfl
    · rw [shiftDict_update]

theorem receiverIteration_shift (d : SenderDict) (s : MatchLoop) (p : TcpPacket) :
    receiverIteration (shiftDict δ d) (shiftLoop δ ε s) { p with time := p.time + ε } =
      shiftLoop δ ε (receiverIteration d s p) := by
  rcases hd : d p.seq with _ | ⟨t, a⟩
  · have hd' : shiftDict δ d p.seq = none := by rw [shiftDict, hd]; rfl
    simp only [receiverIteration, hd, hd']
  · have hd' : shiftDict δ d p.seq = some (t + δ, a) := by rw [shiftDict, hd]; rfl
    simp only [receiverIteration, hd, hd', shiftLoop]
    by_cases hack : p.ack = a
    · by_cases hseen : p.seq ∈ s.seen
      · simp [hack, hseen]
      · simp [hack, hseen, shiftResult, shiftRow]
    · simp [hack]

/-- **Matching commutes with the clocks.** -/
theorem mapPackets_shift (sender receiver : List TcpPacket) :
    mapPackets (shiftClock δ sender) (shiftClock ε receiver) =
      { mapPackets sender receiver with value := (mapPackets sender receiver).value.map (shiftResult δ ε) } := by
  have hdict : ∀ d, (shiftClock δ sender).foldl senderIteration (shiftDict δ d) =
      shiftDict δ (sender.foldl senderIteration d) := by
    intro d
    rw [shiftClock, List.foldl_map]
    exact List.foldl_hom (shiftDict δ) (senderIteration_shift δ)
  have hloop : ∀ d s, (shiftClock ε receiver).foldl (receiverIteration (shiftDict δ d)) (shiftLoop δ ε s) =
      shiftLoop δ ε (receiver.foldl (receiverIteration d) s) := by
    intro d s
    rw [shiftClock, List.foldl_map]
    exact List.foldl_hom (shiftLoop δ ε) (receiverIteration_shift δ ε d)
  have hempty := hdict fun _ => none
  have hheader := hloop (sender.foldl senderIteration fun _ => none) ⟨[.header "seq" "ack" "send_ts" "recv_ts"], ∅, []⟩
  rw [← hempty] at hheader
  exact congrArg (fun s : MatchLoop => (⟨s.result, s.printed⟩ : Output (List ResultRow))) hheader

end Match

/-! The jitters. -/

section Jitters
variable (c : ℚ)

def Matched.late (r : Matched) : Matched := { r with rts := r.rts + c }

theorem transitTime_late (r : Matched) : (r.late c).transitTime = r.transitTime + c := add_sub_right_comm _ _ _

theorem jittersFrom_shift (ts : List ℚ) (prev jitter : ℚ) :
    jittersFrom (prev + c) jitter (ts.map (· + c)) = jittersFrom prev jitter ts := by
  induction ts generalizing prev jitter with
  | nil => rfl
  | cons t ts ih =>
    have hsmooth : smooth jitter (prev + c) (t + c) = smooth jitter prev t := by
      rw [smooth, smooth, add_sub_add_right_eq_sub]
    rw [List.map_cons, jittersFrom, jittersFrom, hsmooth, ih]

/-- **The jitters are those of the differences.** -/
theorem rfc3550_shift (ts : List ℚ) : rfc3550 (ts.map (· + c)) = rfc3550 ts := by
  rcases ts with _ | ⟨t, ts⟩
  · rfl
  · rw [List.map_cons, rfc3550, rfc3550, jittersFrom_shift]

theorem compute_printed (rows : List Matched) :
    (computeJitterAndTransit rows).printed =
      List.replicate (rows.length - (kept rows).length) "ERROR: Receive earlier before sent!" := by
  suffices h : ∀ s, (rows.foldl transitIteration s).printed =
      s.printed ++ List.replicate (rows.length - (kept rows).length) "ERROR: Receive earlier before sent!" from h _
  induction rows with
  | nil => simp
  | cons r rows ih =>
    intro s
    have hle : (kept rows).length ≤ rows.length := List.length_filter_le _ _
    rw [List.foldl_cons, ih]
    by_cases hneg : r.transitTime < 0
    · rw [transitIteration_neg s hneg, kept_cons_neg hneg, List.length_cons, Nat.sub_add_comm hle, List.append_assoc,
        List.replicate_succ]
      rfl
    · have hsame : (transitIteration s r).printed = s.printed := by
        rcases hprev : s.prevTransitTime with _ | prev
        · rw [transitIteration_none hneg hprev]
        · rw [transitIteration_some hneg hprev]
      rw [hsame, kept_cons_nonneg hneg, List.length_cons, List.length_cons, Nat.add_sub_add_right]

theorem kept_late (rows : List Matched) :
    kept (rows.map (Matched.late c)) = (rows.filter (0 ≤ ·.transitTime + c)).map (Matched.late c) := by
  rw [kept, List.filter_map]
  simp only [Function.comp_def, transitTime_late]

theorem filter_agree {p q : Matched → Prop} [DecidablePred p] [DecidablePred q] {rows : List Matched}
    (hpq : ∀ r, p r → q r) (hlen : (rows.filter p).length = (rows.filter q).length) : ∀ r ∈ rows, p r ↔ q r := by
  have hsub : (rows.filter p).Sublist (rows.filter q) :=
    List.monotone_filter_right rows fun r => by simpa using hpq r
  have heq := hsub.eq_of_length hlen
  intro r hr
  have hmem : r ∈ rows.filter p ↔ r ∈ rows.filter q := by rw [heq]
  simpa [hr] using hmem

/-- The rows that are later by `c` give the same jitters iff no transit time has crossed zero. -/
theorem compute_late_iff (rows : List Matched) :
    computeJitterAndTransit (rows.map (Matched.late c)) = shiftTransit c (computeJitterAndTransit rows) ↔
      ∀ r ∈ rows, 0 ≤ r.transitTime ↔ 0 ≤ r.transitTime + c := by
  have hvalue : ∀ out : Output (List (ℚ × ℚ × ℚ)), out = ⟨out.value, out.printed⟩ := fun _ => rfl
  constructor
  · intro h
    -- as many rows are kept, and those of one table are kept in the other one
    have hlen := congrArg (fun out : Output (List (ℚ × ℚ × ℚ)) => out.value.length) h
    simp only [shiftTransit, compute_rfc3550, List.length_map, List.length_zipWith, length_rfc3550, kept_late,
      Nat.min_self] at hlen
    have hmono : ∀ x : ℚ, (0 ≤ c → 0 ≤ x → 0 ≤ x + c) ∧ (c ≤ 0 → 0 ≤ x + c → 0 ≤ x) := fun x =>
      ⟨fun hc hx => by linarith, fun hc hx => by linarith⟩
    obtain hc | hc := le_total 0 c
    · exact fun r hr => filter_agree (fun r => (hmono r.transitTime).1 hc) hlen.symm r hr
    · exact fun r hr => (filter_agree (fun r => (hmono r.transitTime).2 hc) hlen r hr).symm
  · intro h
    have hkept : rows.filter (0 ≤ ·.transitTime + c) = kept rows :=
      List.filter_congr fun r hr => by simp [h r hr]
    have hreport : ∀ r j, report (r.late c) j = ((report r j).1, (report r j).2.1 + c, (report r j).2.2) := by
      intro r j
      rw [report, transitTime_late]
      rfl
    have htransit : ((kept rows).map (Matched.late c)).map (·.transitTime) = ((kept rows).map (·.transitTime)).map (· + c) := by
      simp only [List.map_map, Function.comp_def, transitTime_late]
    rw [hvalue (computeJitterAndTransit _), compute_rfc3550, compute_printed, kept_late, hkept, htransit, rfc3550_shift,
      shiftTransit, compute_rfc3550, compute_printed, List.length_map, List.length_map, List.map_zipWith,
      List.zipWith_map_left]
    simp only [hreport]

end Jitters

/-! The table. -/

/-- The packets of matched.csv. -/
def matchedPackets (sender receiver : List TcpPacket) : List MatchedPacket :=
  (mapPackets sender receiver).value.filterMap ResultRow.packet?

section Table
variable (δ ε : ℚ)

theorem matchedPackets_shift (sender receiver : List TcpPacket) :
    matchedPackets (shiftClock δ sender) (shiftClock ε receiver) = (matchedPackets sender receiver).map (shiftRow δ ε) := by
  have hpacket : ∀ r, (shiftResult δ ε r).packet? = r.packet?.map (shiftRow δ ε) := by
    intro r
    cases r <;> rfl
  simp only [matchedPackets, mapPackets_shift, List.filterMap_map, List.map_filterMap, Function.comp_def, hpacket]

theorem relativeTimes_shift (df : List MatchedPacket) :
    relativeTimes (df.map (shiftRow δ ε)) = (relativeTimes df).map (List.map (Matched.late (ε - δ))) := by
  rcases df with _ | ⟨first, df⟩
  · rfl
  · have hrow : ∀ r : MatchedPacket,
        (⟨r.sendTs + δ - (first.sendTs + δ), r.recvTs + ε - (first.sendTs + δ)⟩ : Matched) =
          Matched.late (ε - δ) ⟨r.sendTs - first.sendTs, r.recvTs - first.sendTs⟩ := by
      intro r
      rw [Matched.late, add_sub_add_right_eq_sub, add_sub_add_comm]
    simp only [relativeTimes, List.map_cons, List.head?_cons, Option.map_some, List.map_map, Function.comp_def, shiftRow,
      hrow]

theorem sortBySts_late (argsort : List ℚ → List Nat) (c : ℚ) (df : List Matched) :
    sortBySts argsort (df.map (Matched.late c)) = (sortBySts argsort df).map (Matched.late c) := by
  simp only [sortBySts, List.map_map, List.getElem?_map, List.map_filterMap]
  rfl

theorem filterMap_range (df : List Matched) : (List.range df.length).filterMap (df[·]?) = df := by
  induction df using List.reverseRecOn with
  | nil => rfl
  | append_singleton df r ih =>
    have hinit : (List.range df.length).filterMap ((df ++ [r])[·]?) = (List.range df.length).filterMap (df[·]?) :=
      List.filterMap_congr fun i hi => List.getElem?_append_left (List.mem_range.mp hi)
    rw [List.length_append, List.length_singleton, List.range_succ, List.filterMap_append, hinit, ih]
    simp

theorem sortBySts_perm {argsort : List ℚ → List Nat} (hsort : ∀ xs, (argsort xs).Perm (List.range xs.length))
    (df : List Matched) : (sortBySts argsort df).Perm df := by
  have hperm := (hsort (df.map (·.sts))).filterMap (df[·]?)
  rwa [List.length_map, filterMap_range] at hperm

end Table

/-- **An offset between the clocks moves the transit times only**, iff by neither clock's times a matched packet arrives
    before it is sent that does not by the other's. The rows of jitter.csv then keep their order, their times of
    sending and their jitters, and as many are left out. -/
theorem clock_offset_iff {argsort : List ℚ → List Nat} (hsort : ∀ xs, (argsort xs).Perm (List.range xs.length))
    (sender receiver : List TcpPacket) (δ ε : ℚ) :
    rfcJitter argsort (shiftClock δ sender) (shiftClock ε receiver) =
        (rfcJitter argsort sender receiver).map (shiftTransit (ε - δ)) ↔
      ∀ p ∈ matchedPackets sender receiver, p.sendTs ≤ p.recvTs ↔ p.sendTs + δ ≤ p.recvTs + ε := by
  have hjitter : ∀ sender receiver, rfcJitter argsort sender receiver =
      (relativeTimes (matchedPackets sender receiver)).map fun df => computeJitterAndTransit (sortBySts argsort df) := by
    intro sender receiver
    rw [rfcJitter, matchedPackets]
    rcases relativeTimes _ with _ | df <;> rfl
  rw [hjitter, hjitter, matchedPackets_shift, relativeTimes_shift]
  generalize matchedPackets sender receiver = ps
  rcases ps with _ | ⟨first, ps⟩
  · simp [relativeTimes]
  · have hsign : ∀ p : MatchedPacket,
        (0 ≤ p.recvTs - first.sendTs - (p.sendTs - first.sendTs) ↔ p.sendTs ≤ p.recvTs) ∧
          (0 ≤ p.recvTs - first.sendTs - (p.sendTs - first.sendTs) + (ε - δ) ↔ p.sendTs + δ ≤ p.recvTs + ε) :=
      fun p => ⟨⟨fun h => by linarith, fun h => by linarith⟩, ⟨fun h => by linarith, fun h => by linarith⟩⟩
    simp only [relativeTimes, List.head?_cons, Option.map_some, Option.some.injEq, sortBySts_late, compute_late_iff,
      (sortBySts_perm hsort _).mem_iff, List.forall_mem_map, Matched.transitTime, hsign]

/-- Clocks three apart, and no packet that takes less than three. -/
theorem clock_offset_iff_two :
    (rfcJitter (fun xs => List.range xs.length) (shiftClock 5 [⟨0, 1, 7⟩, ⟨1, 2, 7⟩])
      (shiftClock 2 [⟨4, 1, 7⟩, ⟨8, 2, 7⟩])).map (·.value) = some [(0, 1, 0), (1, 4, 3 / 16)] := by
  have hmatched : matchedPackets [⟨0, 1, 7⟩, ⟨1, 2, 7⟩] [⟨4, 1, 7⟩, ⟨8, 2, 7⟩] = [⟨1, 7, 0, 4⟩, ⟨2, 7, 1, 8⟩] := by
    decide +kernel
  rw [(clock_offset_iff (fun _ => .rfl) [⟨0, 1, 7⟩, ⟨1, 2, 7⟩] [⟨4, 1, 7⟩, ⟨8, 2, 7⟩] 5 2).mpr]
  · decide +kernel
  · rw [hmatched]
    decide +kernel

end Handoff
