import Handoff.Python
import Mathlib.Data.Finset.Insert
import Mathlib.Data.List.Sort
import Mathlib.Logic.Function.Basic
import Mathlib.Order.Bounds.Basic

/- The two packet matchers: `map_packets` of rfc-jitter.py, a dictionary and a set of the numbers seen, and
   `calculate_transit` of parse-logs.py, a group-by and a join of pandas.

   `times ps k` are the times of the packets with sequence number `k`. The dictionary holds the least of them
   (`dict_run`), and a pass over packets in order of time meets it first (`match_run`). pandas is a parameter, of which
   `Documented` says what its documentation does. -/
namespace Handoff

/-- A packet of a log: when it was seen, its sequence number and its acknowledgement. -/
structure TcpPacket where
  time : ℚ
  seq : Nat
  ack : Nat
  deriving DecidableEq, Repr

/-! `map_packets`. -/

/-- The dictionary from a sequence number to the time and the acknowledgement of a packet sent. -/
abbrev SenderDict := Nat → Option (ℚ × Nat)

def senderIteration (senderDict : SenderDict) (p : TcpPacket) : SenderDict :=
  match senderDict p.seq with
  | some (sendTime, _) =>
    if p.time > sendTime then senderDict else Function.update senderDict p.seq (some (p.time, p.ack))
  | none => Function.update senderDict p.seq (some (p.time, p.ack))

structure MatchedPacket where
  seq : Nat
  ack : Nat
  sendTs : ℚ
  recvTs : ℚ
  deriving DecidableEq, Repr

/-- A row of the result: the names of the columns, or a matched packet. -/
inductive ResultRow
  | header (seq ack sendTs recvTs : String)
  | packet (r : MatchedPacket)
  deriving DecidableEq, Repr

/-- The variables of the second loop of `map_packets`. -/
structure MatchLoop where
  result : List ResultRow
  seen : Finset Nat
  printed : List String

def receiverIteration (senderDict : SenderDict) (s : MatchLoop) (p : TcpPacket) : MatchLoop :=
  match senderDict p.seq with
  | none => s
  | some (sendTime, senderAck) =>
    if p.ack ≠ senderAck then
      { s with printed := s.printed ++ ["Error: tcp ack unmatched but seq match",
          toString p.seq ++ " " ++ toString p.ack ++ " " ++ toString senderAck] }
    else if p.seq ∉ s.seen then
      { s with
        result := s.result ++ [.packet ⟨p.seq, p.ack, sendTime, p.time⟩]
        seen := insert p.seq s.seen }
    else s

/-- `map_packets`. -/
def mapPackets (sender receiver : List TcpPacket) : Output (List ResultRow) :=
  let senderDict := sender.foldl senderIteration fun _ => none
  let s := receiver.foldl (receiverIteration senderDict) ⟨[.header "seq" "ack" "send_ts" "recv_ts"], ∅, []⟩
  ⟨s.result, s.printed⟩

/-! `calculate_transit`. -/

/-- What `calculate_transit` uses of pandas: `groupby("seq", as_index=False)["epoch"].min()`, and `merge` on `seq`. -/
structure Pandas where
  groupbyMin : List (Nat × ℚ) → List (Nat × ℚ)
  merge : List (Nat × ℚ) → List (Nat × ℚ) → List (Nat × ℚ × ℚ)

/-- What the documentation says: a row for each key with the least value of its group, and the inner join. -/
structure Pandas.Documented (pd : Pandas) : Prop where
  groupby : ∀ df k t, (k, t) ∈ pd.groupbyMin df ↔ IsLeast { t | (k, t) ∈ df } t
  merge : ∀ left right k s t, (k, s, t) ∈ pd.merge left right ↔ (k, s) ∈ left ∧ (k, t) ∈ right

/-- A row of the table `calculate_transit` returns. -/
structure TransitRow where
  seq : Nat
  epochServer : ℚ
  epochClient : ℚ
  transitTime : ℚ
  time : ℚ
  deriving DecidableEq, Repr

/-- `calculate_transit`, of the columns `seq` and `epoch`. No number is missing, and `dropna` drops no row. -/
def calculateTransit (pd : Pandas) (dfServer dfClient : List (Nat × ℚ)) : Py (List TransitRow) := do
  let serverEarliest := pd.groupbyMin dfServer
  let clientEarliest := pd.groupbyMin dfClient
  let merged := pd.merge serverEarliest clientEarliest
  let first ← getItem merged 0
  return merged.map fun (seq, epochServer, epochClient) =>
    { seq, epochServer, epochClient, transitTime := epochClient - epochServer, time := epochClient - first.2.2 }

/-- The columns `seq` and `epoch` of a log. -/
def frame (ps : List TcpPacket) : List (Nat × ℚ) := ps.map fun p => (p.seq, p.time)

/-! The packets of one sequence number. -/

def seqs (ps : List TcpPacket) : List Nat := ps.map (·.seq)

/-- When the packets with sequence number `k` were seen. -/
def times (ps : List TcpPacket) (k : Nat) : Set ℚ := { t | (k, t) ∈ frame ps }

section Snoc
variable {ps : List TcpPacket} {p : TcpPacket} {k : Nat}

theorem seqs_snoc : seqs (ps ++ [p]) = seqs ps ++ [p.seq] := List.map_append

theorem mem_seqs_snoc : k ∈ seqs (ps ++ [p]) ↔ k ∈ seqs ps ∨ k = p.seq := by
  rw [seqs_snoc, List.mem_append, List.mem_singleton]

theorem idxOf_snoc (h : k ∈ seqs ps) : (seqs (ps ++ [p])).idxOf k = (seqs ps).idxOf k := by
  rw [seqs_snoc, List.idxOf_append_of_mem h]

theorem times_snoc_self : times (ps ++ [p]) p.seq = insert p.time (times ps p.seq) := by
  ext t
  simp [times, frame, or_comm]

theorem times_snoc_ne (h : k ≠ p.seq) : times (ps ++ [p]) k = times ps k := by
  ext t
  simp [times, frame, h]

theorem mem_seqs_of_times {t : ℚ} (h : t ∈ times ps k) : k ∈ seqs ps := by
  obtain ⟨p, hp, heq⟩ := List.mem_map.mp h
  exact List.mem_map.mpr ⟨p, hp, congrArg Prod.fst heq⟩

theorem times_empty (h : k ∉ seqs ps) : times ps k = ∅ :=
  Set.eq_empty_of_forall_notMem fun _ ht => h (mem_seqs_of_times ht)

end Snoc

/-! The dictionary. -/

/-- The dictionary of the packets sent: the earliest time of each sequence number. -/
structure IsDict (ps : List TcpPacket) (d : SenderDict) : Prop where
  mem : ∀ k, k ∈ seqs ps ↔ (d k).isSome
  least : ∀ k t a, d k = some (t, a) → IsLeast (times ps k) t ∧ ∃ p ∈ ps, p.seq = k ∧ p.ack = a

theorem senderIteration_keep {d : SenderDict} {p : TcpPacket} {t : ℚ} {a : Nat} (hd : d p.seq = some (t, a))
    (hlt : t < p.time) : senderIteration d p = d := by
  simp only [senderIteration, hd]
  exact if_pos hlt

theorem senderIteration_set {d : SenderDict} {p : TcpPacket} (h : ∀ t a, d p.seq = some (t, a) → p.time ≤ t) :
    senderIteration d p = Function.update d p.seq (some (p.time, p.ack)) := by
  rcases hd : d p.seq with _ | ⟨t, a⟩
  · simp only [senderIteration, hd]
  · simp only [senderIteration, hd]
    exact if_neg (not_lt.mpr (h t a hd))

theorem senderIteration_ne {d : SenderDict} {p : TcpPacket} {k : Nat} (h : k ≠ p.seq) :
    senderIteration d p k = d k := by
  by_cases hkeep : ∃ t a, d p.seq = some (t, a) ∧ t < p.time
  · obtain ⟨t, a, hd, hlt⟩ := hkeep
    rw [senderIteration_keep hd hlt]
  · rw [senderIteration_set fun t a hd => not_lt.mp fun hlt => hkeep ⟨t, a, hd, hlt⟩]
    exact Function.update_of_ne h _ _

theorem senderIteration_self {ps : List TcpPacket} {d : SenderDict} (h : IsDict ps d) (p : TcpPacket) :
    ∃ t a, senderIteration d p p.seq = some (t, a) ∧ IsLeast (insert p.time (times ps p.seq)) t ∧
      ∃ q ∈ ps ++ [p], q.seq = p.seq ∧ q.ack = a := by
  by_cases hkeep : ∃ t a, d p.seq = some (t, a) ∧ t < p.time
  · obtain ⟨t, a, hd, hlt⟩ := hkeep
    obtain ⟨hleast, q, hq, hqk⟩ := h.least p.seq t a hd
    have hmin := hleast.insert p.time
    rw [min_eq_right hlt.le] at hmin
    exact ⟨t, a, by rw [senderIteration_keep hd hlt, hd], hmin, q, List.mem_append_left _ hq, hqk⟩
  · have hset := senderIteration_set fun t a hd => not_lt.mp fun hlt => hkeep ⟨t, a, hd, hlt⟩
    refine ⟨p.time, p.ack, by rw [hset, Function.update_self], ⟨Set.mem_insert _ _, fun t ht => ?_⟩, p, by simp, rfl, rfl⟩
    obtain rfl | ht := ht
    · exact le_refl _
    · -- the dictionary has a time, the least so far
      have hin : (d p.seq).isSome := (h.mem p.seq).mp (mem_seqs_of_times ht)
      obtain ⟨⟨t', a'⟩, hd⟩ := Option.isSome_iff_exists.mp hin
      have hle : p.time ≤ t' := not_lt.mp fun hlt => hkeep ⟨t', a', hd, hlt⟩
      exact hle.trans ((h.least p.seq t' a' hd).1.2 ht)

theorem dict_step {ps : List TcpPacket} {d : SenderDict} (h : IsDict ps d) (p : TcpPacket) :
    IsDict (ps ++ [p]) (senderIteration d p) := by
  obtain ⟨t₀, a₀, hself, hleast, hack⟩ := senderIteration_self h p
  constructor
  · intro k
    by_cases hk : k = p.seq
    · simp [mem_seqs_snoc, hk, hself]
    · rw [mem_seqs_snoc, senderIteration_ne hk, or_iff_left hk]
      exact h.mem k
  · intro k t a hd
    by_cases hk : k = p.seq
    · obtain rfl := hk
      rw [hself] at hd
      cases hd
      rw [times_snoc_self]
      exact ⟨hleast, hack⟩
    · rw [senderIteration_ne hk] at hd
      obtain ⟨hleast, q, hq, hqk⟩ := h.least k t a hd
      rw [times_snoc_ne hk]
      exact ⟨hleast, q, List.mem_append_left _ hq, hqk⟩

theorem dict_run (ps : List TcpPacket) : IsDict ps (ps.foldl senderIteration fun _ => none) := by
  induction ps using List.reverseRecOn with
  | nil => exact ⟨fun k => by simp [seqs], nofun⟩
  | append_singleton ps p ih =>
    rw [List.foldl_append]
    exact dict_step ih p

/-! The pass over the packets received. -/

/-- One row for each sequence number in both lists, in order of first arrival, with its earliest times. -/
structure MatchedOnce (sender receiver : List TcpPacket) (rows : List MatchedPacket) : Prop where
  common : ∀ k, k ∈ rows.map (·.seq) ↔ k ∈ seqs sender ∧ k ∈ seqs receiver
  order : rows.Pairwise fun r r' => (seqs receiver).idxOf r.seq < (seqs receiver).idxOf r'.seq
  earliest : ∀ r ∈ rows, IsLeast (times sender r.seq) r.sendTs ∧ IsLeast (times receiver r.seq) r.recvTs

section Pass
variable {sender pre : List TcpPacket} {rows : List MatchedPacket} {p : TcpPacket}

theorem MatchedOnce.mem (h : MatchedOnce sender pre rows) {r : MatchedPacket} (hr : r ∈ rows) :
    r.seq ∈ seqs sender ∧ r.seq ∈ seqs pre :=
  (h.common r.seq).mp (List.mem_map_of_mem hr)

/-- The order of first arrival is not changed by a later packet. -/
theorem MatchedOnce.order_snoc (h : MatchedOnce sender pre rows) (p : TcpPacket) :
    rows.Pairwise fun r r' => (seqs (pre ++ [p])).idxOf r.seq < (seqs (pre ++ [p])).idxOf r'.seq := by
  refine h.order.imp_of_mem fun {r r'} hr hr' hlt => ?_
  rwa [idxOf_snoc (h.mem hr).2, idxOf_snoc (h.mem hr').2]

theorem least_snoc {k : Nat} {t : ℚ} (h : IsLeast (times pre k) t) (hlate : ∀ q ∈ pre, q.time ≤ p.time) :
    IsLeast (times (pre ++ [p]) k) t := by
  by_cases hk : k = p.seq
  · obtain rfl := hk
    obtain ⟨q, hq, heq⟩ := List.mem_map.mp h.1
    obtain rfl : q.time = t := congrArg Prod.snd heq
    have hle := hlate q hq
    rw [times_snoc_self]
    have hmin := h.insert p.time
    rwa [min_eq_right hle] at hmin
  · rwa [times_snoc_ne hk]

theorem MatchedOnce.skip (h : MatchedOnce sender pre rows) (hlate : ∀ q ∈ pre, q.time ≤ p.time)
    (hp : p.seq ∈ seqs sender → p.seq ∈ rows.map (·.seq)) : MatchedOnce sender (pre ++ [p]) rows where
  common k := by
    rw [h.common, mem_seqs_snoc]
    constructor
    · exact fun ⟨hs, hr⟩ => ⟨hs, .inl hr⟩
    · intro hall
      obtain ⟨hs, hr | rfl⟩ := hall
      · exact ⟨hs, hr⟩
      · exact (h.common _).mp (hp hs)
  order := h.order_snoc p
  earliest r hr := ⟨(h.earliest r hr).1, least_snoc (h.earliest r hr).2 hlate⟩

theorem MatchedOnce.add (h : MatchedOnce sender pre rows) (hlate : ∀ q ∈ pre, q.time ≤ p.time)
    (hsent : p.seq ∈ seqs sender) (hnew : p.seq ∉ rows.map (·.seq)) {t : ℚ} (ht : IsLeast (times sender p.seq) t) :
    MatchedOnce sender (pre ++ [p]) (rows ++ [⟨p.seq, p.ack, t, p.time⟩]) := by
  have hfirst : p.seq ∉ seqs pre := fun hmem => hnew ((h.common p.seq).mpr ⟨hsent, hmem⟩)
  constructor
  · intro k
    rw [List.map_append, List.mem_append, h.common, mem_seqs_snoc]
    simp only [List.map_cons, List.map_nil, List.mem_singleton]
    constructor
    · intro hall
      obtain ⟨hs, hr⟩ | rfl := hall
      · exact ⟨hs, .inl hr⟩
      · exact ⟨hsent, .inr rfl⟩
    · intro hall
      obtain ⟨hs, hr | rfl⟩ := hall
      · exact .inl ⟨hs, hr⟩
      · exact .inr rfl
  · refine List.pairwise_append.mpr ⟨h.order_snoc p, List.pairwise_singleton _ _, fun r hr r' hr' => ?_⟩
    obtain rfl := List.mem_singleton.mp hr'
    -- it comes after every packet before it
    calc (seqs (pre ++ [p])).idxOf r.seq
        = (seqs pre).idxOf r.seq := idxOf_snoc (h.mem hr).2
      _ < (seqs pre).length := List.idxOf_lt_length_of_mem (h.mem hr).2
      _ ≤ (seqs (pre ++ [p])).idxOf p.seq := by
          rw [seqs_snoc, List.idxOf_append_of_notMem hfirst]
          exact Nat.le_add_right _ _
  · intro r hr
    obtain hr | hr := List.mem_append.mp hr
    · exact ⟨(h.earliest r hr).1, least_snoc (h.earliest r hr).2 hlate⟩
    · obtain rfl := List.mem_singleton.mp hr
      refine ⟨ht, ?_⟩
      rw [times_snoc_self, times_empty hfirst, insert_empty_eq]
      exact isLeast_singleton

/-- The variables of the loop after some packets received. -/
structure MatchInv (sender pre : List TcpPacket) (rows : List MatchedPacket) (s : MatchLoop) : Prop where
  result : s.result = .header "seq" "ack" "send_ts" "recv_ts" :: rows.map .packet
  matched : MatchedOnce sender pre rows
  seen : ∀ k, k ∈ s.seen ↔ k ∈ rows.map (·.seq)

theorem match_step {d : SenderDict} {s : MatchLoop} (hd : IsDict sender d) (h : MatchInv sender pre rows s)
    (hlate : ∀ q ∈ pre, q.time ≤ p.time) (hack : ∀ q ∈ sender, q.seq = p.seq → q.ack = p.ack) :
    ∃ rows', MatchInv sender (pre ++ [p]) rows' (receiverIteration d s p) := by
  unfold receiverIteration
  rcases hp : d p.seq with _ | ⟨t, a⟩
  · have hnone : p.seq ∉ seqs sender := fun hmem => by simpa [hp] using (hd.mem p.seq).mp hmem
    exact ⟨rows, h.result, h.matched.skip hlate fun hs => absurd hs hnone, h.seen⟩
  · have hsent : p.seq ∈ seqs sender := (hd.mem p.seq).mpr (by rw [hp]; rfl)
    obtain ⟨hleast, q, hq, hseq, rfl⟩ := hd.least p.seq t a hp
    dsimp only
    rw [if_neg (not_not.mpr (hack q hq hseq).symm)]
    by_cases hseen : p.seq ∈ s.seen
    · rw [if_neg (not_not.mpr hseen)]
      exact ⟨rows, h.result, h.matched.skip hlate fun _ => (h.seen p.seq).mp hseen, h.seen⟩
    · rw [if_pos hseen]
      have hnew : p.seq ∉ rows.map (·.seq) := fun hmem => hseen ((h.seen p.seq).mpr hmem)
      refine ⟨rows ++ [⟨p.seq, p.ack, t, p.time⟩], ?_, h.matched.add hlate hsent hnew hleast, fun k => ?_⟩
      · simp [h.result]
      · simp [h.seen, or_comm]

theorem match_run {d : SenderDict} (hd : IsDict sender d) (receiver : List TcpPacket)
    (hsorted : receiver.Pairwise (·.time ≤ ·.time))
    (hack : ∀ p ∈ receiver, ∀ q ∈ sender, q.seq = p.seq → q.ack = p.ack) :
    ∃ rows, MatchInv sender receiver rows
      (receiver.foldl (receiverIteration d) ⟨[.header "seq" "ack" "send_ts" "recv_ts"], ∅, []⟩) := by
  induction receiver using List.reverseRecOn with
  | nil =>
    refine ⟨[], rfl, ⟨fun k => ?_, List.Pairwise.nil, nofun⟩, fun k => ?_⟩
    · simp [seqs]
    · simp
  | append_singleton receiver p ih =>
    obtain ⟨hsorted, -, hlate⟩ := List.pairwise_append.mp hsorted
    obtain ⟨rows, hinv⟩ := ih hsorted fun p hp => hack p (List.mem_append_left _ hp)
    rw [List.foldl_append]
    exact match_step hd hinv (fun q hq => hlate q hq p List.mem_cons_self)
      (hack p (List.mem_append_right _ List.mem_cons_self))

end Pass

/-! Agreement. -/

/-- Packets with the same sequence number carry the same acknowledgement. -/
def SameAcks (ps : List TcpPacket) : Prop := ∀ p ∈ ps, ∀ q ∈ ps, p.seq = q.seq → p.ack = q.ack

/-- `map_packets` returns its header and one row for each sequence number in both lists, and `calculate_transit` returns
    a table of the same numbers and times. -/
def MatchersAgree (pd : Pandas) (sender receiver : List TcpPacket) : Prop :=
  ∃ rows merged,
    (mapPackets sender receiver).value = .header "seq" "ack" "send_ts" "recv_ts" :: rows.map .packet ∧
    MatchedOnce sender receiver rows ∧
    calculateTransit pd (frame sender) (frame receiver) = .ok merged ∧
    ∀ k s t, (∃ r ∈ rows, r.seq = k ∧ r.sendTs = s ∧ r.recvTs = t) ↔
      ∃ m ∈ merged, m.seq = k ∧ m.epochServer = s ∧ m.epochClient = t

section Agree
variable {pd : Pandas} {sender receiver : List TcpPacket}

theorem mapPackets_matched (hsorted : receiver.Pairwise (·.time ≤ ·.time)) (hacks : SameAcks (sender ++ receiver)) :
    ∃ rows, (mapPackets sender receiver).value = .header "seq" "ack" "send_ts" "recv_ts" :: rows.map .packet ∧
      MatchedOnce sender receiver rows := by
  have hack : ∀ p ∈ receiver, ∀ q ∈ sender, q.seq = p.seq → q.ack = p.ack := fun p hp q hq =>
    hacks q (List.mem_append_left _ hq) p (List.mem_append_right _ hp)
  obtain ⟨rows, hinv⟩ := match_run (dict_run sender) receiver hsorted hack
  exact ⟨rows, hinv.result, hinv.matched⟩

/-- The triples of the rows are the earliest times of the numbers in both lists. -/
theorem MatchedOnce.triples {rows : List MatchedPacket} (h : MatchedOnce sender receiver rows) {k : Nat} {s t : ℚ} :
    (∃ r ∈ rows, r.seq = k ∧ r.sendTs = s ∧ r.recvTs = t) ↔
      IsLeast (times sender k) s ∧ IsLeast (times receiver k) t := by
  constructor
  · intro hall
    obtain ⟨r, hr, rfl, rfl, rfl⟩ := hall
    exact h.earliest r hr
  · intro ⟨hs, ht⟩
    have hk : k ∈ rows.map (·.seq) := (h.common k).mpr ⟨mem_seqs_of_times hs.1, mem_seqs_of_times ht.1⟩
    obtain ⟨r, hr, rfl⟩ := List.mem_map.mp hk
    exact ⟨r, hr, rfl, (h.earliest r hr).1.unique hs, (h.earliest r hr).2.unique ht⟩

theorem mem_merge (hpd : pd.Documented) {k : Nat} {s t : ℚ} :
    (k, s, t) ∈ pd.merge (pd.groupbyMin (frame sender)) (pd.groupbyMin (frame receiver)) ↔
      IsLeast (times sender k) s ∧ IsLeast (times receiver k) t := by
  rw [hpd.merge, hpd.groupby, hpd.groupby]
  rfl

theorem calculateTransit_ok {dfServer dfClient : List (Nat × ℚ)} {merged : List TransitRow}
    (h : calculateTransit pd dfServer dfClient = .ok merged) :
    pd.merge (pd.groupbyMin dfServer) (pd.groupbyMin dfClient) ≠ [] := by
  intro hempty
  rw [calculateTransit, hempty, getItem_zero_nil] at h
  cases h

theorem calculateTransit_rows {dfServer dfClient : List (Nat × ℚ)}
    (h : pd.merge (pd.groupbyMin dfServer) (pd.groupbyMin dfClient) ≠ []) :
    ∃ merged, calculateTransit pd dfServer dfClient = .ok merged ∧ ∀ k s t,
      (∃ m ∈ merged, m.seq = k ∧ m.epochServer = s ∧ m.epochClient = t) ↔
        (k, s, t) ∈ pd.merge (pd.groupbyMin dfServer) (pd.groupbyMin dfClient) := by
  obtain ⟨first, rest, hcons⟩ := List.exists_cons_of_ne_nil h
  rw [calculateTransit, hcons, getItem_zero_cons]
  refine ⟨_, rfl, fun k s t => ⟨?_, fun hm => ⟨_, List.mem_map_of_mem hm, rfl, rfl, rfl⟩⟩⟩
  intro hall
  obtain ⟨m, hm, rfl, rfl, rfl⟩ := hall
  obtain ⟨r, hr, rfl⟩ := List.mem_map.mp hm
  exact hr

end Agree

/-- **The two matchers agree** iff some sequence number is in both lists. -/
theorem matchers_agree_iff {pd : Pandas} (hpd : pd.Documented) {sender receiver : List TcpPacket}
    (hsorted : receiver.Pairwise (·.time ≤ ·.time)) (hacks : SameAcks (sender ++ receiver)) :
    MatchersAgree pd sender receiver ↔ ∃ k, k ∈ seqs sender ∧ k ∈ seqs receiver := by
  constructor
  · intro ⟨rows, merged, _, _, hcalc, _⟩
    obtain ⟨⟨k, s, t⟩, rest, hcons⟩ := List.exists_cons_of_ne_nil (calculateTransit_ok hcalc)
    have hmem := List.mem_cons_self (a := (k, s, t)) (l := rest)
    rw [← hcons, mem_merge hpd] at hmem
    exact ⟨k, mem_seqs_of_times hmem.1.1, mem_seqs_of_times hmem.2.1⟩
  · intro ⟨k, hk⟩
    obtain ⟨rows, hmap, hmatched⟩ := mapPackets_matched hsorted hacks
    obtain ⟨r, hr, -⟩ := List.mem_map.mp ((hmatched.common k).mpr hk)
    have hjoin := List.ne_nil_of_mem ((mem_merge hpd).mpr (hmatched.earliest r hr))
    obtain ⟨merged, hcalc, hmerged⟩ := calculateTransit_rows hjoin
    refine ⟨rows, merged, hmap, hmatched, hcalc, fun k s t => ?_⟩
    rw [hmatched.triples, hmerged, mem_merge hpd]

/-! A group-by and a join. -/

/-- The two operations of pandas, on lists of rows. -/
def listPandas : Pandas where
  groupbyMin df :=
    ((df.map (·.1)).dedup.mergeSort).filterMap fun k => ((df.filter (·.1 = k)).map (·.2)).min?.map (k, ·)
  merge left right := left.flatMap fun l => (right.filter (·.1 = l.1)).map fun r => (l.1, l.2, r.2)

theorem listPandas_documented : listPandas.Documented where
  groupby df k t := by
    -- the times of the group of `k`
    have hgroup : ∀ t, t ∈ (df.filter (·.1 = k)).map (·.2) ↔ (k, t) ∈ df := by
      intro t
      simp only [List.mem_map, List.mem_filter, decide_eq_true_eq]
      constructor
      · intro hall
        obtain ⟨r, ⟨hr, rfl⟩, rfl⟩ := hall
        exact hr
      · exact fun h => ⟨(k, t), ⟨h, rfl⟩, rfl⟩
    have hleast : ((df.filter (·.1 = k)).map (·.2)).min? = some t ↔ IsLeast { t | (k, t) ∈ df } t := by
      simp only [List.min?_eq_some_iff, hgroup]
      rfl
    rw [← hleast]
    simp only [listPandas, List.mem_filterMap, List.mem_mergeSort, List.mem_dedup, Option.map_eq_some_iff, Prod.mk.injEq]
    constructor
    · intro hall
      obtain ⟨k', -, t', hmin, rfl, rfl⟩ := hall
      exact hmin
    · intro hmin
      exact ⟨k, List.mem_map_of_mem (hleast.mp hmin).1, t, hmin, rfl, rfl⟩
  merge left right k s t := by
    simp only [listPandas, List.mem_flatMap, List.mem_map, List.mem_filter, decide_eq_true_eq]
    constructor
    · intro hall
      obtain ⟨l, hl, r, ⟨hr, hkey⟩, heq⟩ := hall
      cases heq
      refine ⟨hl, ?_⟩
      rwa [← hkey]
    · exact fun ⟨hl, hr⟩ => ⟨(k, s), hl, (k, t), ⟨hr, rfl⟩, rfl⟩

/-- Two lists with no number in common: the first row of the join is not there. -/
theorem matchers_differ :
    mapPackets [⟨0, 1, 0⟩] [⟨5, 2, 0⟩] = ⟨[.header "seq" "ack" "send_ts" "recv_ts"], []⟩ ∧
      calculateTransit listPandas (frame [⟨0, 1, 0⟩]) (frame [⟨5, 2, 0⟩]) = .error .indexError ∧
      ¬ MatchersAgree listPandas [⟨0, 1, 0⟩] [⟨5, 2, 0⟩] := by
  have hcalc : calculateTransit listPandas (frame [⟨0, 1, 0⟩]) (frame [⟨5, 2, 0⟩]) = .error .indexError := by
    decide +kernel
  refine ⟨rfl, hcalc, fun ⟨rows, merged, _, _, hok, _⟩ => ?_⟩
  rw [hcalc] at hok
  cases hok

/-- A retransmission, and a packet that arrives twice. -/
theorem matchers_agree_iff_twice :
    MatchersAgree listPandas [⟨0, 7, 1⟩, ⟨10, 7, 1⟩, ⟨20, 8, 1⟩] [⟨30, 8, 1⟩, ⟨31, 7, 1⟩, ⟨32, 8, 1⟩] := by
  refine (matchers_agree_iff listPandas_documented ?_ ?_).mpr ⟨7, ?_, ?_⟩
  · decide +kernel
  · unfold SameAcks
    decide +kernel
  · decide
  · decide

end Handoff
