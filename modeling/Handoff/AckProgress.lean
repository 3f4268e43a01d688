import Handoff.Lib.Serial
import Handoff.WorkerRun

/- The byte counter of the estimator against the true progress of the acknowledgements.

   A packet is given with its unwrapped acknowledgement number, of which it carries the low
   32 bits. What the ticks have sampled so far and what is pending add up to the highest
   number seen minus the first one, as long as no number falls behind the one before it
   (`counted_iff_in_order`). A number that does is counted as almost a whole turn of the
   32-bit range, since the guard on the difference compares an unsigned value with 0. -/
namespace Handoff

open Machine Serial

/-- A packet with its unwrapped acknowledgement number, or a tick. -/
inductive SampleInput
  | packet (u : Int) (p : Packet)
  | tick (tctx : TcpCtx)

/-- The window stage and the sampler on one worker. A tick puts out the count it takes. -/
def sampleStep (csum : List UInt8 → UInt16) (ctx : WorkerCtx) : SampleInput → C (WorkerCtx × List UInt64)
  | .packet _ p => do
    let s ← workerHandleRwnd csum ctx p.id p.nfa
    return (s.ctx, [])
  | .tick tctx => do
    let ctx' ← tcpSchedule tctx ctx
    return (ctx', [ctx.dataRcvd])

/-- The unwrapped numbers of the packets. -/
def acks (is : List SampleInput) : List Int :=
  is.filterMap fun i => match i with
    | .packet u _ => some u
    | .tick _ => none

/-- The counts the ticks took and the pending one. -/
def counted (ctx : WorkerCtx) (samples : List UInt64) : Nat :=
  (samples.map UInt64.toNat).sum + ctx.dataRcvd.toNat

/-- A packet is not behind the one before it. -/
def InOrder (u₀ : Int) (pre : List SampleInput) : SampleInput → Prop
  | .packet u _ => latest u₀ (acks pre) ≤ u
  | .tick _ => True

instance (u₀ : Int) (pre : List SampleInput) : (i : SampleInput) → Decidable (InOrder u₀ pre i)
  | .packet u _ => inferInstanceAs (Decidable (latest u₀ (acks pre) ≤ u))
  | .tick _ => .isTrue trivial

/-- An IPv4/TCP packet carries the low bits of its number, which is not far from the others. -/
def Near (u₀ : Int) (pre : List SampleInput) : SampleInput → Prop
  | .packet u p => Readable p.bytes ∧ Bytes.ack p.bytes = UInt32.ofInt u ∧ u - u₀ ≤ 2^31 ∧
      u - latest u₀ (acks pre) ≤ 2^31 ∧ latest u₀ (acks pre) - u ≤ 2^31
  | .tick _ => True

/-- While packets come in order: the worker has the latest number, it is the highest one, and
    everything up to it has been counted. -/
structure Tracking (u₀ : Int) (pre : List SampleInput) (ctx : WorkerCtx) (o : List UInt64) : Prop where
  on : ctx.doRwnd ≠ 0
  lastAck : ctx.lastAck = UInt32.ofInt (latest u₀ (acks pre))
  top : latest u₀ (acks pre) = highest u₀ (acks pre)
  count : (counted ctx o : Int) = highest u₀ (acks pre) - u₀
  bound : highest u₀ (acks pre) - u₀ ≤ 2^31

theorem toBitVec_ofInt (u : Int) : (UInt32.ofInt u).toBitVec = wrap 32 u := by
  refine BitVec.eq_of_toNat_eq ?_
  have h : (u % 2^32).toNat < 2^32 := by omega
  rw [wrap, BitVec.toNat_ofInt, UInt32.toNat_toBitVec, UInt32.ofInt, UInt32.toNat_ofNat', Nat.mod_eq_of_lt h]
  rfl

theorem toNat_sub_ack (u v : Int) : (UInt32.ofInt u - UInt32.ofInt v).toNat = (wrap 32 u - wrap 32 v).toNat := by
  rw [← toBitVec_ofInt, ← toBitVec_ofInt]
  rfl

section Runs
variable (csum : List UInt8 → UInt16)

theorem sampleStep_packet {ctx : WorkerCtx} (u : Int) {p : Packet} (hread : Readable p.bytes)
    (hon : ctx.doRwnd ≠ 0) :
    sampleStep csum ctx (.packet u p) = .ok ({ ctx with
      dataRcvd := ctx.dataRcvd + (Bytes.ack p.bytes - ctx.lastAck).toUInt64
      lastAck := Bytes.ack p.bytes }, []) := by
  have hr : Readable p.bytes ∧ ctx.doRwnd ≠ 0 := ⟨hread, hon⟩
  have hstage : workerHandleRwnd csum ctx p.id p.nfa = _ := workerHandleRwnd_some csum p.id rfl
  simp only [sampleStep, hstage, C.ok_bind, afterRwnd, if_pos hr, C.pure_eq_ok]

theorem acks_snoc_packet (pre : List SampleInput) (u : Int) (p : Packet) :
    acks (pre ++ [.packet u p]) = acks pre ++ [u] := by
  simp [acks]

theorem acks_snoc_tick (pre : List SampleInput) (tctx : TcpCtx) : acks (pre ++ [.tick tctx]) = acks pre := by
  simp [acks]

theorem counted_tick {ctx ctx' : WorkerCtx} {tctx : TcpCtx} (o : List UInt64) (h : tcpSchedule tctx ctx = .ok ctx') :
    counted ctx' (o ++ [ctx.dataRcvd]) = counted ctx o := by
  obtain ⟨t, rfl⟩ := tcpSchedule_ok h
  simp [counted]

theorem counted_packet {ctx : WorkerCtx} {o : List UInt64} {d ack : UInt32} (h : counted ctx o ≤ 2^31) :
    counted { ctx with dataRcvd := ctx.dataRcvd + d.toUInt64, lastAck := ack } o = counted ctx o + d.toNat := by
  have hd : d.toNat < 2^32 := UInt32.toNat_lt d
  have hle : ctx.dataRcvd.toNat ≤ counted ctx o := Nat.le_add_left _ _
  have hadd : (ctx.dataRcvd + d.toUInt64).toNat = ctx.dataRcvd.toNat + d.toNat := by
    rw [UInt64.toNat_add, UInt32.toNat_toUInt64]
    exact Nat.mod_eq_of_lt (by omega)
  simp only [counted, hadd]
  omega

variable {u₀ : Int} {pre : List SampleInput} {ctx : WorkerCtx} {o : List UInt64}

theorem Tracking.packet (t : Tracking u₀ pre ctx o) {u : Int} {p : Packet} {ctx' : WorkerCtx} {o' : List UInt64}
    (hn : Near u₀ pre (.packet u p)) (hle : latest u₀ (acks pre) ≤ u)
    (hs : sampleStep csum ctx (.packet u p) = .ok (ctx', o')) :
    Tracking u₀ (pre ++ [.packet u p]) ctx' (o ++ o') := by
  obtain ⟨hread, hack, hstart, hup, -⟩ := hn
  have hc := t.count
  have hb := t.bound
  have htop := t.top
  rw [sampleStep_packet csum u hread t.on] at hs
  cases hs
  have hmax : max (highest u₀ (acks pre)) u = u := by omega
  -- the wrapped difference is the true one
  have hd : ((Bytes.ack p.bytes - ctx.lastAck).toNat : Int) = u - latest u₀ (acks pre) := by
    rw [hack, t.lastAck, toNat_sub_ack]
    exact toNat_sub_of_le hle (by omega)
  rw [List.append_nil]
  refine ⟨t.on, ?_, ?_, ?_, ?_⟩
  · simpa [acks_snoc_packet] using hack
  · rw [acks_snoc_packet, latest_snoc, highest_snoc, hmax]
  · rw [acks_snoc_packet, highest_snoc, hmax, counted_packet (by omega)]
    push_cast
    omega
  · rw [acks_snoc_packet, highest_snoc, hmax]
    exact hstart

theorem Tracking.tick (t : Tracking u₀ pre ctx o) {tctx : TcpCtx} {ctx' : WorkerCtx} {o' : List UInt64}
    (hs : sampleStep csum ctx (.tick tctx) = .ok (ctx', o')) :
    Tracking u₀ (pre ++ [.tick tctx]) ctx' (o ++ o') := by
  simp only [sampleStep, C.bind_ok] at hs
  obtain ⟨w, hw, hs⟩ := hs
  cases hs
  have hcount := counted_tick o hw
  obtain ⟨r, rfl⟩ := tcpSchedule_ok hw
  refine ⟨t.on, ?_, ?_, ?_, ?_⟩
  · rw [acks_snoc_tick]
    exact t.lastAck
  · rw [acks_snoc_tick]
    exact t.top
  · rw [acks_snoc_tick, hcount]
    exact t.count
  · rw [acks_snoc_tick]
    exact t.bound

/-- A packet that falls behind is counted as a turn of the range less what it falls behind. -/
theorem Tracking.late (t : Tracking u₀ pre ctx o) {u : Int} {p : Packet} {ctx' : WorkerCtx} {o' : List UInt64}
    (hn : Near u₀ pre (.packet u p)) (hlt : u < latest u₀ (acks pre))
    (hs : sampleStep csum ctx (.packet u p) = .ok (ctx', o')) :
    highest u₀ (acks (pre ++ [.packet u p])) = highest u₀ (acks pre) ∧
    (counted ctx' (o ++ o') : Int) = counted ctx o + (2^32 - (latest u₀ (acks pre) - u)) := by
  obtain ⟨hread, hack, -, -, hdown⟩ := hn
  have hc := t.count
  have hb := t.bound
  have htop := t.top
  rw [sampleStep_packet csum u hread t.on] at hs
  cases hs
  have hd : ((Bytes.ack p.bytes - ctx.lastAck).toNat : Int) = 2^32 - (latest u₀ (acks pre) - u) := by
    rw [hack, t.lastAck, toNat_sub_ack]
    exact toNat_sub_of_lt hlt (by omega)
  constructor
  · rw [acks_snoc_packet, highest_snoc]
    omega
  · rw [List.append_nil, counted_packet (by omega)]
    push_cast
    omega

/-- **The count is the true progress after every step, exactly when the packets come in order.** -/
theorem counted_iff_in_order (u₀ : Int) (ctx₀ : WorkerCtx) (is : List SampleInput) (hon : ctx₀.doRwnd ≠ 0)
    (hzero : ctx₀.dataRcvd = 0) (hstart : ctx₀.lastAck = UInt32.ofInt u₀)
    (hcarry : ∀ u p, .packet u p ∈ is → Readable p.bytes ∧ Bytes.ack p.bytes = UInt32.ofInt u)
    (hspread : ∀ u ∈ u₀ :: acks is, ∀ v ∈ u₀ :: acks is, u - v ≤ 2^31) :
    EveryState (sampleStep csum) ctx₀ is
        (fun pre ctx o => (counted ctx o : Int) = highest u₀ (acks pre) - u₀) ↔
      EveryStep (sampleStep csum) ctx₀ is (fun pre _ i => InOrder u₀ pre i) := by
  have init : Tracking u₀ [] ctx₀ [] := by
    refine ⟨hon, hstart, rfl, ?_, ?_⟩
    · simp [counted, hzero, acks]
    · simp [acks]
  refine everyState_iff_everyStep (F := Near u₀) (I := Tracking u₀) init ?_ ?_ (fun _ _ _ t => t.count) ?_
  · intro pre ctx o i ctx' o' t hn hin hs
    cases i with
    | packet u p => exact t.packet csum hn hin hs
    | tick tctx => exact t.tick csum hs
  · intro pre ctx o i ctx' o' t hn hin hs hq
    cases i with
    | packet u p =>
      have hlt : u < latest u₀ (acks pre) := Int.not_le.mp hin
      obtain ⟨htop, hcount⟩ := t.late csum hn hlt hs
      have hc := t.count
      have hdown := hn.2.2.2.2
      rw [htop] at hq
      omega
    | tick tctx => exact hin trivial
  · intro pre i hp
    cases i with
    | packet u p =>
      have hmem : .packet u p ∈ is := hp.subset (by simp)
      have hu : u ∈ acks is := List.mem_filterMap.mpr ⟨_, hmem, rfl⟩
      have hlast : latest u₀ (acks pre) ∈ u₀ :: acks is := by
        rcases List.mem_cons.mp (latest_mem u₀ (acks pre)) with h | h
        · rw [h]
          exact List.mem_cons_self
        · obtain ⟨j, hj, hju⟩ := List.mem_filterMap.mp h
          exact List.mem_cons_of_mem _ (List.mem_filterMap.mpr ⟨j, (prefix_of_snoc hp).subset hj, hju⟩)
      obtain ⟨hread, hack⟩ := hcarry u p hmem
      have hu' := List.mem_cons_of_mem u₀ hu
      exact ⟨hread, hack, hspread u hu' u₀ List.mem_cons_self, hspread u hu' _ hlast, hspread _ hlast u hu'⟩
    | tick tctx => trivial

end Runs

/-! Two acknowledgements, the second one behind the first. -/

def lateAcks : List SampleInput := [.packet 2000 ⟨1, ackSegment 2000 100⟩, .packet 1500 ⟨2, ackSegment 1500 100⟩]

/-- A worker that rewrites, last acknowledged 1000. -/
def ackedWorker : WorkerCtx := { zeroWorker with doRwnd := 1, lastAck := 1000 }

theorem lateAcks_carry (u : Int) (p : Packet) (h : .packet u p ∈ lateAcks) :
    Readable p.bytes ∧ Bytes.ack p.bytes = UInt32.ofInt u := by
  simp only [lateAcks, List.mem_cons, SampleInput.packet.injEq, List.not_mem_nil, or_false] at h
  rcases h with ⟨rfl, rfl⟩ | ⟨rfl, rfl⟩ <;> decide

/-- Acknowledgements in order, a tick between them, the last one past 2^32. -/
def wrappedAcks : List SampleInput :=
  [.packet 4294967000 ⟨1, ackSegment 4294967000 100⟩, .tick zeroTcp,
   .packet 4294967000 ⟨2, ackSegment 4294967000 100⟩, .packet 4294968000 ⟨3, ackSegment 704 100⟩]

theorem wrappedAcks_carry (u : Int) (p : Packet) (h : .packet u p ∈ wrappedAcks) :
    Readable p.bytes ∧ Bytes.ack p.bytes = UInt32.ofInt u := by
  simp only [wrappedAcks, List.mem_cons, SampleInput.packet.injEq, reduceCtorEq, List.not_mem_nil, or_false,
    false_or] at h
  rcases h with ⟨rfl, rfl⟩ | ⟨rfl, rfl⟩ | ⟨rfl, rfl⟩ <;> decide

theorem counted_iff_in_order_late :
    (EveryState (sampleStep zeroCsum) ackedWorker lateAcks
        (fun pre ctx o => (counted ctx o : Int) = highest 1000 (acks pre) - 1000) ↔
      EveryStep (sampleStep zeroCsum) ackedWorker lateAcks (fun pre _ i => InOrder 1000 pre i)) ∧
    EveryState (sampleStep zeroCsum) { ackedWorker with lastAck := 4294966796 } wrappedAcks
        (fun pre ctx o => (counted ctx o : Int) = highest 4294966796 (acks pre) - 4294966796) :=
  ⟨counted_iff_in_order zeroCsum 1000 ackedWorker lateAcks (by decide) rfl (by decide) lateAcks_carry (by decide),
    (counted_iff_in_order zeroCsum 4294966796 _ wrappedAcks (by decide) rfl (by decide) wrappedAcks_carry
      (by decide)).mpr (by decide)⟩

/-- The late one is counted as 2^32 - 500 bytes. -/
theorem late_ack_counted :
    ¬ EveryState (sampleStep zeroCsum) ackedWorker lateAcks
        (fun pre ctx o => (counted ctx o : Int) = highest 1000 (acks pre) - 1000) := by
  intro h
  have hq := h lateAcks _ _ (List.prefix_refl _) rfl
  revert hq
  decide

end Handoff
