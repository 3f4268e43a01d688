import Handoff.Lib.Overtaking
import Handoff.Reorder
import Handoff.Verdicts

/- How far a worker takes packets out of order.

   Only the reorder buffer lets a packet overtake another one. While a session is open each packet in the buffer has been
   overtaken by the packets that were let pass, and what it can still be overtaken by is what the counters leave
   (`OrderInv`): the sum only shrinks, so no packet is overtaken by more than a session allows (`overtaken_within`),
   whatever else happens to the worker in between. -/
namespace Handoff

open Machine

/-- The ids accepted, in order. -/
def acceptedIds (vs : List Verdict) : List UInt32 := (vs.filter fun v => !v.isDrop).map Verdict.id

@[simp] theorem acceptedIds_nil : acceptedIds [] = [] := rfl

@[simp] theorem acceptedIds_append (vs ws : List Verdict) : acceptedIds (vs ++ ws) = acceptedIds vs ++ acceptedIds ws := by
  simp [acceptedIds]

@[simp] theorem acceptedIds_drop (id : UInt32) : acceptedIds [.drop id] = [] := rfl

@[simp] theorem acceptedIds_accept (id mark : UInt32) (data : Option (List UInt8)) :
    acceptedIds [.accept id mark data] = [id] := rfl

@[simp] theorem acceptedIds_acceptAll (mark : UInt32) (ids : List UInt32) : acceptedIds (acceptAll mark ids) = ids := by
  simp [acceptedIds, acceptAll, List.filter_map, Function.comp_def]

/-- `room`: what the packets in the buffer have been overtaken by, and what they still may be. -/
structure OrderInv (B : Nat) (pre : List WorkerOp) (ctx : WorkerCtx) (vs : List Verdict) : Prop where
  delivered : ∀ id ∈ acceptedIds vs, id ∈ deliveredIds pre
  within : Overtaking.Within (deliveredIds pre) (acceptedIds vs) B
  room : ctx.doReorder ≠ 0 → ∃ k : Nat,
    (∀ id ∈ held ctx, id ∈ deliveredIds pre ∧ Overtaking.ahead (deliveredIds pre) (acceptedIds vs) id ≤ k) ∧
      k + (held ctx).length + ctx.reorderCount.toNat + ctx.reorderOffset.toNat ≤ B + 1

/-- The armed sessions that overtake by at most `B`. -/
def Arms (B : Nat) : WorkerOp → Prop
  | .setReorder enable count offset => enable ≠ 0 → min count.toNat workerMaxReorderCount + offset.toNat ≤ B + 1
  | _ => True

section Steps
variable {csum : List UInt8 → UInt16} {B : Nat} {pre : List WorkerOp} {ctx ctx' : WorkerCtx} {vs ws : List Verdict}

theorem buffer_kept {op : WorkerOp} (hpacket : op.packet? = none)
    (hset : ∀ enable count offset, op ≠ .setReorder enable count offset) (h : workerStep csum ctx op = .ok (ctx', ws)) :
    ws = [] ∧ ctx'.doReorder = ctx.doReorder ∧ ctx'.reorderCount = ctx.reorderCount ∧
      ctx'.reorderOffset = ctx.reorderOffset ∧ held ctx' = held ctx := by
  cases op with
  | callback nfa => cases hpacket
  | setReorder enable count offset => exact absurd rfl (hset enable count offset)
  | tcpSchedule tctx =>
    obtain ⟨w, hw, h⟩ := C.bind_ok.mp h
    cases h
    obtain ⟨t, rfl⟩ := tcpSchedule_ok hw
    exact ⟨rfl, rfl, rfl, rfl, rfl⟩
  | setDrop enable dropCount =>
    cases h
    unfold workerSetDrop
    split <;> exact ⟨rfl, rfl, rfl, rfl, rfl⟩
  | setBurst enable rwnd =>
    cases h
    unfold workerSetBurst
    split <;> exact ⟨rfl, rfl, rfl, rfl, rfl⟩
  | setAdapt enable rwnd =>
    cases h
    unfold workerSetAdapt
    split <;> exact ⟨rfl, rfl, rfl, rfl, rfl⟩
  | _ =>
    cases h
    exact ⟨rfl, rfl, rfl, rfl, rfl⟩

namespace OrderInv

theorem arrive (h : OrderInv B pre ctx vs) (nfa : NfqData) : OrderInv B (pre ++ [.callback nfa]) ctx vs := by
  have hdel : deliveredIds (pre ++ [.callback nfa]) = deliveredIds pre ++ [nfa.packetId] := deliveredIds_append _ _
  refine ⟨fun id hid => ?_, ?_, fun hon => ?_⟩
  · rw [hdel]
    exact List.mem_append_left _ (h.delivered id hid)
  · rw [hdel]
    exact h.within.arrive _ h.delivered
  · obtain ⟨k, hheld, hroom⟩ := h.room hon
    refine ⟨k, fun id hid => ?_, hroom⟩
    obtain ⟨hmem, hle⟩ := hheld id hid
    rw [hdel, Overtaking.ahead_arrive _ hmem h.delivered]
    exact ⟨List.mem_append_left _ hmem, hle⟩

/-- A packet that is accepted on arrival overtakes nobody that has left, and those in the buffer by one. -/
theorem accept (h : OrderInv B pre ctx vs) {nfa : NfqData} (hnew : nfa.packetId ∉ deliveredIds pre) (mark : UInt32)
    (data : Option (List UInt8)) :
    let pre' := pre ++ [.callback nfa]
    let vs' := vs ++ [.accept nfa.packetId mark data]
    (∀ id ∈ acceptedIds vs', id ∈ deliveredIds pre') ∧ Overtaking.Within (deliveredIds pre') (acceptedIds vs') B ∧
      ∀ id k, id ∈ deliveredIds pre → Overtaking.ahead (deliveredIds pre) (acceptedIds vs) id ≤ k →
        id ∈ deliveredIds pre' ∧ Overtaking.ahead (deliveredIds pre') (acceptedIds vs') id ≤ k + 1 := by
  have hdel : deliveredIds (pre ++ [.callback nfa]) = deliveredIds pre ++ [nfa.packetId] := deliveredIds_append _ _
  have hacc : acceptedIds (vs ++ [.accept nfa.packetId mark data]) = acceptedIds vs ++ [nfa.packetId] :=
    acceptedIds_append _ _
  simp only [hdel, hacc]
  refine ⟨?_, ?_, ?_⟩
  · intro id hid
    obtain hid | hid := List.mem_append.mp hid
    · exact List.mem_append_left _ (h.delivered id hid)
    · exact List.mem_append_right _ hid
  · exact (h.within.arrive _ h.delivered).leave (by rw [Overtaking.ahead_newest hnew h.delivered]; exact Nat.zero_le B)
  · intro id k hid hle
    refine ⟨List.mem_append_left _ hid, (Overtaking.ahead_snoc _ _ _ _).trans ?_⟩
    rw [Overtaking.ahead_arrive _ hid h.delivered]
    exact Nat.succ_le_succ hle

theorem release (hdel : ∀ id ∈ acceptedIds vs, id ∈ deliveredIds pre)
    (hwithin : Overtaking.Within (deliveredIds pre) (acceptedIds vs) B) {k : Nat}
    (hheld : ∀ id ∈ held ctx, id ∈ deliveredIds pre ∧ Overtaking.ahead (deliveredIds pre) (acceptedIds vs) id ≤ k)
    (hroom : k + (held ctx).length ≤ B + 1) (mark : UInt32) (hoff : ctx'.doReorder = 0) :
    OrderInv B pre ctx' (vs ++ acceptAll mark (held ctx).reverse) := by
  have hacc : acceptedIds (vs ++ acceptAll mark (held ctx).reverse) = acceptedIds vs ++ (held ctx).reverse := by simp
  refine ⟨?_, ?_, fun hon => absurd hoff hon⟩
  · rw [hacc]
    intro id hid
    obtain hid | hid := List.mem_append.mp hid
    · exact hdel id hid
    · exact (hheld id (List.mem_reverse.mp hid)).1
  · rw [hacc]
    refine hwithin.release _ (fun id hid => (hheld id (List.mem_reverse.mp hid)).2) ?_
    rwa [List.length_reverse]

/-- **A packet of a session.** -/
theorem session (h : OrderInv B pre ctx vs) {nfa : NfqData} (hnew : nfa.packetId ∉ deliveredIds pre)
    (hon : ctx.doReorder ≠ 0) (hstep : reorderStep ctx nfa.packetId = .ok (ctx', ws)) :
    OrderInv B (pre ++ [.callback nfa]) ctx' (vs ++ ws) := by
  obtain ⟨ctx₁, vs₁, hqueue, hend⟩ := reorderStep_ok hon hstep
  have harrived := h.arrive nfa
  have hdel : deliveredIds (pre ++ [.callback nfa]) = deliveredIds pre ++ [nfa.packetId] := deliveredIds_append _ _
  obtain ⟨k, hheld, hroom⟩ := harrived.room hon
  -- after the packet is queued or let pass the account is still within the bound
  have hnext : ∃ k', (∀ id ∈ acceptedIds (vs ++ vs₁), id ∈ deliveredIds (pre ++ [.callback nfa])) ∧
      Overtaking.Within (deliveredIds (pre ++ [.callback nfa])) (acceptedIds (vs ++ vs₁)) B ∧
      (∀ id ∈ held ctx₁, id ∈ deliveredIds (pre ++ [.callback nfa]) ∧
        Overtaking.ahead (deliveredIds (pre ++ [.callback nfa])) (acceptedIds (vs ++ vs₁)) id ≤ k') ∧
      k' + (held ctx₁).length + ctx₁.reorderCount.toNat + ctx₁.reorderOffset.toNat ≤ B + 1 := by
    obtain ⟨hc, hh, rfl, ids, hctx⟩ | ⟨hc, hh, hvs, hctx⟩ := reorderAdmit_ok hqueue
    · rw [List.append_nil]
      refine ⟨k, harrived.delivered, harrived.within, fun id hid => ?_, ?_⟩
      · rw [hh] at hid
        obtain hid | hid := List.mem_append.mp hid
        · exact hheld id hid
        · obtain rfl := List.mem_singleton.mp hid
          refine ⟨by rw [hdel]; simp, ?_⟩
          rw [hdel, Overtaking.ahead_newest hnew h.delivered]
          exact Nat.zero_le k
      · have hcount : ctx₁.reorderCount = ctx.reorderCount - 1 := by rw [hctx]
        have hoffset : ctx₁.reorderOffset = ctx.reorderOffset := by rw [hctx]
        rw [hh, List.length_append, List.length_singleton]
        omega
    · have hcount : ctx₁.reorderCount = ctx.reorderCount - 1 := by rw [hctx]
      have hoffset : ctx₁.reorderOffset = ctx.reorderOffset - 1 := by rw [hctx]
      by_cases ho : 0 < ctx.reorderOffset
      · rw [if_pos ho] at hvs
        obtain ⟨k₀, hheld₀, hroom₀⟩ := h.room hon
        obtain ⟨hmem, hwithin, hbehind⟩ := h.accept hnew ctx.mark none
        rw [hvs]
        refine ⟨k₀ + 1, hmem, hwithin, fun id hid => ?_, ?_⟩
        · obtain ⟨hid, hle⟩ := hheld₀ id (hh ▸ hid)
          exact hbehind id k₀ hid hle
        · rw [hh]
          omega
      · rw [if_neg ho] at hvs
        rw [hvs, List.append_nil]
        refine ⟨k, harrived.delivered, harrived.within, fun id hid => hheld id (hh ▸ hid), ?_⟩
        rw [hh]
        omega
  obtain ⟨k', hmem, hwithin, hheld', hroom'⟩ := hnext
  obtain ⟨-, rfl, rfl⟩ | ⟨-, rfl, rfl⟩ := hend
  · rw [← List.append_assoc]
    exact release hmem hwithin hheld' (by omega) ctx₁.mark rfl
  · exact ⟨hmem, hwithin, fun _ => ⟨k', hheld', hroom'⟩⟩

theorem keep (h : OrderInv B pre ctx vs) (hon : ctx'.doReorder = ctx.doReorder)
    (hcount : ctx'.reorderCount = ctx.reorderCount) (hoffset : ctx'.reorderOffset = ctx.reorderOffset)
    (hheld : held ctx' = held ctx) (hws : acceptedIds ws = []) : OrderInv B pre ctx' (vs ++ ws) := by
  have hacc : acceptedIds (vs ++ ws) = acceptedIds vs := by rw [acceptedIds_append, hws, List.append_nil]
  refine ⟨by rw [hacc]; exact h.delivered, by rw [hacc]; exact h.within, fun hon' => ?_⟩
  obtain ⟨k, hbehind, hroom⟩ := h.room (hon ▸ hon')
  exact ⟨k, by rwa [hacc, hheld], by rwa [hheld, hcount, hoffset]⟩

/-- **What one call preserves.** -/
theorem step (h : OrderInv B pre ctx vs) {op : WorkerOp} (hn : (deliveredIds (pre ++ [op])).Nodup) (hB : Arms B op)
    (hstep : workerStep csum ctx op = .ok (ctx', ws)) : OrderInv B (pre ++ [op]) ctx' (vs ++ ws) := by
  have hset : ∀ {op : WorkerOp}, op.packet? = none → deliveredIds (pre ++ [op]) = deliveredIds pre := by
    intro op hop
    rw [deliveredIds_append, deliveredIds_singleton, hop]
    exact List.append_nil _
  rcases hop : op.packet? with _ | nfa
  · have hdel := hset hop
    by_cases harm : ∃ enable count offset, op = .setReorder enable count offset
    · obtain ⟨enable, count, offset, rfl⟩ := harm
      cases hstep
      rw [List.append_nil]
      refine ⟨by rw [hdel]; exact h.delivered, by rw [hdel]; exact h.within, fun hon => ?_⟩
      have he : enable ≠ 0 := by
        intro he
        rw [he] at hon
        exact hon rfl
      have hroom : min count.toNat 1000 + offset.toNat ≤ B + 1 := hB he
      have s := session_armed ctx he count offset
      refine ⟨0, fun id hid => ?_, ?_⟩
      · rw [s.held] at hid
        cases hid
      · rw [s.held, s.count, s.offset, List.length_nil]
        omega
    · obtain ⟨rfl, hon, hcount, hoffset, hheld⟩ :=
        buffer_kept hop (fun enable count offset heq => harm ⟨enable, count, offset, heq⟩) hstep
      have hkept : OrderInv B pre ctx' (vs ++ []) := h.keep hon hcount hoffset hheld rfl
      exact ⟨by rw [hdel]; exact hkept.delivered, by rw [hdel]; exact hkept.within, by rw [hdel]; exact hkept.room⟩
  · obtain rfl : op = .callback nfa := by
      cases op <;> cases hop
      rfl
    have hnew : nfa.packetId ∉ deliveredIds pre := by
      rw [deliveredIds_append] at hn
      exact fun hmem => (List.nodup_append.mp hn).2.2 _ hmem _ (List.mem_singleton_self _) rfl
    have hdropped : OrderInv B pre (afterDrop ctx) vs := by
      have hkept : OrderInv B pre (afterDrop ctx) (vs ++ []) :=
        h.keep (afterDrop_doReorder ctx) (afterDrop_reorderCount ctx) (afterDrop_reorderOffset ctx) (by simp [held]) rfl
      rwa [List.append_nil] at hkept
    obtain ⟨⟨bs, hp⟩, hd⟩ := workerCallback_ok csum hstep
    simp only [workerStep, workerCallback_some csum hp hd] at hstep
    split at hstep
    · cases hstep
      exact (hdropped.arrive nfa).keep rfl rfl rfl rfl rfl
    · split at hstep
      · next hoff =>
        have hoff' : ctx'.doReorder = 0 := by
          have hfst : (finish csum (afterDrop ctx) nfa.packetId bs).1 = ctx' := congrArg Prod.fst (Except.ok.inj hstep)
          rw [finish_fst] at hfst
          rw [← hfst, afterRwnd_doReorder, afterDrop_doReorder, hoff]
        unfold finish at hstep
        split at hstep
        · cases hstep
          exact (hdropped.arrive nfa).keep rfl rfl rfl rfl rfl
        · cases hstep
          obtain ⟨hmem, hwithin, -⟩ := hdropped.accept hnew (afterDrop ctx).mark (rwndData csum (afterDrop ctx) bs)
          exact ⟨hmem, hwithin, fun hon => absurd hoff' hon⟩
      · next hon =>
        exact hdropped.session hnew (by rwa [afterDrop_doReorder]) hstep

theorem init (mem : WorkerCtx) : OrderInv B [] (workerInitCtx mem) [] where
  delivered := by simp
  within := Overtaking.Within.nil _ B
  room hon := absurd rfl hon

end OrderInv

end Steps

theorem orderInv_run (csum : List UInt8 → UInt16) (mem : WorkerCtx) {B : Nat} {ops : List WorkerOp}
    (hn : (deliveredIds ops).Nodup) (hB : ∀ op ∈ ops, Arms B op) {ctx : WorkerCtx} {vs : List Verdict}
    (h : run (workerStep csum) (workerInitCtx mem) ops = .ok (ctx, vs)) : OrderInv B ops ctx vs := by
  refine everyState_of_step (P := fun pre _ op => (deliveredIds (pre ++ [op])).Nodup ∧ Arms B op) (.init mem)
    (fun pre s o op s' o' hinv hop hs => hinv.step hop.1 hop.2 hs) ?_ ops ctx vs (List.prefix_refl ops) h
  refine EveryStep.of_inputs fun pre op hp => ⟨?_, hB op (hp.subset (by simp))⟩
  obtain ⟨post, rfl⟩ := hp
  rw [deliveredIds_append] at hn
  exact (List.nodup_append.mp hn).1

theorem decided_once (csum : List UInt8 → UInt16) (mem : WorkerCtx) {ops : List WorkerOp} (hn : (deliveredIds ops).Nodup)
    {ctx : WorkerCtx} {vs : List Verdict} (h : run (workerStep csum) (workerInitCtx mem) ops = .ok (ctx, vs)) :
    (vs.map Verdict.id).Nodup := by
  obtain ⟨lost, hb⟩ := run_accounted csum _ ops ops ctx vs (List.prefix_refl ops) h
  exact hb.decided_nodup (by rwa [live_init, List.nil_append])

/-- **No packet is overtaken by more than a session allows.** In every run of a fresh worker whose sessions are all armed
    with a count and an offset of `B + 1` together at most, a packet that is accepted has at most `B` packets ahead of
    it that arrived after it. Where no session is armed the packets are accepted in the order of their arrival. -/
theorem overtaken_within (csum : List UInt8 → UInt16) (mem : WorkerCtx) {B : Nat} {ops : List WorkerOp}
    (hn : (deliveredIds ops).Nodup) (hB : ∀ op ∈ ops, Arms B op) {ctx : WorkerCtx} {vs : List Verdict}
    (h : run (workerStep csum) (workerInitCtx mem) ops = .ok (ctx, vs)) :
    Overtaking.Within (deliveredIds ops) (acceptedIds vs) B ∧
      (B = 0 → (acceptedIds vs).Pairwise fun a b => (deliveredIds ops).idxOf a < (deliveredIds ops).idxOf b) := by
  have hinv := orderInv_run csum mem hn hB h
  refine ⟨hinv.within, ?_⟩
  rintro rfl
  have honce := decided_once csum mem hn h
  exact hinv.within.in_order (honce.sublist (List.filter_sublist.map _)) hinv.delivered

/-- A session of two packets and one that is let pass: the first packet is overtaken by the two others. -/
def overtakingRun : List WorkerOp :=
  [.setReorder 1 2 1, .callback (emptyPacket 1), .setDrop 1 1, .callback (emptyPacket 2), .callback (emptyPacket 3),
   .callback (emptyPacket 4), .callback (emptyPacket 5)]

theorem overtaken_within_run :
    ∃ ctx vs, run (workerStep zeroCsum) (workerInitCtx zeroWorker) overtakingRun = .ok (ctx, vs) ∧
      acceptedIds vs = [4, 3, 1, 5] ∧ Overtaking.Within (deliveredIds overtakingRun) (acceptedIds vs) 2 :=
  ⟨_, _, rfl, rfl, (overtaken_within zeroCsum zeroWorker (by decide)
    (by simp [overtakingRun, Arms]) rfl).1⟩

end Handoff
