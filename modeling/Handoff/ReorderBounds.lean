import Handoff.Environment
import Handoff.Stages
import Handoff.WorkerRun

/- The bounds of the reorder stage.

   The write of the stage does not check its index, and both counters are decremented by tests that fail. While a
   session is on, the cells filled and the packets still to be queued fit into the buffer together, and the count has
   fallen below zero no further than the offset has been used up (`Within`). A session that is switched off, by its
   last packet or by a call, may leave anything behind: arming one writes all three. -/
namespace Handoff

open Machine

/-- What happens to a worker: a call of `worker_set_reorder`, or a packet. -/
inductive ReorderCall
  | set (enable : Int) (count offset : UInt16)
  | packet (nfa : NfqData)

@[simp] def ReorderCall.op : ReorderCall → WorkerOp
  | .set enable count offset => .setReorder enable count offset
  | .packet nfa => .callback nfa

/-- A session in progress. -/
structure Within (ctx : WorkerCtx) : Prop where
  cur : 0 ≤ ctx.reorderIdCur
  room : ctx.reorderIdCur + max ctx.reorderCount 0 ≤ workerMaxReorderCount
  offset : 0 ≤ ctx.reorderOffset ∧ ctx.reorderOffset ≤ 65535
  count : ctx.reorderOffset ≤ ctx.reorderCount + 65535

/-- A worker on which only these calls are made: its drop stage is never armed. -/
structure ReorderInv (ctx : WorkerCtx) : Prop where
  noDrop : ctx.doDrop = 0
  within : ctx.doReorder ≠ 0 → Within ctx

/-- The next packet finds what it indexes in the buffer, and can be counted. -/
structure CanQueue (ctx : WorkerCtx) : Prop where
  cells : 0 ≤ ctx.reorderIdCur ∧ ctx.reorderIdCur ≤ workerMaxReorderCount
  next : 0 < ctx.reorderCount → InTable workerMaxReorderCount ctx.reorderIdCur
  count : intMin < ctx.reorderCount
  offset : intMin < ctx.reorderOffset

/-- The packets a session still takes, the last of which ends it. -/
def packetsLeft (ctx : WorkerCtx) : Int := max 1 (max ctx.reorderCount 0 + ctx.reorderOffset)

section Stage
variable {ctx ctx' : WorkerCtx} {id : UInt32} {vs : List Verdict}

theorem Within.canQueue (h : Within ctx) : CanQueue ctx := by
  obtain ⟨hcur, hroom, ⟨hoff, hoff'⟩, hcount⟩ := h
  refine ⟨⟨hcur, by omega⟩, fun hpos => ⟨hcur, by omega⟩, ?_, ?_⟩
  · unfold intMin
    omega
  · unfold intMin
    omega

theorem defined_reorderAdmit (h : CanQueue ctx) : Defined (reorderAdmit ctx id) := by
  unfold reorderAdmit
  rw [decInt_ok.mpr ⟨h.count, rfl⟩, C.ok_bind]
  split
  · next hpos =>
    obtain ⟨ids, hw⟩ := defined_writeAt.mpr (h.next hpos)
    rw [hw]
    exact ⟨_, rfl⟩
  · rw [decInt_ok.mpr ⟨h.offset, rfl⟩]
    exact ⟨_, rfl⟩

theorem reorderAdmit_fits (h : Within ctx) (hqueue : reorderAdmit ctx id = .ok (ctx', vs)) :
    ctx'.reorderIdCur.toNat ≤ workerMaxReorderCount := by
  have hcur := h.cur
  have hroom := h.room
  obtain ⟨hpos, -, -, ids, rfl⟩ | ⟨-, -, -, rfl⟩ := reorderAdmit_ok hqueue
  · show (ctx.reorderIdCur + 1).toNat ≤ _
    omega
  · show ctx.reorderIdCur.toNat ≤ _
    omega

/-- **Every index is inside the buffer, and no counter leaves its type.** -/
theorem defined_workerHandleReorder (h : ctx.doReorder ≠ 0 → Within ctx) : Defined (workerHandleReorder ctx id) := by
  unfold workerHandleReorder
  split
  · exact ⟨_, rfl⟩
  · next hon =>
    have hadmitted : Defined (reorderAdmit ctx id) := defined_reorderAdmit (h hon).canQueue
    obtain ⟨⟨ctx₁, vs₁⟩, hqueue⟩ := hadmitted
    rw [hqueue, C.ok_bind]
    simp only
    split
    · rw [releaseQueued_eq, if_pos (reorderAdmit_fits (h hon) hqueue)]
      exact ⟨_, rfl⟩
    · exact ⟨_, rfl⟩

/-- **A packet of a session** ends it or leaves it one packet less. -/
theorem within_step (hon : ctx.doReorder ≠ 0) (h : Within ctx) (hstep : reorderStep ctx id = .ok (ctx', vs)) :
    ctx'.doDrop = ctx.doDrop ∧
      (ctx'.doReorder = 0 ∨ ctx'.doReorder ≠ 0 ∧ Within ctx' ∧ packetsLeft ctx' = packetsLeft ctx - 1) := by
  obtain ⟨hcur, hroom, ⟨hoff, hoff'⟩, hcount⟩ := h
  obtain ⟨ctx₁, vs₁, hqueue, ⟨-, rfl, -⟩ | ⟨hleft, rfl, -⟩⟩ := reorderStep_ok hon hstep
  · refine ⟨?_, .inl rfl⟩
    obtain ⟨-, -, -, ids, rfl⟩ | ⟨-, -, -, rfl⟩ := reorderAdmit_ok hqueue
    · rfl
    · rfl
  · obtain ⟨hpos, -, -, ids, rfl⟩ | ⟨hneg, -, -, rfl⟩ := reorderAdmit_ok hqueue
    · -- queued
      simp only at hleft
      refine ⟨rfl, .inr ⟨hon, ⟨?_, ?_, ⟨hoff, hoff'⟩, ?_⟩, ?_⟩⟩
      · show 0 ≤ ctx.reorderIdCur + 1
        omega
      · show ctx.reorderIdCur + 1 + max (ctx.reorderCount - 1) 0 ≤ _
        omega
      · show ctx.reorderOffset ≤ ctx.reorderCount - 1 + 65535
        omega
      · show max 1 (max (ctx.reorderCount - 1) 0 + ctx.reorderOffset) = packetsLeft ctx - 1
        unfold packetsLeft
        omega
    · -- passed
      simp only at hleft
      refine ⟨rfl, .inr ⟨hon, ⟨hcur, ?_, ⟨?_, ?_⟩, ?_⟩, ?_⟩⟩
      · show ctx.reorderIdCur + max (ctx.reorderCount - 1) 0 ≤ _
        omega
      · exact hleft.le
      · show ctx.reorderOffset - 1 ≤ 65535
        omega
      · show ctx.reorderOffset - 1 ≤ ctx.reorderCount - 1 + 65535
        omega
      · show max 1 (max (ctx.reorderCount - 1) 0 + (ctx.reorderOffset - 1)) = packetsLeft ctx - 1
        unfold packetsLeft
        omega

end Stage

theorem within_armed (ctx : WorkerCtx) {enable : Int} (he : enable ≠ 0) (count offset : UInt16) :
    Within (workerSetReorder ctx enable count offset) ∧
      packetsLeft (workerSetReorder ctx enable count offset) =
        max 1 (min count.toNat workerMaxReorderCount + offset.toNat : Nat) := by
  have hoff := offset.toNat_lt
  rw [workerSetReorder_armed ctx he]
  refine ⟨⟨le_refl 0, ?_, ⟨?_, ?_⟩, ?_⟩, ?_⟩
  · simp only
    omega
  · simp only
    omega
  · simp only
    omega
  · simp only
    omega
  · simp only [packetsLeft]
    omega

section Run
variable {csum : List UInt8 → UInt16} {ctx ctx' : WorkerCtx} {vs : List Verdict}

theorem callback_payload {nfa : NfqData} {bs : List UInt8} (hbs : nfa.payload = some bs) (hd : ctx.doDrop = 0) :
    workerStep csum ctx (.callback nfa) =
      if ctx.doReorder = 0 then .ok (finish csum ctx nfa.packetId bs) else reorderStep ctx nfa.packetId := by
  obtain ⟨id, payload⟩ := nfa
  cases hbs
  exact callback_no_drop csum ⟨id, bs⟩ hd

theorem packet_step (h : ReorderInv ctx) {nfa : NfqData} (hstep : workerStep csum ctx (.callback nfa) = .ok (ctx', vs)) :
    ReorderInv ctx' ∧ (ctx'.doReorder = 0 ∨ ctx.doReorder ≠ 0 ∧ packetsLeft ctx' = packetsLeft ctx - 1) := by
  obtain ⟨⟨bs, hbs⟩, -⟩ := workerCallback_ok csum hstep
  rw [callback_payload hbs h.noDrop] at hstep
  split at hstep
  · next hoff =>
    have hctx : ctx' = afterRwnd ctx bs := by
      rw [← finish_fst csum ctx nfa.packetId bs, Except.ok.inj hstep]
    have hoff' : ctx'.doReorder = 0 := by rw [hctx, afterRwnd_doReorder, hoff]
    refine ⟨⟨?_, fun hon => absurd hoff' hon⟩, .inl hoff'⟩
    rw [hctx, afterRwnd_doDrop, h.noDrop]
  · next hon =>
    obtain ⟨hdrop, hoff | ⟨-, hw, hleft⟩⟩ := within_step hon (h.within hon) hstep
    · exact ⟨⟨hdrop.trans h.noDrop, fun hon' => absurd hoff hon'⟩, .inl hoff⟩
    · exact ⟨⟨hdrop.trans h.noDrop, fun _ => hw⟩, .inr ⟨hon, hleft⟩⟩

/-- **One call.** -/
theorem reorderInv_step (h : ReorderInv ctx) (c : ReorderCall) (hstep : workerStep csum ctx c.op = .ok (ctx', vs)) :
    ReorderInv ctx' := by
  cases c with
  | set enable count offset =>
    cases hstep
    by_cases he : enable = 0
    · subst he
      exact ⟨h.noDrop, fun hon => absurd rfl hon⟩
    · refine ⟨?_, fun _ => (within_armed ctx he count offset).1⟩
      rw [workerSetReorder_armed ctx he]
      exact h.noDrop
  | packet nfa => exact (packet_step h hstep).1

/-- Only a message without a payload stops the worker. -/
theorem reorderInv_error (h : ReorderInv ctx) {c : ReorderCall} {f : Fault}
    (hstep : workerStep csum ctx c.op = .error f) : ∃ nfa, c = .packet nfa ∧ nfa.payload = none ∧ f = .nullDeref := by
  cases c with
  | set enable count offset => cases hstep
  | packet nfa =>
    refine ⟨nfa, rfl, ?_⟩
    rcases hp : nfa.payload with _ | bs
    · have hlog := packetLogging_none hp
      simp only [ReorderCall.op, workerStep, workerCallback, hlog, C.error_bind] at hstep
      exact ⟨rfl, (Except.error.inj hstep).symm⟩
    · rw [ReorderCall.op, callback_payload hp h.noDrop] at hstep
      split at hstep
      · cases hstep
      · next hon =>
        have hstage : Defined (workerHandleReorder ctx nfa.packetId) := defined_workerHandleReorder h.within
        obtain ⟨s, hs⟩ := hstage
        rw [reorderStep, hs, C.ok_bind] at hstep
        cases hstep

/-- **The packets of a session.** -/
theorem packets_run (nfas : List NfqData) {ctx : WorkerCtx} {vs : List Verdict} (h : ReorderInv ctx)
    (hrun : run (workerStep csum) ctx (nfas.map WorkerOp.callback) = .ok (ctx', vs)) :
    ctx'.doReorder = 0 ∨ ctx.doReorder ≠ 0 ∧ packetsLeft ctx' = packetsLeft ctx - nfas.length := by
  induction nfas generalizing ctx vs with
  | nil =>
    cases hrun
    by_cases hoff : ctx'.doReorder = 0
    · exact .inl hoff
    · exact .inr ⟨hoff, (sub_zero _).symm⟩
  | cons nfa nfas ih =>
    obtain ⟨ctx₁, vs₁, vs₂, hstep, hrest, -⟩ := run_cons_ok.mp hrun
    obtain ⟨h₁, hfirst⟩ := packet_step h hstep
    obtain hoff | ⟨hon₁, hleft₁⟩ := ih h₁ hrest
    · exact .inl hoff
    · -- the session was on after the first packet, so it was before
      obtain ⟨hon, hleft⟩ := hfirst.resolve_left hon₁
      refine .inr ⟨hon, ?_⟩
      calc packetsLeft ctx' = packetsLeft ctx₁ - nfas.length := hleft₁
        _ = packetsLeft ctx - 1 - nfas.length := by rw [hleft]
        _ = packetsLeft ctx - (nfas.length + 1 : Nat) := by omega

theorem reorderInv_run (mem : WorkerCtx) (calls : List ReorderCall) :
    EveryState (workerStep csum) (workerInitCtx mem) (calls.map ReorderCall.op) (fun _ ctx _ => ReorderInv ctx) := by
  refine everyState_of_step (P := fun _ _ op => op ∈ calls.map ReorderCall.op) ⟨rfl, fun hon => absurd rfl hon⟩ ?_
    (EveryStep.of_inputs fun pre op hp => hp.subset (by simp))
  intro _ ctx _ op ctx' vs h hmem hstep
  obtain ⟨c, -, rfl⟩ := List.mem_map.mp hmem
  exact reorderInv_step h c hstep

end Run

/-- **The buffer and the counters stay in range**, and sessions end. Whatever calls and packets a fresh worker gets:
    only a message without a payload stops it; at every moment the stage answers any packet, with every index in the
    buffer; and a session no call interferes with is over after its packets, one at least. -/
theorem reorder_in_range (csum : List UInt8 → UInt16) (mem : WorkerCtx) (calls : List ReorderCall) :
    (∀ f, run (workerStep csum) (workerInitCtx mem) (calls.map ReorderCall.op) = .error f →
      f = .nullDeref ∧ ∃ nfa, .packet nfa ∈ calls ∧ nfa.payload = none) ∧
    EveryState (workerStep csum) (workerInitCtx mem) (calls.map ReorderCall.op) (fun _ ctx _ =>
      (ctx.doReorder ≠ 0 → CanQueue ctx) ∧ ∀ id, Defined (workerHandleReorder ctx id)) ∧
    ∀ pre enable count offset (nfas : List NfqData) ctx vs,
      pre ++ .set enable count offset :: nfas.map ReorderCall.packet <+: calls →
      enable ≠ 0 → max 1 (min count.toNat workerMaxReorderCount + offset.toNat) ≤ nfas.length →
      run (workerStep csum) (workerInitCtx mem)
          ((pre ++ .set enable count offset :: nfas.map ReorderCall.packet).map ReorderCall.op) = .ok (ctx, vs) →
      ctx.doReorder = 0 := by
  have hinv : EveryState (workerStep csum) (workerInitCtx mem) (calls.map ReorderCall.op) fun _ ctx _ => ReorderInv ctx :=
    reorderInv_run mem calls
  refine ⟨fun f hf => ?_, fun pre ctx vs hp hr => ?_, ?_⟩
  · obtain ⟨pre, op, ctx, vs, hp, hr, hstep⟩ := run_error hf
    obtain ⟨c, hc, rfl⟩ := List.mem_map.mp (hp.subset (by simp : op ∈ pre ++ [op]))
    obtain ⟨nfa, rfl, hnone, rfl⟩ := reorderInv_error (hinv pre ctx vs (prefix_of_snoc hp) hr) hstep
    exact ⟨rfl, nfa, hc, hnone⟩
  · have h := hinv pre ctx vs hp hr
    exact ⟨fun hon => (h.within hon).canQueue, fun id => defined_workerHandleReorder h.within⟩
  · intro pre enable count offset nfas ctx vs hp he hlen hr
    rw [List.map_append, List.map_cons, List.map_map] at hr
    obtain ⟨ctx₁, vs₁, vs₂, hpre, hr, -⟩ := run_append_ok.mp hr
    obtain ⟨ctx₂, vs₃, vs₄, hset, hpackets, -⟩ := run_cons_ok.mp hr
    have h₁ : ReorderInv ctx₁ := hinv _ ctx₁ vs₁ (((List.prefix_append _ _).trans hp).map ReorderCall.op) hpre
    have h₂ : ReorderInv ctx₂ := reorderInv_step h₁ (.set enable count offset) hset
    cases hset
    obtain hoff | ⟨-, hleft⟩ := packets_run nfas h₂ hpackets
    · exact hoff
    · -- a session that is still on takes one packet more at least
      have hpos : 1 ≤ packetsLeft ctx := le_max_left _ _
      rw [(within_armed ctx₁ he count offset).2] at hleft
      omega

end Handoff
