import Handoff.Worker

/- What the stages of the worker do, as equations.

   For a packet with a payload every stage but the reorder buffer is a total function of
   the worker's state and the packet's bytes: `afterDrop`, `finish`. `workerCallback_some`
   puts them together, `workerCallback_ok` says that nothing else succeeds, and the
   `reorder` lemmas describe the buffer by the list `held` of the ids in it. -/
namespace Handoff

/-! The drop stage. -/

/-- The drop stage drops the packet. -/
def Drops (ctx : WorkerCtx) : Prop := ctx.doDrop ≠ 0 ∧ 0 < ctx.dropCount

instance (ctx : WorkerCtx) : Decidable (Drops ctx) := inferInstanceAs (Decidable (_ ∧ _))

/-- The state the drop stage leaves. -/
def afterDrop (ctx : WorkerCtx) : WorkerCtx :=
  if ctx.doDrop = 0 then ctx
  else { ctx with
    dropCount := ctx.dropCount - 1
    doDrop := if ctx.dropCount - 1 ≤ 0 then 0 else ctx.doDrop }

/-- The decrement of the drop stage stays in range. -/
def DropDefined (ctx : WorkerCtx) : Prop := ctx.doDrop ≠ 0 → intMin < ctx.dropCount

theorem workerHandleDrop_eq {ctx : WorkerCtx} (id : UInt32) (h : DropDefined ctx) :
    workerHandleDrop ctx id =
      .ok ⟨decide (Drops ctx), afterDrop ctx, if Drops ctx then [.drop id] else []⟩ := by
  unfold workerHandleDrop afterDrop Drops
  by_cases h0 : ctx.doDrop = 0
  · simp [h0]
  · have hd : decInt ctx.dropCount = .ok (ctx.dropCount - 1) := decInt_ok.mpr ⟨h h0, rfl⟩
    simp [h0, hd]

theorem workerHandleDrop_ok {ctx : WorkerCtx} {id : UInt32} {s : Stage}
    (h : workerHandleDrop ctx id = .ok s) : DropDefined ctx := by
  intro h0
  simp only [workerHandleDrop, h0, if_false, C.bind_ok] at h
  obtain ⟨n, hn, -⟩ := h
  exact (decInt_ok.mp hn).1

section AfterDrop
variable (ctx : WorkerCtx)

@[simp] theorem afterDrop_mark : (afterDrop ctx).mark = ctx.mark := by unfold afterDrop; split <;> rfl
@[simp] theorem afterDrop_doReorder : (afterDrop ctx).doReorder = ctx.doReorder := by
  unfold afterDrop; split <;> rfl
@[simp] theorem afterDrop_reorderCount : (afterDrop ctx).reorderCount = ctx.reorderCount := by
  unfold afterDrop; split <;> rfl
@[simp] theorem afterDrop_reorderOffset : (afterDrop ctx).reorderOffset = ctx.reorderOffset := by
  unfold afterDrop; split <;> rfl
@[simp] theorem afterDrop_reorderIdCur : (afterDrop ctx).reorderIdCur = ctx.reorderIdCur := by
  unfold afterDrop; split <;> rfl
@[simp] theorem afterDrop_reorderIds : (afterDrop ctx).reorderIds = ctx.reorderIds := by
  unfold afterDrop; split <;> rfl
@[simp] theorem afterDrop_doRwnd : (afterDrop ctx).doRwnd = ctx.doRwnd := by unfold afterDrop; split <;> rfl
@[simp] theorem afterDrop_tuneRwnd : (afterDrop ctx).tuneRwnd = ctx.tuneRwnd := by
  unfold afterDrop; split <;> rfl
@[simp] theorem afterDrop_dataRcvd : (afterDrop ctx).dataRcvd = ctx.dataRcvd := by
  unfold afterDrop; split <;> rfl
@[simp] theorem afterDrop_doBurst : (afterDrop ctx).doBurst = ctx.doBurst := by unfold afterDrop; split <;> rfl
@[simp] theorem afterDrop_doAdapt : (afterDrop ctx).doAdapt = ctx.doAdapt := by unfold afterDrop; split <;> rfl
@[simp] theorem afterDrop_doDedup : (afterDrop ctx).doDedup = ctx.doDedup := by unfold afterDrop; split <;> rfl
@[simp] theorem afterDrop_lastAck : (afterDrop ctx).lastAck = ctx.lastAck := by unfold afterDrop; split <;> rfl

end AfterDrop

/-! The stages that read the packet. -/

/-- The dedup stage drops the packet. -/
def Dedups (ctx : WorkerCtx) (bs : List UInt8) : Prop :=
  ctx.doDedup ≠ 0 ∧ 20 ≤ bs.length ∧ Bytes.ihl bs + 20 ≤ bs.length ∧ Bytes.ack bs = ctx.lastAck ∧
    bs.length ≤ Bytes.ihl bs + Bytes.doff bs

instance (ctx : WorkerCtx) (bs : List UInt8) : Decidable (Dedups ctx bs) :=
  inferInstanceAs (Decidable (_ ∧ _))

/-- The window stage finds both headers. -/
def Readable (bs : List UInt8) : Prop := 20 ≤ Bytes.ihl bs ∧ Bytes.ihl bs + 20 ≤ bs.length

instance (bs : List UInt8) : Decidable (Readable bs) := inferInstanceAs (Decidable (_ ∧ _))

theorem WellFormed.readable {bs : List UInt8} (h : WellFormed bs) : Readable bs := by
  obtain ⟨h₁, h₂, h₃⟩ := h
  exact ⟨h₁, by omega⟩

theorem workerHandleDedup_some {ctx : WorkerCtx} {nfa : NfqData} {bs : List UInt8} (id : UInt32)
    (hp : nfa.payload = some bs) :
    workerHandleDedup ctx id nfa =
      .ok (if Dedups ctx bs then ⟨true, ctx, [.drop id]⟩ else .pass ctx) := by
  unfold workerHandleDedup Dedups
  by_cases h0 : ctx.doDedup = 0
  · simp [h0]
  · by_cases h20 : bs.length < 20
    · simp [h0, nfqGetPayload_some hp, ltSize_ofNat, iphdrSize, h20, show ¬ 20 ≤ bs.length by omega]
    · simp only [h0, if_false, nfqGetPayload_some hp, ltSize_ofNat, iphdrSize, tcphdrSize, h20,
        decide_false, Bool.false_eq_true, ipIhl_some hp (by omega), C.ok_bind]
      by_cases hl : bs.length < Bytes.ihl bs + 20
      · simp [hl, show ¬ Bytes.ihl bs + 20 ≤ bs.length by omega]
      · have hl' : Bytes.ihl bs + 20 ≤ bs.length := by omega
        have hi : ((bs.length : Int) ≤ Bytes.ihl bs + Bytes.doff bs) ↔
            bs.length ≤ Bytes.ihl bs + Bytes.doff bs := by omega
        simp only [hl, decide_false, Bool.false_eq_true, if_false, tcpAckSeq_some hp hl', C.ok_bind]
        by_cases ha : Bytes.ack bs = ctx.lastAck
        · simp only [ha, if_true, tcpDoff_some hp hl', C.ok_bind, hi]
          split <;> simp_all
        · simp [ha]

section Csum
variable (csum : List UInt8 → UInt16)

/-- The state the window stage leaves. -/
def afterRwnd (ctx : WorkerCtx) (bs : List UInt8) : WorkerCtx :=
  if Readable bs ∧ ctx.doRwnd ≠ 0 then
    { ctx with
      dataRcvd := ctx.dataRcvd + (Bytes.ack bs - ctx.lastAck).toUInt64
      lastAck := Bytes.ack bs }
  else ctx

/-- The bytes the window stage replaces the packet by, if it does. -/
def rwndData (ctx : WorkerCtx) (bs : List UInt8) : Option (List UInt8) :=
  if Readable bs ∧ ctx.doRwnd ≠ 0 ∧ ctx.tuneRwnd < Bytes.window bs then
    some (rewriteWindow csum bs ctx.tuneRwnd)
  else none

theorem workerHandleRwnd_some {ctx : WorkerCtx} {nfa : NfqData} {bs : List UInt8} (id : UInt32)
    (hp : nfa.payload = some bs) :
    workerHandleRwnd csum ctx id nfa =
      .ok ⟨(rwndData csum ctx bs).isSome, afterRwnd ctx bs,
        if (rwndData csum ctx bs).isSome then [.accept id ctx.mark (rwndData csum ctx bs)] else []⟩ := by
  unfold workerHandleRwnd rwndData afterRwnd Readable
  by_cases h20 : bs.length < 20
  · simp [nfqGetPayload_some hp, ltSize_ofNat, iphdrSize, h20,
      show ¬ Bytes.ihl bs + 20 ≤ bs.length by omega]
  · simp only [nfqGetPayload_some hp, ltSize_ofNat, iphdrSize, tcphdrSize, h20, decide_false,
      Bool.false_eq_true, if_false, ipIhl_some hp (by omega), C.ok_bind]
    by_cases hr : 20 ≤ Bytes.ihl bs ∧ Bytes.ihl bs + 20 ≤ bs.length
    · have hg : ¬ (Bytes.ihl bs < 20 ∨ (bs.length : Int) < Bytes.ihl bs + (20 : Nat)) := by omega
      by_cases h0 : ctx.doRwnd = 0
      · simp [h0]
      · simp only [hg, h0, if_false, tcpAckSeq_some hp hr.2, tcpWindow_some hp hr.2, C.ok_bind, hp,
          Option.getD_some, C.pure_eq_ok]
        by_cases hw : ctx.tuneRwnd < Bytes.window bs <;> simp [hw, hr, h0]
    · have hg : Bytes.ihl bs < 20 ∨ (bs.length : Int) < Bytes.ihl bs + (20 : Nat) := by omega
      have hn : ∀ P : Prop, ¬ ((20 ≤ Bytes.ihl bs ∧ Bytes.ihl bs + 20 ≤ bs.length) ∧ P) :=
        fun P h => hr h.1
      simp only [hg, if_true, C.pure_eq_ok, Stage.pass, hn, if_false, Option.isSome_none,
        Bool.false_eq_true]

/-- The dedup and the window stage on a packet the earlier stages left alone. -/
def finish (ctx : WorkerCtx) (id : UInt32) (bs : List UInt8) : WorkerCtx × List Verdict :=
  if Dedups ctx bs then (ctx, [.drop id])
  else (afterRwnd ctx bs, [.accept id ctx.mark (rwndData csum ctx bs)])

/-- The reorder stage as the callback uses it. -/
def reorderStep (ctx : WorkerCtx) (id : UInt32) : C (WorkerCtx × List Verdict) := do
  let s ← workerHandleReorder ctx id
  return (s.ctx, s.verdicts)

section AfterRwnd
variable (ctx : WorkerCtx) (bs : List UInt8)

@[simp] theorem afterRwnd_mark : (afterRwnd ctx bs).mark = ctx.mark := by unfold afterRwnd; split <;> rfl
@[simp] theorem afterRwnd_doDrop : (afterRwnd ctx bs).doDrop = ctx.doDrop := by unfold afterRwnd; split <;> rfl
@[simp] theorem afterRwnd_doReorder : (afterRwnd ctx bs).doReorder = ctx.doReorder := by
  unfold afterRwnd; split <;> rfl
@[simp] theorem afterRwnd_doDedup : (afterRwnd ctx bs).doDedup = ctx.doDedup := by unfold afterRwnd; split <;> rfl
@[simp] theorem afterRwnd_doRwnd : (afterRwnd ctx bs).doRwnd = ctx.doRwnd := by unfold afterRwnd; split <;> rfl
@[simp] theorem afterRwnd_tuneRwnd : (afterRwnd ctx bs).tuneRwnd = ctx.tuneRwnd := by
  unfold afterRwnd; split <;> rfl

theorem afterRwnd_lastAck : (afterRwnd ctx bs).lastAck =
    if Readable bs ∧ ctx.doRwnd ≠ 0 then Bytes.ack bs else ctx.lastAck := by
  unfold afterRwnd; split <;> rfl

end AfterRwnd

/-- An acknowledgement number that is already there changes nothing. -/
theorem afterRwnd_unmoved {ctx : WorkerCtx} {bs : List UInt8}
    (h : Readable bs → ctx.doRwnd ≠ 0 → Bytes.ack bs = ctx.lastAck) : afterRwnd ctx bs = ctx := by
  unfold afterRwnd
  split
  · next hr =>
    rw [h hr.1 hr.2]
    simp
  · rfl

/-- Whether the dedup stage drops the packet or not, the state is the one the window stage leaves. -/
theorem finish_fst (ctx : WorkerCtx) (id : UInt32) (bs : List UInt8) :
    (finish csum ctx id bs).1 = afterRwnd ctx bs := by
  unfold finish
  split
  · next hd => exact (afterRwnd_unmoved fun _ _ => hd.2.2.2.1).symm
  · rfl

theorem workerHandleReorder_handled {ctx : WorkerCtx} {id : UInt32} {s : Stage}
    (h0 : ctx.doReorder ≠ 0) (h : workerHandleReorder ctx id = .ok s) : s.handled = true := by
  simp only [workerHandleReorder, h0, if_false, C.bind_ok] at h
  obtain ⟨⟨ctx', vs⟩, -, h⟩ := h
  simp only at h
  split at h
  · obtain ⟨rs, -, h⟩ := C.bind_ok.mp h
    cases h
    rfl
  · cases h
    rfl

/-- **The callback, for a packet with a payload.** -/
theorem workerCallback_some {ctx : WorkerCtx} {nfa : NfqData} {bs : List UInt8}
    (hp : nfa.payload = some bs) (hd : DropDefined ctx) :
    workerCallback csum ctx nfa =
      if Drops ctx then .ok (afterDrop ctx, [.drop nfa.packetId])
      else if ctx.doReorder = 0 then .ok (finish csum (afterDrop ctx) nfa.packetId bs)
      else reorderStep (afterDrop ctx) nfa.packetId := by
  obtain ⟨l, hl⟩ := packetLogging_some hp
  simp only [workerCallback, hl, C.ok_bind, workerHandleDrop_eq nfa.packetId hd]
  by_cases hdr : Drops ctx
  · simp [hdr]
  · simp only [hdr, decide_false, Bool.false_eq_true, if_false]
    by_cases h0 : ctx.doReorder = 0
    · have hpass : workerHandleReorder (afterDrop ctx) nfa.packetId = .ok (.pass (afterDrop ctx)) := by
        simp [workerHandleReorder, h0]
      simp only [hpass, C.ok_bind, Stage.pass, Bool.false_eq_true, if_false, h0, if_true,
        workerHandleDedup_some nfa.packetId hp, finish]
      by_cases hdd : Dedups (afterDrop ctx) bs
      · simp [hdd]
      · simp only [hdd, if_false, Bool.false_eq_true, workerHandleRwnd_some csum nfa.packetId hp, C.ok_bind]
        rcases hr : rwndData csum (afterDrop ctx) bs with _ | d
        · simp [afterRwnd_mark]
        · simp
    · simp only [h0, if_false, reorderStep]
      rcases hre : workerHandleReorder (afterDrop ctx) nfa.packetId with e | s
      · simp
      · have hs := workerHandleReorder_handled (by simpa using h0) hre
        simp [hs]

/-- Only a packet with a payload gets through, and only while the drop counter is in range. -/
theorem workerCallback_ok {ctx : WorkerCtx} {nfa : NfqData} {r : WorkerCtx × List Verdict}
    (h : workerCallback csum ctx nfa = .ok r) : (∃ bs, nfa.payload = some bs) ∧ DropDefined ctx := by
  simp only [workerCallback, C.bind_ok] at h
  obtain ⟨l, hl, s, hs, -⟩ := h
  refine ⟨?_, workerHandleDrop_ok hs⟩
  rcases hp : nfa.payload with _ | bs
  · rw [packetLogging_none hp] at hl
    cases hl
  · exact ⟨bs, rfl⟩

end Csum

/-! The reorder buffer. -/

/-- The ids in the buffer, in order of arrival. -/
def held (ctx : WorkerCtx) : List UInt32 := ctx.reorderIds.toList.take ctx.reorderIdCur.toNat

/-- Accepting ids without touching their packets. -/
def acceptAll (mark : UInt32) (ids : List UInt32) : List Verdict := ids.map (.accept · mark none)

@[simp] theorem acceptAll_nil (mark : UInt32) : acceptAll mark [] = [] := rfl

@[simp] theorem acceptAll_ids (mark : UInt32) (ids : List UInt32) :
    (acceptAll mark ids).map Verdict.id = ids := by
  simp [acceptAll, Function.comp_def]

/-- Arming stores a count that fits the buffer. -/
theorem workerSetReorder_armed (ctx : WorkerCtx) {enable : Int} (he : enable ≠ 0) (count offset : UInt16) :
    workerSetReorder ctx enable count offset =
      { ctx with doReorder := enable, reorderCount := (min count.toNat workerMaxReorderCount : Nat),
                 reorderOffset := offset.toNat, reorderIdCur := 0 } := by
  have hc : (if workerMaxReorderCount < count.toNat then (1000 : UInt16) else count).toNat =
      min count.toNat workerMaxReorderCount := by
    split
    · next h => exact (Nat.min_eq_right h.le).symm
    · next h => exact (Nat.min_eq_left (not_lt.mp h)).symm
  unfold workerSetReorder
  rw [if_pos he, ← hc]

/-- The release loop accepts what it reads, last in first out. -/
theorem releaseQueued_eq (ids : Vector UInt32 workerMaxReorderCount) (mark : UInt32) (n : Nat) :
    releaseQueued ids mark n =
      if n ≤ workerMaxReorderCount then .ok (acceptAll mark (ids.toList.take n).reverse)
      else .error .outOfBounds := by
  induction n with
  | zero => simp [releaseQueued]
  | succ n ih =>
    by_cases hn : n < workerMaxReorderCount
    · have hr : readAt ids (n : Int) = .ok ids[n] := readAt_ok.mpr ⟨⟨by omega, by simpa using hn⟩, by simp⟩
      have ht : ids.toList.take (n + 1) = ids.toList.take n ++ [ids[n]] := by
        rw [List.take_succ_eq_append_getElem (by simpa using hn)]
        simp
      simp only [releaseQueued, hr, C.ok_bind, ih, show n ≤ workerMaxReorderCount by omega, if_true,
        C.pure_eq_ok, show n + 1 ≤ workerMaxReorderCount by omega, ht]
      simp [acceptAll]
    · have hr : readAt ids (n : Int) = .error .outOfBounds := by
        unfold readAt
        rw [dif_neg (by omega)]
      simp [releaseQueued, hr, show ¬ n + 1 ≤ workerMaxReorderCount by omega]

/-- **One packet in a session.** It is queued, or passes, or neither. -/
theorem reorderAdmit_ok {ctx ctx' : WorkerCtx} {id : UInt32} {vs : List Verdict}
    (h : reorderAdmit ctx id = .ok (ctx', vs)) :
    (0 < ctx.reorderCount ∧ held ctx' = held ctx ++ [id] ∧ vs = [] ∧
      ∃ ids, ctx' = { ctx with reorderCount := ctx.reorderCount - 1, reorderIds := ids,
                               reorderIdCur := ctx.reorderIdCur + 1 }) ∨
    (ctx.reorderCount ≤ 0 ∧ held ctx' = held ctx ∧
      vs = (if 0 < ctx.reorderOffset then [.accept id ctx.mark none] else []) ∧
      ctx' = { ctx with reorderCount := ctx.reorderCount - 1, reorderOffset := ctx.reorderOffset - 1 }) := by
  simp only [reorderAdmit, C.bind_ok] at h
  obtain ⟨n, hn, h⟩ := h
  obtain ⟨-, rfl⟩ := decInt_ok.mp hn
  split at h
  · next hc =>
    obtain ⟨ids, hw, h⟩ := C.bind_ok.mp h
    cases h
    exact .inl ⟨hc, take_writeAt hw, rfl, ids, rfl⟩
  · next hc =>
    obtain ⟨k, hk, h⟩ := C.bind_ok.mp h
    obtain ⟨-, rfl⟩ := decInt_ok.mp hk
    cases h
    exact .inr ⟨by omega, rfl, rfl, rfl⟩

/-- **The reorder stage.** After admitting the packet the session ends, releasing the buffer in
    reverse, when the offset is used up. -/
theorem reorderStep_ok {ctx ctx' : WorkerCtx} {id : UInt32} {vs : List Verdict}
    (h0 : ctx.doReorder ≠ 0) (h : reorderStep ctx id = .ok (ctx', vs)) :
    ∃ ctx₁ vs₁, reorderAdmit ctx id = .ok (ctx₁, vs₁) ∧
      ((ctx₁.reorderOffset ≤ 0 ∧ ctx' = { ctx₁ with doReorder := 0, reorderIdCur := 0 } ∧
          vs = vs₁ ++ acceptAll ctx₁.mark (held ctx₁).reverse) ∨
        (0 < ctx₁.reorderOffset ∧ ctx' = ctx₁ ∧ vs = vs₁)) := by
  simp only [reorderStep, workerHandleReorder, h0, if_false, C.bind_ok] at h
  obtain ⟨s, ⟨⟨ctx₁, vs₁⟩, ha, hs⟩, h⟩ := h
  refine ⟨ctx₁, vs₁, ha, ?_⟩
  simp only at hs
  split at hs
  · next ho =>
    obtain ⟨rs, hr, hs⟩ := C.bind_ok.mp hs
    rw [releaseQueued_eq] at hr
    split at hr
    · cases hs
      cases h
      cases hr
      exact .inl ⟨ho, rfl, rfl⟩
    · cases hr
  · next ho =>
    cases hs
    cases h
    exact .inr ⟨by omega, rfl, rfl⟩

end Handoff
