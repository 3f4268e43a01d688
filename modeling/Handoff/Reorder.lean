import Handoff.WorkerRun

/- A reorder session, packet by packet.

   `Session ctx ids count offset` is a session in progress: the ids it holds, how many more
   it queues and how many it then lets pass. Its three steps (queue, pass, pass the last
   one) are equations of the reorder stage, and `Frame` says that the stage touches
   nothing but the session. -/
namespace Handoff

structure Session (ctx : WorkerCtx) (ids : List UInt32) (count offset : Int) : Prop where
  on : ctx.doReorder ≠ 0
  count : ctx.reorderCount = count
  offset : ctx.reorderOffset = offset
  cur : ctx.reorderIdCur = ids.length
  held : held ctx = ids
  fits : ids.length ≤ workerMaxReorderCount

/-- `ctx'` differs from `ctx` in the reorder session at most. -/
def Frame (ctx ctx' : WorkerCtx) : Prop :=
  ctx' = { ctx with
    doReorder := ctx'.doReorder, reorderCount := ctx'.reorderCount, reorderOffset := ctx'.reorderOffset,
    reorderIdCur := ctx'.reorderIdCur, reorderIds := ctx'.reorderIds }

/-- Arming an offset of at least one packet opens an empty session. -/
theorem session_armed (ctx : WorkerCtx) {enable : Int} (he : enable ≠ 0) (count offset : UInt16) :
    Session (workerSetReorder ctx enable count offset) [] (min count.toNat 1000 : Nat) offset.toNat := by
  rw [workerSetReorder_armed ctx he]
  exact ⟨he, rfl, rfl, rfl, rfl, Nat.zero_le _⟩

section Steps
variable {ctx : WorkerCtx} {ids : List UInt32} {count offset : Int}

theorem Session.queue (s : Session ctx ids count offset) (id : UInt32) (hc : 0 < count)
    (ho : 0 < offset) (hf : ids.length < workerMaxReorderCount) (hmin : intMin < count) :
    ∃ ctx', reorderStep ctx id = .ok (ctx', []) ∧ Session ctx' (ids ++ [id]) (count - 1) offset ∧
      Frame ctx ctx' := by
  have hcur : 0 ≤ ctx.reorderIdCur ∧ ctx.reorderIdCur.toNat < workerMaxReorderCount := by
    rw [s.cur]
    omega
  have hw := writeAt_ok (a := ctx.reorderIds) (x := id).mpr ⟨hcur, rfl⟩
  have hd := decInt_ok.mpr ⟨hmin, rfl⟩
  have hheld := take_writeAt hw
  refine ⟨{ ctx with
    reorderCount := count - 1, reorderIds := ctx.reorderIds.set ctx.reorderIdCur.toNat id hcur.2,
    reorderIdCur := ctx.reorderIdCur + 1 }, ?_, ?_, rfl⟩
  · simp [reorderStep, workerHandleReorder, reorderAdmit, s.on, s.count, s.offset, hd, hc, hw,
      show ¬ offset ≤ 0 by omega]
  · refine ⟨s.on, rfl, s.offset, ?_, ?_, ?_⟩
    · simp [s.cur]
    · rw [← s.held]
      exact hheld
    · rw [List.length_append]
      exact hf

theorem Session.pass (s : Session ctx ids count offset) (id : UInt32) (hc : count ≤ 0)
    (ho : 1 < offset) (hmin : intMin < count) :
    ∃ ctx', reorderStep ctx id = .ok (ctx', acceptAll ctx.mark [id]) ∧
      Session ctx' ids (count - 1) (offset - 1) ∧ Frame ctx ctx' := by
  have hd := decInt_ok.mpr ⟨hmin, rfl⟩
  have hk : decInt offset = .ok (offset - 1) := decInt_ok.mpr ⟨by unfold intMin; omega, rfl⟩
  refine ⟨{ ctx with reorderCount := count - 1, reorderOffset := offset - 1 }, ?_, ?_, rfl⟩
  · simp [reorderStep, workerHandleReorder, reorderAdmit, acceptAll, s.on, s.count, s.offset, hd, hk,
      show ¬ 0 < count by omega, show 0 < offset by omega, show ¬ offset ≤ 1 by omega]
  · exact ⟨s.on, rfl, rfl, s.cur, s.held, s.fits⟩

theorem Session.last (s : Session ctx ids count 1) (id : UInt32) (hc : count ≤ 0) (hmin : intMin < count) :
    ∃ ctx', reorderStep ctx id = .ok (ctx', acceptAll ctx.mark (id :: ids.reverse)) ∧
      ctx'.doReorder = 0 ∧ Frame ctx ctx' := by
  have hd := decInt_ok.mpr ⟨hmin, rfl⟩
  have hk : decInt 1 = .ok 0 := decInt_ok.mpr ⟨by decide, rfl⟩
  have hr : releaseQueued ctx.reorderIds ctx.mark ctx.reorderIdCur.toNat =
      .ok (acceptAll ctx.mark ids.reverse) := by
    rw [releaseQueued_eq, if_pos (by rw [s.cur]; simpa using s.fits), ← s.held]
    rfl
  refine ⟨{ ctx with reorderCount := count - 1, reorderOffset := 0, doReorder := 0, reorderIdCur := 0 },
    ?_, rfl, rfl⟩
  simp [reorderStep, workerHandleReorder, reorderAdmit, s.on, s.count, s.offset, hd, hk,
    show ¬ 0 < count by omega, hr, acceptAll]

end Steps

end Handoff
