import Handoff.Handover

/- A whole reorder session, from the packet after the arming on.

   Armed with a count and an offset, the stage is to hold the first `h = min(count, 1000)` packets, let the
   next `offset` ones pass and release the held ones with the last of these. The release test runs
   after every packet, not only after one that used up the offset, so with an offset of 0 it ends the session
   at the first packet, whatever the count (`reorder_session_iff`). -/
namespace Handoff

open Machine

/-- What a call of the stage answers: whether it consumed the packet, and its verdict calls. -/
structure StageReply where
  handled : Bool
  verdicts : List Verdict
  deriving DecidableEq, Repr

/-- `worker_handle_reorder` as a step of a machine. -/
def reorderReply (ctx : WorkerCtx) (id : UInt32) : C (WorkerCtx × List StageReply) := do
  let s ← workerHandleReorder ctx id
  return (s.ctx, [⟨s.handled, s.verdicts⟩])

/-- The reply to the `i`-th packet of a session that holds `h` packets and lets `k` pass. -/
def sessionReply (mark : UInt32) (h k : Nat) (ids : List UInt32) (i : Nat) (id : UInt32) : StageReply :=
  { handled := i < h + k
    verdicts := (if h ≤ i ∧ i < h + k then [.accept id mark none] else []) ++
      (if i + 1 = h + k then acceptAll mark (ids.take h).reverse else []) }

/-- The replies to the packets after the arming. -/
def sessionReplies (mark : UInt32) (h k : Nat) (ids : List UInt32) : List StageReply :=
  ids.zipIdx.map fun x => sessionReply mark h k ids x.2 x.1

section Replies
variable {ctx ctx' : WorkerCtx} {id : UInt32} {vs : List Verdict}

theorem reorderReply_on (hon : ctx.doReorder ≠ 0) (h : reorderStep ctx id = .ok (ctx', vs)) :
    reorderReply ctx id = .ok (ctx', [⟨true, vs⟩]) := by
  simp only [reorderStep, C.bind_ok, C.pure_eq_ok, Except.ok.injEq, Prod.mk.injEq] at h
  obtain ⟨s, hs, rfl, rfl⟩ := h
  rw [reorderReply, hs, C.ok_bind, workerHandleReorder_handled hon hs]
  rfl

theorem reorderReply_off (hoff : ctx.doReorder = 0) : reorderReply ctx id = .ok (ctx, [⟨false, []⟩]) := by
  rw [reorderReply, workerHandleReorder, if_pos hoff]
  rfl

end Replies

/-! A session without an offset. -/

section NoOffset
variable {ctx : WorkerCtx} {ids : List UInt32} {count : Int}

theorem Session.queue_release (s : Session ctx ids count 0) (id : UInt32) (hc : 0 < count)
    (hf : ids.length < workerMaxReorderCount) :
    ∃ ctx', reorderStep ctx id = .ok (ctx', acceptAll ctx.mark (id :: ids.reverse)) ∧
      ctx'.doReorder = 0 ∧ Frame ctx ctx' := by
  have hcur : 0 ≤ ctx.reorderIdCur ∧ ctx.reorderIdCur.toNat < workerMaxReorderCount := by
    rw [s.cur]
    omega
  have hw := writeAt_ok (a := ctx.reorderIds) (x := id).mpr ⟨hcur, rfl⟩
  have hd : decInt count = .ok (count - 1) := decInt_ok.mpr ⟨by unfold intMin; omega, rfl⟩
  have hheld := take_writeAt hw
  have hr : releaseQueued (ctx.reorderIds.set ctx.reorderIdCur.toNat id hcur.2) ctx.mark (ctx.reorderIdCur + 1).toNat =
      .ok (acceptAll ctx.mark (id :: ids.reverse)) := by
    rw [releaseQueued_eq, if_pos (by omega), hheld]
    have hids : ctx.reorderIds.toList.take ctx.reorderIdCur.toNat = ids := s.held
    rw [hids, List.reverse_append]
    rfl
  refine ⟨{ ctx with
    reorderCount := count - 1, reorderIds := ctx.reorderIds.set ctx.reorderIdCur.toNat id hcur.2,
    reorderIdCur := 0, doReorder := 0 }, ?_, rfl, rfl⟩
  simp [reorderStep, workerHandleReorder, reorderAdmit, s.on, s.count, s.offset, hd, hc, hw, hr]

theorem Session.swallow (s : Session ctx ids count 0) (id : UInt32) (hc : count ≤ 0) (hmin : intMin < count) :
    ∃ ctx', reorderStep ctx id = .ok (ctx', acceptAll ctx.mark ids.reverse) ∧ ctx'.doReorder = 0 ∧ Frame ctx ctx' := by
  have hd := decInt_ok.mpr ⟨hmin, rfl⟩
  have hk : decInt 0 = .ok (-1) := decInt_ok.mpr ⟨by decide, rfl⟩
  have hr : releaseQueued ctx.reorderIds ctx.mark ctx.reorderIdCur.toNat = .ok (acceptAll ctx.mark ids.reverse) := by
    rw [releaseQueued_eq, if_pos (by rw [s.cur]; simpa using s.fits), ← s.held]
    rfl
  refine ⟨{ ctx with reorderCount := count - 1, reorderOffset := -1, doReorder := 0, reorderIdCur := 0 }, ?_, rfl, rfl⟩
  simp [reorderStep, workerHandleReorder, reorderAdmit, s.on, s.count, s.offset, hd, hk, show ¬ 0 < count by omega, hr]

end NoOffset

/-! The run of a session. -/

/-- The worker after `i` of the packets of a session. -/
structure InSession (mark : UInt32) (h k : Nat) (ids : List UInt32) (i : Nat) (ctx : WorkerCtx) : Prop where
  mark : ctx.mark = mark
  on : i < h + k → Session ctx (ids.take (min i h)) (h - i) (k - (i - h : Nat))
  off : h + k ≤ i → ctx.doReorder = 0

section Run
variable {mark : UInt32} {h k : Nat} {ids : List UInt32}

/-- **One packet of a session.** -/
theorem inSession_step (hh : h ≤ workerMaxReorderCount) (hk : k ≤ 65535) {i : Nat} (hik : 0 < k ∨ h + k ≤ i)
    {ctx : WorkerCtx} (s : InSession mark h k ids i ctx) {id : UInt32} (hid : ids[i]? = some id) :
    ∃ ctx', reorderReply ctx id = .ok (ctx', [sessionReply mark h k ids i id]) ∧
      InSession mark h k ids (i + 1) ctx' := by
  obtain ⟨hi, rfl⟩ := List.getElem?_eq_some_iff.mp hid
  by_cases hover : h + k ≤ i
  · refine ⟨ctx, ?_, s.mark, fun h => by omega, fun _ => s.off hover⟩
    rw [reorderReply_off (s.off hover)]
    simp [sessionReply, show ¬ i < h + k by omega, show ¬ i + 1 = h + k by omega]
  · have son := s.on (by omega)
    have hlen : (ids.take (min i h)).length = min i h := by
      rw [List.length_take]
      omega
    by_cases hhold : i < h
    · -- held
      rw [Nat.min_eq_left hhold.le] at son hlen
      obtain ⟨ctx', hr, s', hf⟩ := son.queue ids[i] (by omega) (by omega) (by omega) (by unfold intMin; omega)
      refine ⟨ctx', ?_, hf.mark.trans s.mark, fun _ => ?_, fun h => by omega⟩
      · rw [reorderReply_on son.on hr]
        simp [sessionReply, show i < h + k by omega, show ¬ h ≤ i by omega, show ¬ i + 1 = h + k by omega]
      · rw [Nat.min_eq_left hhold, List.take_succ_eq_append_getElem hi]
        have hcount : (h : Int) - (i + 1 : Nat) = h - i - 1 := by omega
        have hoffset : (k : Int) - (i + 1 - h : Nat) = k - (i - h : Nat) := by omega
        rw [hcount, hoffset]
        exact s'
    · rw [Nat.min_eq_right (by omega)] at son hlen
      by_cases hlast : i + 1 = h + k
      · -- the last one that passes
        rw [show (k : Int) - (i - h : Nat) = 1 by omega] at son
        obtain ⟨ctx', hr, hoff, hf⟩ := son.last ids[i] (by omega) (by unfold intMin; omega)
        refine ⟨ctx', ?_, hf.mark.trans s.mark, fun h => by omega, fun _ => hoff⟩
        rw [reorderReply_on son.on hr, s.mark]
        simp [sessionReply, show i < h + k by omega, show h ≤ i by omega, hlast, acceptAll]
      · -- passed
        obtain ⟨ctx', hr, s', hf⟩ := son.pass ids[i] (by omega) (by omega) (by unfold intMin; omega)
        refine ⟨ctx', ?_, hf.mark.trans s.mark, fun _ => ?_, fun h => by omega⟩
        · rw [reorderReply_on son.on hr, s.mark]
          simp [sessionReply, show i < h + k by omega, show h ≤ i by omega, hlast, acceptAll]
        · rw [Nat.min_eq_right (by omega)]
          have hcount : (h : Int) - (i + 1 : Nat) = h - i - 1 := by omega
          have hoffset : (k : Int) - (i + 1 - h : Nat) = k - (i - h : Nat) - 1 := by omega
          rw [hcount, hoffset]
          exact s'

theorem inSession_run (hh : h ≤ workerMaxReorderCount) (hk : k ≤ 65535) (rest : List UInt32) :
    ∀ {i : Nat} {ctx : WorkerCtx}, ids.drop i = rest → 0 < k ∨ h + k ≤ i → InSession mark h k ids i ctx →
      ∃ ctx', run reorderReply ctx rest = .ok (ctx', (rest.zipIdx i).map fun x => sessionReply mark h k ids x.2 x.1) := by
  induction rest with
  | nil => exact fun _ _ _ => ⟨_, rfl⟩
  | cons id rest ih =>
    intro i ctx hrest hik s
    have hid : ids[i]? = some id := by
      rw [← List.head?_drop, hrest]
      rfl
    obtain ⟨ctx₁, hreply, s₁⟩ := inSession_step hh hk hik s hid
    have hrest' : ids.drop (i + 1) = rest := by
      rw [← List.drop_drop, hrest]
      rfl
    obtain ⟨ctx', hrun⟩ := ih hrest' (by omega) s₁
    exact ⟨ctx', run_cons_ok.mpr ⟨ctx₁, _, _, hreply, hrun, rfl⟩⟩

end Run

theorem noOffset_first {ctx : WorkerCtx} {h : Nat} (s : Session ctx [] h 0) (id : UInt32) :
    ∃ ctx', reorderReply ctx id = .ok (ctx', [⟨true, if 0 < h then [.accept id ctx.mark none] else []⟩]) ∧
      ctx'.doReorder = 0 ∧ ctx'.mark = ctx.mark := by
  by_cases hpos : 0 < h
  · obtain ⟨ctx', hr, hoff, hf⟩ := s.queue_release id (by omega) (by simp)
    refine ⟨ctx', ?_, hoff, hf.mark⟩
    rw [reorderReply_on s.on hr, if_pos hpos]
    rfl
  · obtain ⟨ctx', hr, hoff, hf⟩ := s.swallow id (by omega) (by unfold intMin; omega)
    refine ⟨ctx', ?_, hoff, hf.mark⟩
    rw [reorderReply_on s.on hr, if_neg hpos]
    rfl

theorem noOffset_session {ctx : WorkerCtx} {h : Nat} (s : Session ctx [] h 0) (hh : h ≤ workerMaxReorderCount)
    (id : UInt32) (rest : List UInt32) :
    (∃ ctx', run reorderReply ctx (id :: rest) = .ok (ctx', sessionReplies ctx.mark h 0 (id :: rest))) ↔ h = 1 := by
  obtain ⟨ctx₁, hfirst, hoff, hmark⟩ := noOffset_first s id
  constructor
  · intro hrun
    obtain ⟨ctx', hrun⟩ := hrun
    obtain ⟨ctx₂, o₁, o₂, hstep, -, ho⟩ := run_cons_ok.mp hrun
    cases hfirst.symm.trans hstep
    have hreply := (List.cons.inj ho).1
    by_contra hne
    obtain rfl | hpos := Nat.eq_zero_or_pos h
    · -- a packet consumed that is to be left alone
      have := congrArg StageReply.handled hreply
      simp [sessionReply] at this
    · -- a verdict on a packet that is to be held
      have := congrArg StageReply.verdicts hreply
      simp [sessionReply, show ¬ h = 0 by omega, show ¬ 1 = h by omega, hpos] at this
  · rintro rfl
    have s₁ : InSession ctx.mark 1 0 (id :: rest) 1 ctx₁ := ⟨hmark, fun h => by omega, fun _ => hoff⟩
    obtain ⟨ctx', hrun⟩ := inSession_run hh (Nat.zero_le _) rest rfl (.inr (Nat.le_refl 1)) s₁
    exact ⟨ctx', run_cons_ok.mpr ⟨ctx₁, _, _, hfirst, hrun, rfl⟩⟩

/-- **A session does what it is armed for if and only if its offset or its count makes it.** For every worker,
    count and offset and every sequence of packets: the packets are held, passed and released as asked for if and
    only if the offset is at least 1, or one packet is to be held (or there are no packets). -/
theorem reorder_session_iff (ctx : WorkerCtx) {enable : Int} (he : enable ≠ 0) (count offset : UInt16)
    (ids : List UInt32) :
    (∃ ctx', run reorderReply (workerSetReorder ctx enable count offset) ids =
        .ok (ctx', sessionReplies ctx.mark (min count.toNat 1000) offset.toNat ids)) ↔
      ids = [] ∨ 0 < offset ∨ count = 1 := by
  have hmark : (workerSetReorder ctx enable count offset).mark = ctx.mark := by
    rw [workerSetReorder_armed ctx he]
  have hsession := session_armed ctx he count offset
  have hh : min count.toNat 1000 ≤ workerMaxReorderCount := Nat.min_le_right _ _
  have hk : offset.toNat ≤ 65535 := Nat.le_of_lt_succ offset.toNat_lt
  have hzero : 0 < offset ↔ 0 < offset.toNat := UInt16.lt_iff_toNat_lt
  have hone : count = 1 ↔ count.toNat = 1 := UInt16.toNat_inj.symm
  rw [hzero, hone, ← hmark]
  generalize workerSetReorder ctx enable count offset = armed at hsession
  by_cases hpos : 0 < offset.toNat
  · refine iff_of_true (inSession_run hh hk ids rfl (.inl hpos) ⟨rfl, fun _ => ?_, fun h => by omega⟩) (.inr (.inl hpos))
    simpa using hsession
  · rw [show offset.toNat = 0 by omega] at hsession ⊢
    cases ids with
    | nil => exact iff_of_true ⟨armed, rfl⟩ (.inl rfl)
    | cons id rest =>
      rw [noOffset_session hsession hh]
      simp only [reduceCtorEq, Nat.lt_irrefl, false_or]
      omega

/-- Armed to hold two packets with an offset of 0, the stage lets the first one go at once. -/
theorem reorder_released_early :
    run reorderReply (workerSetReorder zeroWorker 1 2 0) [7, 8] =
        .ok ({ zeroWorker with reorderCount := 1, reorderIds := zeroWorker.reorderIds.set 0 7 },
          [⟨true, [.accept 7 0 none]⟩, ⟨false, []⟩]) ∧
      sessionReplies 0 2 0 [7, 8] = [⟨true, []⟩, ⟨true, [.accept 8 0 none, .accept 7 0 none]⟩] := by
  refine ⟨?_, by decide⟩
  rfl

theorem reorder_session_iff_two :
    ∃ ctx', run reorderReply (workerSetReorder zeroWorker 1 2 1) [7, 8, 9] =
      .ok (ctx', sessionReplies 0 2 1 [7, 8, 9]) :=
  (reorder_session_iff zeroWorker (by decide) 2 1 [7, 8, 9]).mpr (.inr (.inl (by decide)))

end Handoff
