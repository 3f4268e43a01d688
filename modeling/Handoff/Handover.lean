import Handoff.Reorder
import Handoff.TraceActions

/- What one handover does to the packets that follow it.

   An `HO` line with `reord_cnt = c` and `reord_offset = k` arms its worker to drop c + 10
   packets and to reorder min(c, 1000) packets over an offset of k. The packets then go
   through four phases (dropped, held, passed, released with the last one that passed,
   then untouched), one lemma each, and `handover_damage` composes them. -/
namespace Handoff

open Machine

/-- The queue of a damage event and the call it makes on that queue's worker. -/
def damageOp : Action → Option (UInt16 × WorkerOp)
  | .setDrop q enable dropCount => some (q, .setDrop enable dropCount)
  | .setReorder q enable count offset => some (q, .setReorder enable count offset)
  | _ => none

/-- The calls the damage events of a line make. -/
def damageOps (rs : List Request) : List WorkerOp := rs.filterMap fun r => (damageOp r.2).map Prod.snd

/-- `action_set_drop` and `action_set_reorder` make these calls and touch nothing else. -/
theorem runAction_damage (csum : List UInt8 → UInt16) (lib : LibCalls) {e : Emulator} {a : Action} {q : UInt16}
    {op : WorkerOp} {p : Nat} {o : QueueObj} (hop : damageOp a = some (q, op))
    (hd : deref e.action.workers e.action.heap q = .ok (p, o)) :
    ∃ w, workerStep csum o.worker op = .ok (w, []) ∧
      runAction lib e a = .ok { e with action.heap := e.action.heap.set p { o with worker := w } } := by
  cases a with
  | setDrop q enable dropCount =>
    cases hop
    refine ⟨workerSetDrop o.worker enable dropCount, rfl, ?_⟩
    simp [runAction, actionSetDrop, onWorker, hd]
  | setReorder q enable count offset =>
    cases hop
    refine ⟨workerSetReorder o.worker enable count offset, rfl, ?_⟩
    simp [runAction, actionSetReorder, onWorker, hd]
  | _ => cases hop

/-- Dedup and window rewriting are off. -/
def Plain (ctx : WorkerCtx) : Prop := ctx.doDedup = 0 ∧ ctx.doRwnd = 0

theorem Frame.plain {ctx ctx' : WorkerCtx} (h : Frame ctx ctx') (hp : Plain ctx) : Plain ctx' := by
  rw [h]
  exact hp

theorem Frame.mark {ctx ctx' : WorkerCtx} (h : Frame ctx ctx') : ctx'.mark = ctx.mark := by rw [h]
theorem Frame.doDrop {ctx ctx' : WorkerCtx} (h : Frame ctx ctx') : ctx'.doDrop = ctx.doDrop := by rw [h]

section Phases
variable (csum : List UInt8 → UInt16)

theorem callback_drop {ctx : WorkerCtx} (p : Packet) (hd : Drops ctx) :
    workerStep csum ctx (.callback p.nfa) = .ok (afterDrop ctx, [.drop p.id]) := by
  have hmin : DropDefined ctx := fun _ => by
    have := hd.2
    unfold intMin
    omega
  have hcb : workerCallback csum ctx p.nfa = _ := workerCallback_some csum rfl hmin
  rw [if_pos hd] at hcb
  exact hcb

/-- **Drop phase.** As many packets as the count says are dropped, and the stage switches off. -/
theorem drop_phase (ps : List Packet) : ∀ ctx : WorkerCtx, ctx.doDrop ≠ 0 →
    ctx.dropCount = ps.length → ps ≠ [] →
    run (workerStep csum) ctx (packetOps ps) =
      .ok ({ ctx with doDrop := 0, dropCount := 0 }, ps.map (Verdict.drop ·.id)) := by
  induction ps with
  | nil => exact fun _ _ _ hne => absurd rfl hne
  | cons p ps ih =>
    intro ctx hd hn _
    have hlen : ctx.dropCount = ps.length + 1 := by simpa using hn
    have hstep := @callback_drop csum ctx p ⟨hd, by omega⟩
    cases ps with
    | nil =>
      have hafter : afterDrop ctx = { ctx with doDrop := 0, dropCount := 0 } := by
        simp [afterDrop, hd, hlen]
      exact run_cons_ok.mpr ⟨_, _, [], hstep, by rw [hafter]; rfl, rfl⟩
    | cons q qs =>
      have hafter : afterDrop ctx = { ctx with dropCount := ((q :: qs).length : Int) } := by
        simp only [afterDrop, hd, if_false, hlen]
        rw [if_neg (by simp)]
        simp
      refine run_cons_ok.mpr ⟨_, _, (q :: qs).map (Verdict.drop ·.id), hstep, ?_, rfl⟩
      rw [hafter]
      exact ih { ctx with dropCount := ((q :: qs).length : Int) } hd rfl (by simp)

/-- **Hold phase.** The session queues the packets it still wants, without a verdict. -/
theorem hold_phase (ps : List Packet) : ∀ (ctx : WorkerCtx) (ids : List UInt32) (offset : Int),
    Session ctx ids ps.length offset → 0 < offset → ids.length + ps.length ≤ workerMaxReorderCount →
    ctx.doDrop = 0 →
    ∃ ctx', run (workerStep csum) ctx (packetOps ps) = .ok (ctx', []) ∧
      Session ctx' (ids ++ ps.map Packet.id) 0 offset ∧ Frame ctx ctx' := by
  induction ps with
  | nil => exact fun ctx ids offset s _ _ _ => ⟨ctx, rfl, by simpa using s, rfl⟩
  | cons p ps ih =>
    intro ctx ids offset s ho hfit hd
    have hlen : ((p :: ps).length : Int) = ps.length + 1 := by simp
    simp only [List.length_cons] at hfit
    obtain ⟨ctx₁, hr, s₁, hf₁⟩ := s.queue p.id (by omega) ho (by omega) (by unfold intMin; omega)
    rw [hlen, show (ps.length : Int) + 1 - 1 = ps.length by omega] at s₁
    obtain ⟨ctx₂, hrun, s₂, hf₂⟩ := ih ctx₁ (ids ++ [p.id]) offset s₁ ho (by simp; omega)
      (by rw [hf₁.doDrop, hd])
    have hstep : workerStep csum ctx (.callback p.nfa) = .ok (ctx₁, []) := by
      rw [callback_no_drop csum p hd, if_neg s.on, hr]
    refine ⟨ctx₂, run_cons_ok.mpr ⟨ctx₁, [], [], hstep, hrun, rfl⟩, by simpa using s₂, ?_⟩
    rw [Frame, hf₂, hf₁]

/-- **Pass phase.** The offset's packets are accepted, and with the last one the held ones, in
    reverse. -/
theorem pass_phase (ps : List Packet) : ∀ (ctx : WorkerCtx) (ids : List UInt32) (count : Int),
    Session ctx ids count ps.length → ps ≠ [] → count ≤ 0 → intMin + ps.length < count →
    ctx.doDrop = 0 →
    ∃ ctx', run (workerStep csum) ctx (packetOps ps) =
        .ok (ctx', acceptAll ctx.mark (ps.map Packet.id ++ ids.reverse)) ∧
      ctx'.doReorder = 0 ∧ Frame ctx ctx' := by
  induction ps with
  | nil => exact fun _ _ _ _ hne => absurd rfl hne
  | cons p ps ih =>
    intro ctx ids count s _ hc hmin hd
    have hstep {r : C (WorkerCtx × List Verdict)} (h : reorderStep ctx p.id = r) :
        workerStep csum ctx (.callback p.nfa) = r := by
      rw [callback_no_drop csum p hd, if_neg s.on, h]
    have hlen : ((p :: ps).length : Int) = ps.length + 1 := by simp
    cases ps with
    | nil =>
      obtain ⟨ctx₁, hr, hoff, hf⟩ := s.last p.id hc (by simp at hmin; omega)
      exact ⟨ctx₁, run_cons_ok.mpr ⟨ctx₁, _, [], hstep hr, rfl, by simp⟩, hoff, hf⟩
    | cons q qs =>
      obtain ⟨ctx₁, hr, s₁, hf₁⟩ := s.pass p.id hc (by simp) (by simp at hmin; omega)
      rw [hlen, show ((q :: qs).length : Int) + 1 - 1 = (q :: qs).length by omega] at s₁
      obtain ⟨ctx₂, hrun, hoff, hf₂⟩ := ih ctx₁ ids (count - 1) s₁ (by simp) (by omega)
        (by simp at hmin ⊢; omega) (by rw [hf₁.doDrop, hd])
      refine ⟨ctx₂, run_cons_ok.mpr ⟨ctx₁, _, _, hstep hr, hrun, ?_⟩, hoff, ?_⟩
      · simp [acceptAll, hf₁.mark]
      · rw [Frame, hf₂, hf₁]

/-- **Tail phase.** With every stage idle each packet is accepted as it comes. -/
theorem tail_phase {ctx : WorkerCtx} (ps : List Packet) (hd : ctx.doDrop = 0) (hr : ctx.doReorder = 0)
    (hp : Plain ctx) :
    run (workerStep csum) ctx (packetOps ps) = .ok (ctx, acceptAll ctx.mark (ps.map Packet.id)) := by
  have hfin : ∀ p : Packet, finish csum ctx p.id p.bytes = (ctx, acceptAll ctx.mark [p.id]) := by
    intro p
    simp [finish, Dedups, hp.1, afterRwnd, rwndData, hp.2, acceptAll]
  induction ps with
  | nil => rfl
  | cons p ps ih =>
    have hstep : workerStep csum ctx (.callback p.nfa) = .ok (ctx, acceptAll ctx.mark [p.id]) := by
      rw [callback_no_drop csum p hd, if_pos hr, hfin]
    exact run_cons_ok.mpr ⟨ctx, _, _, hstep, ih, rfl⟩

/-- The verdicts of a handover that drops `n`, holds `h` and passes `k` packets. -/
def damageVerdicts (mark : UInt32) (n h k : Nat) (ps : List Packet) : List Verdict :=
  (ps.take n).map (Verdict.drop ·.id) ++
    acceptAll mark ((((ps.drop (n + h)).take k).map Packet.id) ++
      (((ps.drop n).take h).map Packet.id).reverse ++ (ps.drop (n + h + k)).map Packet.id)

end Phases

/-- The four stretches of the stream. -/
theorem stretches (n h k : Nat) (ps : List Packet) :
    ps = ps.take n ++ ((ps.drop n).take h ++ ((ps.drop (n + h)).take k ++ ps.drop (n + h + k))) := by
  calc ps = ps.take n ++ ps.drop n := (List.take_append_drop n ps).symm
    _ = ps.take n ++ ((ps.drop n).take h ++ ps.drop (n + h)) := by
        rw [← List.drop_drop, List.take_append_drop h (ps.drop n)]
    _ = _ := by rw [← List.drop_drop (j := n + h), List.take_append_drop k (ps.drop (n + h))]

/-- The damage reorders and drops verdicts; it neither adds nor loses one. -/
theorem damageVerdicts_perm (mark : UInt32) (n h k : Nat) (ps : List Packet) :
    ((damageVerdicts mark n h k ps).map Verdict.id).Perm (ps.map Packet.id) := by
  conv_rhs => rw [stretches n h k ps]
  simp only [damageVerdicts, List.map_append, acceptAll_ids, List.map_map, Function.comp_def,
    Verdict.id_drop]
  refine List.Perm.append_left _ ?_
  rw [← List.append_assoc]
  exact (List.perm_append_comm.trans ((List.reverse_perm _).append_right _)).append_right _

theorem damageOps_ho {timeMs : Int} {f : HoFields} {rs : List Request} (hc : 0 < f.reordCnt)
    (h : hoRequests timeMs f = .ok rs) :
    damageOps rs = [.setDrop 1 (f.reordCnt + 10),
      .setReorder 1 (UInt16.ofInt f.reordCnt) (UInt16.ofInt f.reordOffset)] := by
  rw [hoRequests_ok h]
  simp only [hoExpansion, hoLoss, hc, if_true, show 0 < f.reordCnt + 10 by omega]
  rfl

theorem ofInt_toNat {c : Nat} (h : c ≤ 65535) : (UInt16.ofInt (c : Int)).toNat = c := by
  simp [UInt16.ofInt]
  omega

/-- **The damage of one handover.** For an `HO` line with `reord_cnt = c` and `reord_offset = k`, once
    its damage events have run on a worker with dedup and window rewriting off, the verdicts on the
    packets that follow are: drop for the first c + 10, then (h = min(c, 1000) packets being held) accept
    for the k packets after those, accept for the held ones in reverse, and accept for the rest. -/
theorem handover_damage (csum : List UInt8 → UInt16) (timeMs : Int) (data : Option (List Char))
    (rest : List Char) (f : HoFields) (rs : List Request) (c k : Nat) (ctx : WorkerCtx) (ps : List Packet)
    (hline : readHo data rest = .ok f) (hrs : parseHo timeMs data rest = .ok rs)
    (hc : 1 ≤ c ∧ c ≤ 65535) (hk : 1 ≤ k ∧ k ≤ 65535) (hfc : f.reordCnt = c) (hfk : f.reordOffset = k)
    (hdedup : ctx.doDedup = 0) (hrwnd : ctx.doRwnd = 0) (hlen : c + 10 + min c 1000 + k ≤ ps.length) :
    ∃ ctx' vs, run (workerStep csum) ctx (damageOps rs ++ packetOps ps) = .ok (ctx', vs) ∧
      vs = damageVerdicts ctx.mark (c + 10) (min c 1000) k ps ∧
      (vs.map Verdict.id).Perm (ps.map Packet.id) := by
  have hreq : hoRequests timeMs f = .ok rs := by simpa [parseHo, hline] using hrs
  rw [damageOps_ho (by omega) hreq, hfc, hfk]
  -- the worker after the two events
  let armed := workerSetReorder (workerSetDrop ctx 1 (c + 10)) 1 (UInt16.ofInt c) (UInt16.ofInt k)
  have harm : run (workerStep csum) ctx [.setDrop 1 (c + 10), .setReorder 1 (UInt16.ofInt c) (UInt16.ofInt k)] =
      .ok (armed, []) := rfl
  have hs : Session armed [] (min c 1000 : Nat) k := by
    have h := session_armed (workerSetDrop ctx 1 (c + 10)) Int.one_ne_zero (UInt16.ofInt c) (UInt16.ofInt k)
    rwa [ofInt_toNat hc.2, ofInt_toNat hk.2] at h
  have hdrop : armed.doDrop = 1 ∧ armed.dropCount = c + 10 ∧ armed.mark = ctx.mark ∧ Plain armed :=
    ⟨rfl, rfl, rfl, hdedup, hrwnd⟩
  obtain ⟨hdd, hdc, hmark, hplain⟩ := hdrop
  -- the four phases
  obtain ⟨n, h, hn, hh⟩ : ∃ n h, n = c + 10 ∧ h = min c 1000 := ⟨_, _, rfl, rfl⟩
  rw [← hn, ← hh]
  have hl₁ : (ps.take n).length = n := by rw [List.length_take]; omega
  have hl₂ : ((ps.drop n).take h).length = h := by rw [List.length_take, List.length_drop]; omega
  have hl₃ : ((ps.drop (n + h)).take k).length = k := by rw [List.length_take, List.length_drop]; omega
  have hne₁ : ps.take n ≠ [] := List.ne_nil_of_length_pos (by omega)
  have hne₃ : (ps.drop (n + h)).take k ≠ [] := List.ne_nil_of_length_pos (by omega)
  have r₁ := drop_phase csum (ps.take n) armed (by rw [hdd]; decide) (by rw [hl₁, hdc]; omega) hne₁
  have s₁ : Session { armed with doDrop := 0, dropCount := 0 } [] ((ps.drop n).take h).length k := by
    rw [hl₂, hh]
    exact ⟨hs.on, hs.count, hs.offset, hs.cur, hs.held, hs.fits⟩
  obtain ⟨ctx₂, r₂, s₂, f₂⟩ := hold_phase csum _ _ [] k s₁ (by omega)
    (by rw [hl₂]; simp only [List.length_nil, workerMaxReorderCount]; omega) rfl
  have s₂' : Session ctx₂ (((ps.drop n).take h).map Packet.id) 0 ((ps.drop (n + h)).take k).length := by
    rw [hl₃]
    simpa using s₂
  obtain ⟨ctx₃, r₃, hoff, f₃⟩ := pass_phase csum _ ctx₂ _ 0 s₂' hne₃ (by omega)
    (by rw [hl₃]; unfold intMin; omega) (by rw [f₂.doDrop])
  have r₄ := @tail_phase csum ctx₃ (ps.drop (n + h + k)) (by rw [f₃.doDrop, f₂.doDrop]) hoff
    (f₃.plain (f₂.plain hplain))
  have hm₂ : ctx₂.mark = ctx.mark := f₂.mark.trans hmark
  have hm₃ : ctx₃.mark = ctx.mark := f₃.mark.trans hm₂
  rw [hm₂] at r₃
  rw [hm₃] at r₄
  refine ⟨ctx₃, _, ?_, rfl, damageVerdicts_perm _ _ _ _ _⟩
  refine run_append_ok.mpr ⟨armed, [], _, harm, ?_, rfl⟩
  rw [stretches n h k ps]
  simp only [packetOps_append]
  refine run_append_ok.mpr ⟨_, _, _, r₁, run_append_ok.mpr ⟨_, _, _, r₂, run_append_ok.mpr
    ⟨_, _, _, r₃, r₄, rfl⟩, rfl⟩, ?_⟩
  rw [← stretches n h k ps]
  simp [acceptAll]

/-! A line that drops 11 packets and holds one back by one. -/

def smallHo : HoFields :=
  { queueNum := 0, mark := 1, gapTime := 30, reordCnt := 1, reordOffset := 1, dropCnt := 0 }

def smallHoRequests : List Request :=
  [(100, .stopNfqueue 0), (130, .startNfqueue 0), (100, .setMark 0 1), (100, .setDrop 0 1 11),
   (100, .setReorder 0 1 1 1)]

def smallStream : List Packet := (List.range 14).map fun i => ⟨UInt32.ofNat i, []⟩

theorem handover_damage_small :
    ∃ ctx' vs, run (workerStep zeroCsum) zeroWorker (damageOps smallHoRequests ++ packetOps smallStream) =
        .ok (ctx', vs) ∧ vs = damageVerdicts 0 11 1 1 smallStream := by
  obtain ⟨ctx', vs, hrun, hvs, -⟩ := handover_damage zeroCsum 100 (some "0".toList) "1,30,1,1,0".toList smallHo
    smallHoRequests 1 1 zeroWorker smallStream (by decide) (by decide) (by decide) (by decide) rfl rfl rfl rfl
    (by decide)
  exact ⟨ctx', vs, hrun, hvs⟩

end Handoff
