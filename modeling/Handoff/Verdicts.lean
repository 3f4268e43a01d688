import Handoff.Lib.Custody
import Handoff.WorkerRun

/- Verdicts over a whole run of a worker.

   Each packet id that was delivered has had its verdict, is held in the live part of the
   reorder buffer, or is lost. `workerStep_flow` accounts for one call: what was held and
   what arrives is what is decided, what stays held and what the call loses, and it loses
   something exactly when it does not `Keeps`. From it follow, for every run of a fresh
   worker on distinct ids:

   1. `verdict_once`: no id gets two verdicts;
   2. `kept_iff_keeps`: no id is stranded iff every call keeps what it is given. The
      source breaks this in two places: `worker_set_reorder` during a session forgets the
      ids in the buffer, and a packet that meets a session with both counters used up is
      neither queued nor passed on. -/
namespace Handoff

open Machine Custody

/-- The packet reaches an open session with both counters used up. -/
def FallsThrough (ctx : WorkerCtx) : Prop :=
  ¬ Drops ctx ∧ ctx.doReorder ≠ 0 ∧ ctx.reorderCount ≤ 0 ∧ ctx.reorderOffset ≤ 0

instance (ctx : WorkerCtx) : Decidable (FallsThrough ctx) := inferInstanceAs (Decidable (_ ∧ _))

/-- The calls that strand no packet: `worker_set_reorder` while nothing is held, and a packet for
    which the session, if any, still has a place. -/
def Keeps (ctx : WorkerCtx) : WorkerOp → Prop
  | .setReorder _ _ _ => live ctx = []
  | .callback _ => ¬ FallsThrough ctx
  | _ => True

instance (ctx : WorkerCtx) (op : WorkerOp) : Decidable (Keeps ctx op) := by
  cases op <;> unfold Keeps <;> infer_instance

/-- **The flow of one session step.** -/
theorem reorderStep_flow {ctx ctx' : WorkerCtx} {id : UInt32} {vs : List Verdict}
    (h0 : ctx.doReorder ≠ 0) (h : reorderStep ctx id = .ok (ctx', vs)) :
    ∃ lost, (live ctx ++ [id]).Perm (vs.map Verdict.id ++ (live ctx' ++ lost)) ∧
      (lost = [] ↔ ¬ (ctx.reorderCount ≤ 0 ∧ ctx.reorderOffset ≤ 0)) := by
  obtain ⟨ctx₁, vs₁, ha, hend⟩ := reorderStep_ok h0 h
  have hlive : live ctx = held ctx := by simp [live, h0]
  -- what admitting the packet does to the buffer, and what it loses
  have hadmit : ctx₁.doReorder ≠ 0 ∧ ∃ lost, (held ctx ++ [id]).Perm (vs₁.map Verdict.id ++ (held ctx₁ ++ lost)) ∧
      (lost = [] ↔ ¬ (ctx.reorderCount ≤ 0 ∧ ctx.reorderOffset ≤ 0)) := by
    rcases reorderAdmit_ok ha with ⟨hc, hh, rfl, ids, hctx⟩ | ⟨hc, hh, hvs, hctx⟩
    · exact ⟨by simpa [hctx] using h0, [], by simp [hh], by simp; omega⟩
    · refine ⟨by simpa [hctx] using h0, ?_⟩
      by_cases ho : 0 < ctx.reorderOffset
      · refine ⟨[], ?_, by simp; omega⟩
        rw [hvs, if_pos ho, hh]
        simp
      · refine ⟨[id], ?_, by simp; omega⟩
        rw [hvs, if_neg ho, hh]
        exact List.Perm.refl _
  obtain ⟨h1, lost, hflow, hiff⟩ := hadmit
  refine ⟨lost, ?_, hiff⟩
  rw [hlive]
  rcases hend with ⟨-, rfl, rfl⟩ | ⟨-, rfl, rfl⟩
  · -- the session ends: what was held is released
    refine hflow.trans ?_
    have hoff : live { ctx₁ with doReorder := 0, reorderIdCur := 0 } = [] := rfl
    rw [hoff, List.map_append, acceptAll_ids, List.nil_append, List.append_assoc]
    exact ((List.reverse_perm (held ctx₁)).symm.append_right lost).append_left _
  · rwa [show live ctx' = held ctx' by simp [live, h1]]

/-- **The flow of one call.** What was held and what is delivered is what gets a verdict, what stays
    held, and what the call loses; it loses nothing iff it keeps. -/
theorem workerStep_flow {csum : List UInt8 → UInt16} {ctx ctx' : WorkerCtx} {op : WorkerOp}
    {vs : List Verdict} (h : workerStep csum ctx op = .ok (ctx', vs)) :
    ∃ lost, (live ctx ++ deliveredIds [op]).Perm (vs.map Verdict.id ++ (live ctx' ++ lost)) ∧
      (lost = [] ↔ Keeps ctx op) := by
  cases op with
  | callback nfa =>
    have hdel : deliveredIds [.callback nfa] = [nfa.packetId] := rfl
    rw [hdel]
    obtain ⟨⟨bs, hp⟩, hd⟩ := workerCallback_ok csum h
    simp only [workerStep, workerCallback_some csum hp hd] at h
    split at h
    · next hdr =>
      cases h
      exact ⟨[], by simp, by simp [Keeps, FallsThrough, hdr]⟩
    · next hdr =>
      split at h
      · next h0 =>
        have hoff : live ctx = [] := by simp [live, h0]
        simp only [finish] at h
        split at h <;> cases h <;>
          exact ⟨[], by simp [hoff], by simp [Keeps, FallsThrough, h0]⟩
      · next h0 =>
        obtain ⟨lost, hperm, hiff⟩ := reorderStep_flow (by simpa using h0) h
        refine ⟨lost, by simpa using hperm, ?_⟩
        simp only [hiff, Keeps, FallsThrough, afterDrop_reorderCount, afterDrop_reorderOffset]
        tauto
  | setReorder enable count offset =>
    cases h
    exact ⟨live ctx, by simp, by simp [Keeps]⟩
  | tcpSchedule tctx =>
    simp only [workerStep, C.bind_ok] at h
    obtain ⟨w, hw, h⟩ := h
    cases h
    obtain ⟨t, rfl⟩ := tcpSchedule_ok hw
    exact ⟨[], by simp [live, held], by simp [Keeps]⟩
  | _ =>
    cases h
    exact ⟨[], by simp, by simp [Keeps]⟩

/-- The account of a run from `ctx₀` so far. -/
def Accounted (ctx₀ : WorkerCtx) (pre : List WorkerOp) (ctx : WorkerCtx) (vs : List Verdict) : Prop :=
  ∃ lost, Custody.Balanced (live ctx₀ ++ deliveredIds pre) (vs.map Verdict.id) (live ctx) lost

section Runs
variable (csum : List UInt8 → UInt16)

theorem run_accounted (ctx₀ : WorkerCtx) (ops : List WorkerOp) :
    EveryState (workerStep csum) ctx₀ ops (Accounted ctx₀) := by
  refine everyState_of_step (P := fun _ _ _ => True) ⟨[], ?_⟩ ?_ (fun _ _ _ _ _ _ _ _ _ => trivial)
  · simp [Custody.Balanced, deliveredIds]
  · rintro pre ctx vs op ctx' vs' ⟨lost, hb⟩ - hs
    obtain ⟨k, hflow, -⟩ := workerStep_flow hs
    exact ⟨lost ++ k, by simpa using hb.step hflow⟩

theorem decided_subset {ctx₀ ctx : WorkerCtx} {ops : List WorkerOp} {vs : List Verdict}
    (h : run (workerStep csum) ctx₀ ops = .ok (ctx, vs)) :
    ∀ id ∈ vs.map Verdict.id, id ∈ live ctx₀ ∨ id ∈ deliveredIds ops := by
  obtain ⟨lost, hb⟩ := run_accounted csum ctx₀ ops ops ctx vs (List.prefix_refl ops) h
  intro id hid
  exact List.mem_append.mp (hb.mem_iff.mpr (List.mem_append_left _ hid))

variable (mem : WorkerCtx) (ops : List WorkerOp)

theorem live_init : live (workerInitCtx mem) = [] := rfl

theorem live_undecided {ctx : WorkerCtx} {vs : List Verdict} (hn : (deliveredIds ops).Nodup)
    (h : run (workerStep csum) (workerInitCtx mem) ops = .ok (ctx, vs)) :
    ∀ id ∈ live ctx, id ∈ deliveredIds ops ∧ id ∉ vs.map Verdict.id := by
  obtain ⟨lost, hb⟩ := run_accounted csum _ ops ops ctx vs (List.prefix_refl ops) h
  rw [live_init, List.nil_append] at hb
  obtain ⟨-, -, hd⟩ := List.nodup_append.mp (hb.nodup hn)
  intro id hid
  have hmem : id ∈ live ctx ++ lost := List.mem_append_left lost hid
  exact ⟨hb.mem_iff.mpr (List.mem_append_right _ hmem), fun hdec => hd id hdec id hmem rfl⟩

/-- **No packet gets two verdicts**, and what a re-armed or disabled session held gets none. -/
theorem verdict_once {ctx : WorkerCtx} {vs : List Verdict} (hn : (deliveredIds ops).Nodup)
    (h : run (workerStep csum) (workerInitCtx mem) ops = .ok (ctx, vs)) :
    (vs.map Verdict.id).Nodup ∧
    ∀ pre enable count offset ctx₁ vs₁, pre ++ [.setReorder enable count offset] <+: ops →
      run (workerStep csum) (workerInitCtx mem) pre = .ok (ctx₁, vs₁) →
      ∀ id ∈ live ctx₁, id ∉ vs.map Verdict.id := by
  constructor
  · obtain ⟨lost, hb⟩ := run_accounted csum _ ops ops ctx vs (List.prefix_refl ops) h
    exact hb.decided_nodup (by rwa [live_init, List.nil_append])
  · rintro pre enable count offset ctx₁ vs₁ ⟨post, rfl⟩ h₁ id hid
    rw [List.append_assoc, deliveredIds_append, deliveredIds_append] at hn
    obtain ⟨hnpre, -, hdisj⟩ := List.nodup_append.mp hn
    obtain ⟨hdel, hund⟩ := live_undecided csum mem pre hnpre h₁ id hid
    -- the call itself decides nothing and leaves nothing live, so the rest decides only what it is given
    obtain ⟨ctx₂, vs₂, vs₃, h₂, h₃, rfl⟩ := run_append_ok.mp h
    obtain ⟨ctx₁', vs₁', vs₂', h₁', hs, rfl⟩ := run_snoc_ok.mp h₂
    rw [h₁] at h₁'
    cases h₁'
    cases hs
    intro hdec
    simp only [List.append_nil, List.map_append, List.mem_append] at hdec
    rcases hdec with hdec | hdec
    · exact hund hdec
    · rcases decided_subset csum h₃ id hdec with hl | hl
      · simp at hl
      · exact hdisj id hdel id (List.mem_append_right _ hl) rfl

/-- Two sessions, the second armed while the first holds packet 1. -/
def rearmedRun : List WorkerOp :=
  [.setReorder 1 1 10, .callback (emptyPacket 1), .setReorder 1 1 1, .callback (emptyPacket 2),
   .callback (emptyPacket 3)]

theorem verdict_once_rearmed :
    ∃ ctx vs, run (workerStep zeroCsum) (workerInitCtx zeroWorker) rearmedRun = .ok (ctx, vs) ∧
      (vs.map Verdict.id).Nodup :=
  ⟨_, _, rfl, (verdict_once zeroCsum zeroWorker rearmedRun (by decide) rfl).1⟩

/-- Every id delivered so far has had a verdict or is stored in the buffer of a session in progress. -/
def Kept (pre : List WorkerOp) (ctx : WorkerCtx) (vs : List Verdict) : Prop :=
  ∀ id ∈ deliveredIds pre, id ∈ vs.map Verdict.id ∨ (ctx.doReorder ≠ 0 ∧ id ∈ held ctx)

theorem kept_iff_live {pre : List WorkerOp} {ctx : WorkerCtx} {vs : List Verdict} :
    Kept pre ctx vs ↔ ∀ id ∈ deliveredIds pre, id ∈ vs.map Verdict.id ∨ id ∈ live ctx := by
  refine forall₂_congr fun id _ => or_congr_right ?_
  by_cases h : ctx.doReorder = 0 <;> simp [live, h]

/-- **No packet is stranded, exactly when every call keeps.** -/
theorem kept_iff_keeps (hn : (deliveredIds ops).Nodup) :
    EveryState (workerStep csum) (workerInitCtx mem) ops Kept ↔
      EveryStep (workerStep csum) (workerInitCtx mem) ops (fun _ ctx op => Keeps ctx op) := by
  have nodup_pre : ∀ pre, pre <+: ops → (deliveredIds pre).Nodup := by
    rintro pre ⟨post, rfl⟩
    rw [deliveredIds_append] at hn
    exact (List.nodup_append.mp hn).1
  refine everyState_iff_everyStep (F := fun pre op => (deliveredIds (pre ++ [op])).Nodup)
    (I := fun pre ctx vs => Custody.Balanced (deliveredIds pre) (vs.map Verdict.id) (live ctx) [])
    Custody.Balanced.nil ?_ ?_ ?_ (fun pre op hp => nodup_pre _ hp)
  · intro pre ctx vs op ctx' vs' hb _ hk hs
    obtain ⟨k, hflow, hiff⟩ := workerStep_flow hs
    have hb' := hb.step hflow
    rw [hiff.mpr hk] at hb'
    simpa using hb'
  · intro pre ctx vs op ctx' vs' hb hF hk hs hkept
    obtain ⟨k, hflow, hiff⟩ := workerStep_flow hs
    have hb' : Custody.Balanced (deliveredIds (pre ++ [op])) ((vs ++ vs').map Verdict.id) (live ctx') k := by
      simpa using hb.step hflow
    exact hk (hiff.mp ((hb'.lost_eq_nil_iff hF).mpr (kept_iff_live.mp hkept)))
  · intro pre ctx vs hb
    rw [kept_iff_live]
    intro id hid
    simpa using hb.mem_iff.mp hid

end Runs

/-- The second session is armed when the first one has ended. -/
def refilledRun : List WorkerOp :=
  [.setReorder 1 1 1, .callback (emptyPacket 1), .callback (emptyPacket 2), .setReorder 1 1 1,
   .callback (emptyPacket 3), .callback (emptyPacket 4)]

theorem kept_iff_keeps_rearmed :
    (EveryState (workerStep zeroCsum) (workerInitCtx zeroWorker) rearmedRun Kept ↔
      EveryStep (workerStep zeroCsum) (workerInitCtx zeroWorker) rearmedRun
        (fun _ ctx op => Keeps ctx op)) ∧
    EveryState (workerStep zeroCsum) (workerInitCtx zeroWorker) refilledRun Kept :=
  ⟨kept_iff_keeps zeroCsum zeroWorker rearmedRun (by decide),
    (kept_iff_keeps zeroCsum zeroWorker refilledRun (by decide)).mpr (by decide)⟩

/-- Arming a session while the one before it holds packet 1 strands that packet. -/
theorem rearming_strands :
    (deliveredIds rearmedRun).Nodup ∧
      ¬ EveryState (workerStep zeroCsum) (workerInitCtx zeroWorker) rearmedRun Kept := by
  refine ⟨by decide, fun hkept => ?_⟩
  have h := hkept (rearmedRun.take 3) _ _ (List.take_prefix 3 rearmedRun) rfl 1 (by decide)
  revert h
  decide

end Handoff
