import Handoff.EmulatorRun

/- Duplicate suppression.

   The dedup stage compares a packet with `last_ack`, and the window stage alone writes that
   field, under its own flag. `met` is the number each packet of a stream is compared
   with; `dedup_run` says which packets are dropped in terms of it, and
   `suppression_iff` when these are the packets that repeat the one before them.

   A dropped packet would have left the window stage's state as it was (`finish_fst`), so
   two runs that differ in `worker_set_dedup` calls only keep the estimator the same:
   `dedup_invisible`. -/
namespace Handoff

open Machine

/-! Which packets are dropped. -/

/-- `last_ack` when packet `i` of the stream arrives. -/
def met (ctx : WorkerCtx) (ps : List Packet) : Nat → UInt32
  | 0 => ctx.lastAck
  | i + 1 => if ctx.doRwnd = 0 then ctx.lastAck else (ps[i]?.map (fun p => Bytes.ack p.bytes)).getD 0

theorem dedups_wellFormed {ctx : WorkerCtx} {bs : List UInt8} (h : WellFormed bs) (hd : ctx.doDedup ≠ 0) :
    Dedups ctx bs ↔ NoPayload bs ∧ Bytes.ack bs = ctx.lastAck := by
  obtain ⟨hihl, hdoff, hfits⟩ := h
  unfold Dedups NoPayload
  constructor
  · rintro ⟨-, -, -, hack, hle⟩
    exact ⟨by omega, hack⟩
  · rintro ⟨hlen, hack⟩
    exact ⟨hd, by omega, by omega, hack, by omega⟩

theorem met_afterRwnd (ctx : WorkerCtx) {p : Packet} (hp : WellFormed p.bytes) (ps : List Packet) (i : Nat) :
    met (afterRwnd ctx p.bytes) ps i = met ctx (p :: ps) (i + 1) := by
  by_cases h0 : ctx.doRwnd = 0
  · cases i <;> simp [met, afterRwnd_lastAck, h0]
  · cases i <;> simp [met, afterRwnd_lastAck, h0, hp.readable]

theorem finish_verdict (csum : List UInt8 → UInt16) (ctx : WorkerCtx) (p : Packet) :
    ∃ v, (finish csum ctx p.id p.bytes).2 = [v] ∧ v.id = p.id ∧ (v.isDrop = true ↔ Dedups ctx p.bytes) := by
  unfold finish
  split
  · next h => exact ⟨_, rfl, rfl, by simp [h]⟩
  · next h => exact ⟨_, rfl, rfl, by simp [h]⟩

section Runs
variable (csum : List UInt8 → UInt16)

/-- **A run with duplicate suppression.** Each packet gets its verdict when it arrives, and is dropped iff
    it carries no payload and repeats the number it is compared with. -/
theorem dedup_run (ps : List Packet) : ∀ ctx : WorkerCtx, ctx.doDrop = 0 → ctx.doReorder = 0 → ctx.doDedup ≠ 0 →
    (∀ p ∈ ps, WellFormed p.bytes) →
    ∃ ctx' vs, run (workerStep csum) ctx (packetOps ps) = .ok (ctx', vs) ∧
      vs.map Verdict.id = ps.map Packet.id ∧
      ∀ i p v, ps[i]? = some p → vs[i]? = some v →
        (v.isDrop = true ↔ NoPayload p.bytes ∧ Bytes.ack p.bytes = met ctx ps i) := by
  induction ps with
  | nil => exact fun ctx _ _ _ _ => ⟨ctx, [], rfl, rfl, by simp⟩
  | cons p ps ih =>
    intro ctx hd hr hdd hwf
    have hp : WellFormed p.bytes := hwf p List.mem_cons_self
    obtain ⟨v, hv, hid, hdrop⟩ := finish_verdict csum ctx p
    have hstep : workerStep csum ctx (.callback p.nfa) = .ok (afterRwnd ctx p.bytes, [v]) := by
      rw [callback_no_drop csum p hd, if_pos hr, ← finish_fst csum ctx p.id, ← hv]
    obtain ⟨ctx', vs, hrun, hids, hrest⟩ := ih (afterRwnd ctx p.bytes) (by simpa using hd) (by simpa using hr)
      (by simpa using hdd) (fun q hq => hwf q (List.mem_cons_of_mem p hq))
    refine ⟨ctx', v :: vs, run_cons_ok.mpr ⟨_, _, _, hstep, hrun, rfl⟩, by simp [hid, hids], ?_⟩
    intro i q u hq hu
    cases i with
    | zero =>
      cases hq
      cases hu
      exact hdrop.trans (dedups_wellFormed hp hdd)
    | succ i =>
      rw [← met_afterRwnd ctx hp ps i]
      exact hrest i q u hq hu

/-- From the second packet on a packet is dropped iff it repeats the one before it without payload. -/
def DropsDuplicates (ps : List Packet) (vs : List Verdict) : Prop :=
  ∀ i p q v, ps[i]? = some p → ps[i + 1]? = some q → vs[i + 1]? = some v →
    (v.isDrop = true ↔ NoPayload q.bytes ∧ Bytes.ack q.bytes = Bytes.ack p.bytes)

/-- **Exactly the duplicates are dropped** iff the window stage keeps `last_ack`, or the number it was left
    at happens to tell duplicates from other packets. Every other packet is accepted, in order. -/
theorem suppression_iff (ctx : WorkerCtx) (ps : List Packet) (hd : ctx.doDrop = 0) (hr : ctx.doReorder = 0)
    (hdd : ctx.doDedup ≠ 0) (hwf : ∀ p ∈ ps, WellFormed p.bytes) :
    ∃ ctx' vs, run (workerStep csum) ctx (packetOps ps) = .ok (ctx', vs) ∧
      vs.map Verdict.id = ps.map Packet.id ∧
      (DropsDuplicates ps vs ↔
        ctx.doRwnd ≠ 0 ∨ ∀ i p q, ps[i]? = some p → ps[i + 1]? = some q → NoPayload q.bytes →
          (Bytes.ack q.bytes = ctx.lastAck ↔ Bytes.ack q.bytes = Bytes.ack p.bytes)) := by
  obtain ⟨ctx', vs, hrun, hids, hdrop⟩ := dedup_run csum ps ctx hd hr hdd hwf
  refine ⟨ctx', vs, hrun, hids, ?_⟩
  have hmet : ∀ i p, ps[i]? = some p →
      met ctx ps (i + 1) = if ctx.doRwnd = 0 then ctx.lastAck else Bytes.ack p.bytes := by
    intro i p hp
    simp [met, hp]
  have hlen : vs.length = ps.length := by simpa using congrArg List.length hids
  by_cases h0 : ctx.doRwnd = 0
  · simp only [h0, ne_eq, not_true_eq_false, false_or]
    constructor
    · intro hdup i p q hp hq hno
      have hi : i + 1 < vs.length := by
        rw [hlen]
        exact (List.getElem?_eq_some_iff.mp hq).1
      have hv := List.getElem?_eq_getElem hi
      have h₁ := hdup i p q _ hp hq hv
      have h₂ := hdrop (i + 1) q _ hq hv
      rw [hmet i p hp, if_pos h0, h₁] at h₂
      simpa [hno] using h₂.symm
    · intro hack i p q v hp hq hv
      rw [hdrop (i + 1) q v hq hv, hmet i p hp, if_pos h0]
      exact and_congr_right fun hno => hack i p q hp hq hno
  · simp only [h0, ne_eq, not_false_eq_true, true_or, iff_true]
    intro i p q v hp hq hv
    rw [hdrop (i + 1) q v hq hv, hmet i p hp, if_neg h0]

end Runs

/-- Two acknowledgements of the same number. -/
def twoAcks : List Packet := [⟨1, ackSegment 5 100⟩, ⟨2, ackSegment 5 100⟩]

theorem suppression_iff_twoAcks :
    ∃ ctx' vs, run (workerStep zeroCsum) { zeroWorker with doDedup := 1, doRwnd := 1 } (packetOps twoAcks) =
      .ok (ctx', vs) ∧ DropsDuplicates twoAcks vs := by
  obtain ⟨ctx', vs, hrun, -, hiff⟩ := suppression_iff zeroCsum { zeroWorker with doDedup := 1, doRwnd := 1 } twoAcks
    rfl rfl (by decide) (by decide)
  exact ⟨ctx', vs, hrun, hiff.mpr (.inl (by decide))⟩

/-- Without `SOL_INIT_SCHED` the second of two equal acknowledgements is accepted. -/
theorem unscheduled_accepts_duplicate :
    ¬ ∀ (csum : List UInt8 → UInt16) (ctx : WorkerCtx) (ps : List Packet), ctx.doDrop = 0 → ctx.doReorder = 0 →
      ctx.doDedup ≠ 0 → (∀ p ∈ ps, WellFormed p.bytes) →
      ∀ ctx' vs, run (workerStep csum) ctx (packetOps ps) = .ok (ctx', vs) → DropsDuplicates ps vs := by
  intro h
  have hdup := h zeroCsum { zeroWorker with doDedup := 1 } twoAcks rfl rfl (by decide) (by decide) _ _ rfl
  have hdrop := (hdup 0 _ _ _ rfl rfl rfl).mpr ⟨by decide, by decide⟩
  revert hdrop
  decide

/-! Two runs that differ in their dedup calls. -/

/-- An `action_set_dedup`. -/
def EmuInput.isSetDedup : EmuInput → Bool
  | .action _ (.setDedup _ _) => true
  | _ => false

/-- The workers differ in `do_dedup` at most. -/
def DedupWorker (w w' : WorkerCtx) : Prop := ∃ d, w' = { w with doDedup := d }

theorem DedupWorker.symm {w w' : WorkerCtx} (h : DedupWorker w w') : DedupWorker w' w := by
  obtain ⟨d, rfl⟩ := h
  exact ⟨w.doDedup, rfl⟩

theorem dedup_reflags : Reflags Eq DedupWorker where
  worker := fun _ _ ⟨d, h⟩ => ⟨fun r => r, fun _ => d, h, fun _ => ⟨d, rfl⟩⟩
  tcp := fun _ _ h => ⟨fun x => x, h.symm, fun _ => rfl⟩

/-- Emulators that differ in `do_dedup` flags at most. -/
abbrev DedupAlike : Emulator → Emulator → Prop := Alike Eq DedupWorker

theorem DedupAlike.refl (e : Emulator) : DedupAlike e e := by
  refine ⟨rfl, rfl, rfl, ?_⟩
  rw [List.forall₂_same]
  exact fun o _ => ⟨rfl, ⟨o.worker.doDedup, rfl⟩, rfl⟩

theorem DedupAlike.symm {e e' : Emulator} (h : DedupAlike e e') : DedupAlike e' e :=
  ⟨h.tcp.symm, h.queues.symm, h.workers.symm,
    h.heap.flip.imp fun _ _ ho => ⟨ho.nfq.symm, ho.worker.symm, ho.destroyed.symm⟩⟩

theorem finish_dedup (csum : List UInt8 → UInt16) {w w' : WorkerCtx} (h : DedupWorker w w') (id : UInt32)
    (bs : List UInt8) :
    DedupWorker (finish csum w id bs).1 (finish csum w' id bs).1 ∧
      (finish csum w id bs).2.map (fun _ => ()) = (finish csum w' id bs).2.map (fun _ => ()) := by
  obtain ⟨d, rfl⟩ := h
  constructor
  · rw [finish_fst, finish_fst]
    by_cases hr : Readable bs ∧ w.doRwnd ≠ 0
    · simp only [afterRwnd, hr, ne_eq, not_false_eq_true, and_self, if_true]
      exact ⟨d, rfl⟩
    · simp only [afterRwnd, hr, if_false]
      exact ⟨d, rfl⟩
  · unfold finish
    split <;> split <;> rfl

section Runs
variable (csum : List UInt8 → UInt16)

theorem setDedup_alike {e e₁ e' : Emulator} {q : UInt16} {enable : Int} (h : DedupAlike e e')
    (hs : actionSetDedup e q enable = .ok e₁) : DedupAlike e₁ e' := by
  simp only [actionSetDedup, onWorker, C.bind_ok] at hs
  obtain ⟨⟨p, o⟩, hd, ⟨w, t⟩, hw, hs⟩ := hs
  cases hw
  cases hs
  have ho : e.action.heap[p]? = some o := deref_ok hd
  refine ⟨h.tcp, h.queues, h.workers, heap_set_left h.heap ?_⟩
  intro o' ho'
  rcases heap_get h.heap p with ⟨h₁, -⟩ | ⟨o₁, o₂, h₁, h₂, hrel⟩
  · rw [h₁] at ho
    cases ho
  · rw [h₁] at ho
    rw [h₂] at ho'
    cases ho
    cases ho'
    obtain ⟨d, hd⟩ := hrel.worker
    exact ⟨hrel.nfq, ⟨d, hd⟩, hrel.destroyed⟩

theorem dedup_step {e e' : Emulator} (h : DedupAlike e e') {i : EmuInput} (hi : i.isSetDedup = false) :
    Agree (fun a b => DedupAlike a.1 b.1 ∧ a.2.map (Prod.map id fun _ => ()) = b.2.map (Prod.map id fun _ => ()))
      (emuStep csum e i) (emuStep csum e' i) := by
  have neutral : ∀ {j : EmuInput}, j.Neutral → _ := fun hj =>
    emuStep_alike dedup_reflags (fun _ => ⟨0, rfl⟩) csum h hj (Prod.map id fun _ => ())
  cases i with
  | packet p nfa =>
    refine packet_alike h p nfa fun o o' _ _ hw => callback_alike dedup_reflags csum (fun _ => ()) nfa hw ?_
    intro bs _ _ _
    refine finish_dedup csum ?_ nfa.packetId bs
    obtain ⟨d, hd⟩ := hw
    rw [hd]
    exact ⟨d, afterDrop_flags (fun r => r) (fun _ => d) o.worker⟩
  | tick => exact neutral trivial
  | action lib a =>
    cases a with
    | setDedup q enable => cases hi
    | initTcpSched q args =>
      simp only [emuStep, runAction, actionInitTcpSched]
      refine Agree.bind (onWorker_alike h q ?_) fun _ _ hab => ⟨hab, rfl⟩
      rintro pos w w' t t' ⟨d, rfl⟩ rfl
      simp only [initTcpSched]
      apply Agree.bind_same
      intro p
      apply Agree.bind_same
      intro r
      exact ⟨⟨d, rfl⟩, rfl⟩
    | _ => exact neutral trivial

/-- What the estimator keeps for a worker. -/
def estimator (w : WorkerCtx) : UInt32 × UInt64 × UInt16 × Int × Int :=
  (w.lastAck, w.dataRcvd, w.tuneRwnd, w.doBurst, w.doAdapt)

/-- **Suppressing duplicates does not disturb the estimator.** Two runs from one state that are given the
    same inputs but for `action_set_dedup` calls agree on the estimator of every worker, and on the
    sampler. -/
theorem dedup_invisible (e : Emulator) (is js : List EmuInput) {e₁ e₂ : Emulator} {o₁ o₂ : List (Nat × Verdict)}
    (hsame : is.filter (fun i => !i.isSetDedup) = js.filter (fun i => !i.isSetDedup))
    (h₁ : run (emuStep csum) e is = .ok (e₁, o₁)) (h₂ : run (emuStep csum) e js = .ok (e₂, o₂)) :
    e₁.action.heap.map (fun o => estimator o.worker) = e₂.action.heap.map (fun o => estimator o.worker) ∧
      e₁.tcp = e₂.tcp := by
  have hR : DedupAlike e₁ e₂ := by
    refine run_stutter (R := DedupAlike) (fun _ _ h => h.symm) ?_ ?_ is js e e e₁ e₂ o₁ o₂ hsame
      (DedupAlike.refl e) h₁ h₂
    · intro s t i s' o hst hi hs
      rcases i with ⟨lib, a⟩ | _ | _
      · cases a with
        | setDedup q enable =>
          simp only [emuStep, runAction, C.bind_ok] at hs
          obtain ⟨s₁, hs₁, hs⟩ := hs
          cases hs
          exact setDedup_alike hst hs₁
        | _ => cases hi
      · cases hi
      · cases hi
    · intro s t i s' o t' o' hst hi hs ht
      exact ((dedup_step csum hst (by simpa using hi)).ok_both hs ht).1
  refine ⟨?_, hR.tcp⟩
  have hheap := hR.heap
  generalize e₁.action.heap = heap, e₂.action.heap = heap' at hheap
  induction hheap with
  | nil => rfl
  | cons ho _ ih =>
    obtain ⟨d, hd⟩ := ho.worker
    rw [List.map_cons, List.map_cons, ih, hd]
    rfl

end Runs

/-- A run that turns suppression on before two equal acknowledgements and a tick. -/
def suppressedRun : List EmuInput :=
  [.action quietLib (.initNfqueue 0), .action quietLib (.initTcpSched 0 schedArgs), .action quietLib (.setDedup 0 1),
   .packet 0 ⟨1, some (ackSegment 5 100)⟩, .packet 0 ⟨2, some (ackSegment 5 100)⟩, .tick]

theorem dedup_invisible_suppressed :
    ∃ e₁ e₂ o₁ o₂, run (emuStep zeroCsum) ⟨zeroTcp, actionInitCtx⟩ suppressedRun = .ok (e₁, o₁) ∧
      run (emuStep zeroCsum) ⟨zeroTcp, actionInitCtx⟩ (suppressedRun.filter (fun i => !i.isSetDedup)) =
        .ok (e₂, o₂) ∧ e₁.tcp = e₂.tcp := by
  refine ⟨_, _, _, _, rfl, rfl, ?_⟩
  exact (dedup_invisible zeroCsum ⟨zeroTcp, actionInitCtx⟩ suppressedRun
    (suppressedRun.filter (fun i => !i.isSetDedup)) (by simp) rfl rfl).2

end Handoff
