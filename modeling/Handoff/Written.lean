import Handoff.DryRun
import Handoff.LinkMemory

/- What the program has written of the memory it is handed.

   `worker_init_ctx` and `init_tcp_scheduler` set some of the fields of a `worker_ctx` and of the
   `tcp_ctx`; the others hold what was in the memory. The counters of the drop and of the
   reorder stage are guarded by the flag that arms the stage, which sets them. The window, the
   byte counter and the last acknowledgement number have no such flag: `Fields` says of each
   whether the program has written it, and `Same` and `SameSampler` that two runs agree on what
   has been written. An action that reads nothing else keeps them the same (`body_same`), and so
   does a packet unless the dedup stage compares it with a number never written
   (`callback_same`). The one field that is read before it is written in any
   run is `last_ack`, by the first packet the window stage measures; what it
   adds to `data_rcvd` then does not count as written. -/
namespace Handoff

open Machine

/-- Of `tune_rwnd`, `data_rcvd` and `last_ack`, those that hold what the program has put there. -/
structure Fields where
  window : Bool
  received : Bool
  ack : Bool
  deriving DecidableEq, Repr

/-- The fields an action writes. -/
def Action.writes : Action → Fields → Fields
  | .solUpdate _ _, f => { f with window := true }
  | .setRwnd _ _, f => { f with window := true }
  | .setBurst _ enable, f => if 0 < enable then { f with window := true, received := true } else f
  | .setAdapt _ enable, f => if 0 < enable then { f with window := true, received := true } else f
  | .initTcpSched _ _, f => { f with window := true, received := true }
  | _, f => f

/-- `SOL_INIT_SCHED` writes all of the sampler. -/
def Action.config (sampler : Bool) : Action → Bool
  | .initTcpSched _ _ => true
  | _ => sampler

/-- The action reads what has been written: of the sampler, of its links (nothing writes link 0), and of the
    window. -/
def Action.ReadsWritten (sampler : Bool) (f : Fields) : Action → Prop
  | .solUpdate _ mark => sampler = true ∧ mark ≠ 0 ∧ f.window = true
  | .setBurst _ enable => sampler = true ∧ (enable ≤ 0 → f.window = true)
  | .setAdapt _ _ => sampler = true
  | .initTcpSched _ args => args.mark ≠ 0
  | _ => True

/-- A measured packet leaves its own acknowledgement number, and a count that is as good as the last number and the
    count before it. -/
def Fields.measure (f : Fields) : Fields := { f with received := f.received && f.ack, ack := true }

instance (w : WorkerCtx) (bs : List UInt8) : Decidable (Measures w bs) := inferInstanceAs (Decidable (_ ∧ _))

/-- The fields a packet writes. -/
def Fields.packet (f : Fields) (w : WorkerCtx) (nfa : NfqData) : Fields :=
  match nfa.payload with
  | none => f
  | some bs => if Measures w bs then f.measure else f

/-- The dedup stage compares the acknowledgement number of a packet it drops if it repeats the last one. -/
def Compares (w : WorkerCtx) (bs : List UInt8) : Prop :=
  ¬ Drops w ∧ w.doReorder = 0 ∧ w.doDedup ≠ 0 ∧ 20 ≤ bs.length ∧ Bytes.ihl bs + 20 ≤ bs.length ∧
    bs.length ≤ Bytes.ihl bs + Bytes.doff bs

/-! Two workers and two samplers that agree on what has been written. -/

/-- What the reorder stage reads: its counters, and the ids in the buffer. -/
def session (w : WorkerCtx) : Int × Int × Int × List UInt32 :=
  (w.reorderCount, w.reorderOffset, w.reorderIdCur, held w)

structure Same (f : Fields) (w w' : WorkerCtx) : Prop where
  mark : w.mark = w'.mark
  doReorder : w.doReorder = w'.doReorder
  doDrop : w.doDrop = w'.doDrop
  doRwnd : w.doRwnd = w'.doRwnd
  doBurst : w.doBurst = w'.doBurst
  doAdapt : w.doAdapt = w'.doAdapt
  doDedup : w.doDedup = w'.doDedup
  drop : w.doDrop ≠ 0 → w.dropCount = w'.dropCount
  buffer : w.doReorder ≠ 0 → session w = session w'
  window : f.window = true → w.tuneRwnd = w'.tuneRwnd
  received : f.received = true → w.dataRcvd = w'.dataRcvd
  ack : f.ack = true → w.lastAck = w'.lastAck
  rewrites : w.doRwnd ≠ 0 → f.window = true

/-- The configuration of the sampler, and of its two links. -/
structure SameConfig (t t' : TcpCtx) : Prop where
  link : IsLink t.mark
  mark : t.mark = t'.mark
  burst : t.burstSampleInterval = t'.burstSampleInterval
  threshold : t.threshold = t'.threshold
  pace : t.pace = t'.pace
  links : ∀ i, IsLink i → readAt t.histParam i = readAt t'.histParam i

structure SameSampler (sampler : Bool) (t t' : TcpCtx) : Prop where
  wkctx : t.wkctx = t'.wkctx
  sampleInterval : t.sampleInterval = t'.sampleInterval
  config : sampler = true → SameConfig t t'

theorem same_init (mem mem' : WorkerCtx) :
    Same ⟨false, false, false⟩ (workerInitCtx mem) (workerInitCtx mem') where
  mark := rfl
  doReorder := rfl
  doDrop := rfl
  doRwnd := rfl
  doBurst := rfl
  doAdapt := rfl
  doDedup := rfl
  drop h := absurd rfl h
  buffer h := absurd rfl h
  window := nofun
  received := nofun
  ack := nofun
  rewrites h := absurd rfl h

/-! Actions. -/

section Links
variable {i : Int} {α : Type}

theorem IsLink.inTable (h : IsLink i) : InTable 3 i := by
  obtain rfl | rfl := h <;> exact ⟨by decide, by decide⟩

theorem writeAt_same {a a' : Vector α 3} (hi : IsLink i) (h : ∀ j, IsLink j → readAt a j = readAt a' j) (x : α) :
    Agree (fun b b' => ∀ j, IsLink j → readAt b j = readAt b' j) (writeAt a i x) (writeAt a' i x) := by
  obtain ⟨b, hb⟩ : Defined (writeAt a i x) := defined_writeAt.mpr hi.inTable
  obtain ⟨b', hb'⟩ : Defined (writeAt a' i x) := defined_writeAt.mpr hi.inTable
  rw [hb, hb']
  intro j hj
  obtain ⟨hself, hother⟩ := readAt_writeAt hb
  obtain ⟨hself', hother'⟩ := readAt_writeAt hb'
  by_cases hji : j = i
  · rw [hji, hself, hself']
  · rw [hother j hji, hother' j hji, h j hj]

end Links

section Bodies
variable {sampler : Bool} {f : Fields} {w w' : WorkerCtx} {t t' : TcpCtx}

/-- What two bodies leave. -/
abbrev BodySame (sampler : Bool) (f : Fields) (x y : WorkerCtx × TcpCtx) : Prop :=
  Same f x.1 y.1 ∧ SameSampler sampler x.2 y.2

theorem Same.setWindow (h : Same f w w') (r : UInt16) :
    Same { f with window := true } { w with tuneRwnd := r } { w' with tuneRwnd := r } :=
  { h with window := fun _ => rfl, rewrites := fun _ => rfl }

theorem Same.restart (h : Same f w w') (r : UInt16) :
    Same { f with window := true, received := true } { w with tuneRwnd := r, dataRcvd := 0 }
      { w' with tuneRwnd := r, dataRcvd := 0 } :=
  { h with window := fun _ => rfl, received := fun _ => rfl, rewrites := fun _ => rfl }

theorem Same.setModes (h : Same f w w') (b a : Int) :
    Same f { w with doBurst := b, doAdapt := a } { w' with doBurst := b, doAdapt := a } :=
  { h with doBurst := rfl, doAdapt := rfl }

theorem solUpdate_same {mark : UInt32} (hw : Same f w w') (ht : SameSampler sampler t t') (hs : sampler = true)
    (hm : mark ≠ 0) (hf : f.window = true) :
    Agree (BodySame sampler { f with window := true }) (solUpdate mark w t) (solUpdate mark w' t') := by
  have hc := ht.config hs
  have hlink : mark.toNat < 3 → IsLink mark.toNat ∧ IsLink (toInt mark.toNat) := by
    intro hlt
    have hne : mark.toNat ≠ 0 := fun h0 => hm (UInt32.toNat_inj.mp h0)
    obtain h1 | h2 : mark.toNat = 1 ∨ mark.toNat = 2 := by omega
    · rw [h1]
      exact ⟨.inl rfl, .inl (by decide)⟩
    · rw [h2]
      exact ⟨.inr rfl, .inr (by decide)⟩
  -- a link out of the table ends both
  have hinstall : ∀ u u' : TcpCtx, (mark.toNat < 3 → SameSampler sampler u u') →
      Agree (BodySame sampler { f with window := true })
        (do let p ← readAt u.histParam mark.toNat; return (workerSolUpdate w p.histRw, u) : C (WorkerCtx × TcpCtx))
        (do let p ← readAt u'.histParam mark.toNat; return (workerSolUpdate w' p.histRw, u')) := by
    intro u u' hu
    by_cases hlt : mark.toNat < 3
    · rw [← ((hu hlt).config hs).links _ (hlink hlt).1]
      apply Agree.bind_same
      intro p
      exact ⟨(hw.setWindow (UInt16.ofInt p.histRw)).setModes 0 0, hu hlt⟩
    · have hout : ∀ v : Vector LinkParameter 3, readAt v mark.toNat = .error .outOfBounds := by
        intro v
        unfold readAt
        rw [dif_neg (by omega)]
      rw [hout, hout]
      trivial
  by_cases hpos : 0 < w.tuneRwnd
  · simp only [solUpdate, ← hw.window hf, hpos, if_true]
    generalize toInt mark.toNat = link at hlink ⊢
    rw [← hc.mark, ← hc.links _ hc.link]
    apply Agree.bind_same
    intro p
    apply Agree.bind (writeAt_same hc.link hc.links _)
    intro b b' hb
    refine hinstall _ _ fun hlt => ⟨ht.wkctx, ht.sampleInterval, fun _ => ?_⟩
    exact ⟨(hlink hlt).2, rfl, hc.burst, hc.threshold, hc.pace, hb⟩
  · simp only [solUpdate, ← hw.window hf, hpos, if_false]
    exact hinstall t t' fun _ => ht

theorem setBurst_same {enable : Int} (hw : Same f w w') (ht : SameSampler sampler t t') (hs : sampler = true)
    (hf : enable ≤ 0 → f.window = true) :
    Agree (BodySame sampler (if 0 < enable then { f with window := true, received := true } else f))
      (setBurst enable w t) (setBurst enable w' t') := by
  have hc := ht.config hs
  have hread : readAt t'.histParam t'.mark = readAt t.histParam t.mark := by rw [← hc.mark, hc.links _ hc.link]
  have hwrite : ∀ x, Agree (fun b b' => ∀ j, IsLink j → readAt b j = readAt b' j) (writeAt t.histParam t.mark x)
      (writeAt t'.histParam t'.mark x) := fun x => hc.mark ▸ writeAt_same hc.link hc.links x
  unfold setBurst
  rw [hread]
  apply Agree.bind_same
  intro p
  by_cases hpos : 0 < enable
  · simp only [workerSetBurst, if_pos hpos]
    exact ⟨(hw.restart (UInt16.ofInt p.histRw)).setModes enable 0, ht.wkctx, hc.burst, fun _ => { hc with }⟩
  · have hwin := hw.window (hf (Int.not_lt.mp hpos))
    have hmode : Same f { w with doBurst := enable } { w' with tuneRwnd := w.tuneRwnd, doBurst := enable } :=
      { hw with doBurst := rfl, window := fun _ => rfl }
    simp only [workerSetBurst, if_neg hpos]
    rw [← hwin]
    split
    · apply Agree.bind (hwrite _)
      intro b b' hb
      exact ⟨hmode, ht.wkctx, ht.sampleInterval, fun _ => { hc with links := hb }⟩
    · exact ⟨hmode, ht⟩

theorem setAdapt_same {enable : Int} (hw : Same f w w') (ht : SameSampler sampler t t') (hs : sampler = true) :
    Agree (BodySame sampler (if 0 < enable then { f with window := true, received := true } else f))
      (setAdapt enable w t) (setAdapt enable w' t') := by
  have hc := ht.config hs
  have hread : readAt t'.histParam t'.mark = readAt t.histParam t.mark := by rw [← hc.mark, hc.links _ hc.link]
  unfold setAdapt
  rw [hread]
  apply Agree.bind_same
  intro p
  by_cases hpos : 0 < enable
  · simp only [workerSetAdapt, if_pos hpos]
    exact ⟨(hw.restart (UInt16.ofInt p.histRw)).setModes 0 enable, ht.wkctx, rfl, fun _ => { hc with }⟩
  · simp only [workerSetAdapt, if_neg hpos]
    exact ⟨{ hw with doAdapt := rfl }, ht⟩

theorem initTcpSched_same {args : InitTcpSchedArgs} {pos : Nat} (hw : Same f w w') (hm : args.mark ≠ 0) :
    Agree (BodySame true { f with window := true, received := true }) (initTcpSched args pos w t)
      (initTcpSched args pos w' t') := by
  have hlinks : ∀ i, IsLink i →
      readAt ((t.histParam.set 1 { args.initParam[1] with mark := 1 }).set 2 { args.initParam[2] with mark := 2 }) i =
      readAt ((t'.histParam.set 1 { args.initParam[1] with mark := 1 }).set 2 { args.initParam[2] with mark := 2 }) i := by
    intro i hi
    unfold readAt
    obtain rfl | rfl := hi <;> simp
  unfold initTcpSched
  rcases hp : readAt args.initParam args.mark with e | p
  · trivial
  · have hlink : IsLink args.mark := by
      obtain ⟨⟨h0, h3⟩, -⟩ := readAt_ok.mp hp
      unfold IsLink
      omega
    simp only [C.ok_bind, hlinks _ hlink]
    apply Agree.bind_same
    intro q
    refine ⟨?_, rfl, rfl, fun _ => ⟨hlink, rfl, rfl, rfl, rfl, hlinks⟩⟩
    have hset := hw.restart (UInt16.ofInt q.histRw)
    exact { hset with doRwnd := rfl, doAdapt := rfl, rewrites := fun _ => rfl }

/-- **An action that reads what has been written keeps what has been written the same.** -/
theorem body_same {a : Action} {q : UInt16} {b : Body} (hb : a.body? = some (q, b)) (hw : Same f w w')
    (ht : SameSampler sampler t t') (hr : a.ReadsWritten sampler f) (pos : Nat) :
    Agree (BodySame (a.config sampler) (a.writes f)) (b pos w t) (b pos w' t') := by
  cases a with
  | solUpdate q mark => cases hb; exact solUpdate_same hw ht hr.1 hr.2.1 hr.2.2
  | setBurst q enable => cases hb; exact setBurst_same hw ht hr.1 hr.2
  | setAdapt q enable => cases hb; exact setAdapt_same hw ht hr
  | initTcpSched q args => cases hb; exact initTcpSched_same hw hr
  | setRwnd q rwnd => cases hb; exact ⟨hw.setWindow _, ht⟩
  | setMark q mark => cases hb; exact ⟨{ hw with mark := rfl }, ht⟩
  | setDedup q enable => cases hb; exact ⟨{ hw with doDedup := rfl }, ht⟩
  | setDrop q enable dropCount =>
    cases hb
    refine ⟨?_, ht⟩
    simp only [workerSetDrop]
    split
    · exact { hw with doDrop := rfl, drop := fun _ => rfl }
    · next he =>
      exact { hw with doDrop := rfl, drop := fun h => absurd h he }
  | setReorder q enable count offset =>
    cases hb
    refine ⟨?_, ht⟩
    simp only [workerSetReorder]
    split
    · exact { hw with doReorder := rfl, buffer := fun _ => by simp [session, held] }
    · next he =>
      exact { hw with doReorder := rfl, buffer := fun h => absurd h he }
  | _ => cases hb

end Bodies

/-! Ticks. -/

/-- A tick estimates from the byte counter. -/
def Estimates (w : WorkerCtx) : Prop := w.doBurst ≠ 0 ∨ w.doAdapt ≠ 0 ∧ 0 < w.tuneRwnd

section Workers
variable {sampler : Bool} {f : Fields} {w w' : WorkerCtx}

/-- **A tick keeps what has been written the same** if it estimates from a count that has been. -/
theorem tcpSchedule_same {t t' : TcpCtx} (hw : Same f w w') (ht : SameSampler sampler t t') (hs : sampler = true)
    (hf : f.window = true) (hr : Estimates w → f.received = true) :
    Agree (Same { f with received := true }) (tcpSchedule t w) (tcpSchedule t' w') := by
  have hc := ht.config hs
  have hwin := hw.window hf
  unfold tcpSchedule
  rw [← hw.doBurst, ← hw.doAdapt, ← hwin]
  split
  · next hb =>
    rw [← hc.mark, ← hc.links _ hc.link, ← ht.sampleInterval, ← hw.received (hr (.inl hb))]
    apply Agree.bind_same
    intro p
    exact { hw with doBurst := rfl, doAdapt := rfl, window := fun _ => rfl, received := fun _ => rfl }
  · split
    · next ha =>
      rw [← hw.received (hr (.inr ha)), ← hc.threshold, ← hc.pace]
      exact { hw with doBurst := rfl, doAdapt := rfl, window := fun _ => rfl, received := fun _ => rfl }
    · exact { hw with doBurst := rfl, doAdapt := rfl, window := fun _ => rfl, received := fun _ => rfl }

/-! Packets. -/

theorem Same.drops (h : Same f w w') : Drops w' ↔ Drops w := by
  unfold Drops
  rw [← h.doDrop]
  exact and_congr_right fun hd => by rw [h.drop hd]

theorem Same.afterDrop (h : Same f w w') : Same f (Handoff.afterDrop w) (Handoff.afterDrop w') := by
  unfold Handoff.afterDrop
  rw [← h.doDrop]
  split
  · exact h
  · next hd =>
    rw [← h.drop hd]
    exact { h with doDrop := rfl, drop := fun _ => rfl }

theorem writeAt_agree {α : Type} {n : Nat} (a a' : Vector α n) (i : Int) (x : α) :
    Agree (fun b b' => writeAt a i x = .ok b ∧ writeAt a' i x = .ok b') (writeAt a i x) (writeAt a' i x) := by
  unfold writeAt
  split
  · exact ⟨rfl, rfl⟩
  · trivial

theorem releaseQueued_same (hm : w.mark = w'.mark) (hs : session w = session w') :
    releaseQueued w.reorderIds w.mark w.reorderIdCur.toNat =
      releaseQueued w'.reorderIds w'.mark w'.reorderIdCur.toNat := by
  simp only [session, Prod.mk.injEq] at hs
  obtain ⟨-, -, hcur, hheld⟩ := hs
  unfold held at hheld
  rw [releaseQueued_eq, releaseQueued_eq, ← hcur, ← hm, hheld, hcur]

theorem reorderAdmit_same (hw : Same f w w') (h0 : w.doReorder ≠ 0) (id : UInt32) :
    Agree (fun a b => Same f a.1 b.1 ∧ session a.1 = session b.1 ∧ a.2 = b.2) (reorderAdmit w id)
      (reorderAdmit w' id) := by
  have hs := hw.buffer h0
  simp only [session, Prod.mk.injEq] at hs
  obtain ⟨hcount, hoffset, hcur, hheld⟩ := hs
  unfold reorderAdmit
  rw [← hcount]
  apply Agree.bind_same
  intro n
  split
  · rw [← hcur]
    apply Agree.bind (writeAt_agree _ _ _ _)
    intro b b' ⟨hb, hb'⟩
    have hids : b.toList.take (w.reorderIdCur + 1).toNat = b'.toList.take (w.reorderIdCur + 1).toNat := by
      unfold held at hheld
      rw [take_writeAt hb, take_writeAt hb', hheld, hcur]
    have hsession : session { w with reorderCount := n, reorderIds := b, reorderIdCur := w.reorderIdCur + 1 } =
        session { w' with reorderCount := n, reorderIds := b', reorderIdCur := w.reorderIdCur + 1 } := by
      simp only [session, held, hoffset, hids]
    exact ⟨{ hw with buffer := fun _ => hsession }, hsession, rfl⟩
  · rw [← hoffset]
    apply Agree.bind_same
    intro k
    have hsession : session { w with reorderCount := n, reorderOffset := k } =
        session { w' with reorderCount := n, reorderOffset := k } :=
      congrArg₂ (fun i l => (n, k, i, l)) hcur hheld
    exact ⟨{ hw with buffer := fun _ => hsession }, hsession, by rw [hw.mark]⟩

theorem reorderStep_same (hw : Same f w w') (h0 : w.doReorder ≠ 0) (id : UInt32) :
    Agree (fun a b => Same f a.1 b.1 ∧ a.2 = b.2) (reorderStep w id) (reorderStep w' id) := by
  simp only [reorderStep, workerHandleReorder, ← hw.doReorder, h0, if_false, bind_assoc]
  apply Agree.bind (reorderAdmit_same hw h0 id)
  intro x x' hx
  obtain ⟨v, vs⟩ := x
  obtain ⟨v', vs'⟩ := x'
  obtain ⟨hv, hs, rfl⟩ := hx
  simp only at hv hs
  have hoffset : v.reorderOffset = v'.reorderOffset := congrArg (fun s => s.2.1) hs
  simp only [← hoffset]
  split
  · rw [← releaseQueued_same hv.mark hs]
    simp only [bind_assoc]
    apply Agree.bind_same
    intro rs
    exact ⟨{ hv with doReorder := rfl, buffer := fun h => absurd rfl h }, rfl⟩
  · exact ⟨hv, rfl⟩

theorem Same.afterRwnd (hw : Same f w w') (bs : List UInt8) :
    Same (if Readable bs ∧ w.doRwnd ≠ 0 then f.measure else f) (Handoff.afterRwnd w bs) (Handoff.afterRwnd w' bs) := by
  unfold Handoff.afterRwnd
  rw [← hw.doRwnd]
  split
  · have hcount : f.received && f.ack → w.dataRcvd + (Bytes.ack bs - w.lastAck).toUInt64 =
        w'.dataRcvd + (Bytes.ack bs - w'.lastAck).toUInt64 := by
      intro h
      rw [Bool.and_eq_true] at h
      rw [hw.received h.1, hw.ack h.2]
    exact { hw with doRwnd := rfl, received := hcount, ack := fun _ => rfl }
  · exact hw

theorem Same.rwndData (hw : Same f w w') (csum : List UInt8 → UInt16) (bs : List UInt8) :
    rwndData csum w' bs = rwndData csum w bs := by
  unfold Handoff.rwndData
  rw [← hw.doRwnd]
  by_cases h : Readable bs ∧ w.doRwnd ≠ 0
  · rw [hw.window (hw.rewrites h.2)]
  · have hno : ∀ P : Prop, ¬ (Readable bs ∧ w.doRwnd ≠ 0 ∧ P) := fun P hp => h ⟨hp.1, hp.2.1⟩
    rw [if_neg (hno _), if_neg (hno _)]

theorem finish_same (csum : List UInt8 → UInt16) (hw : Same f w w') (id : UInt32) {bs : List UInt8}
    (hr : w.doDedup ≠ 0 → 20 ≤ bs.length → Bytes.ihl bs + 20 ≤ bs.length → bs.length ≤ Bytes.ihl bs + Bytes.doff bs →
      f.ack = true) :
    Same (if Readable bs ∧ w.doRwnd ≠ 0 then f.measure else f) (finish csum w id bs).1 (finish csum w' id bs).1 ∧
      (finish csum w id bs).2 = (finish csum w' id bs).2 := by
  have hdedups : Dedups w' bs ↔ Dedups w bs := by
    unfold Dedups
    rw [← hw.doDedup]
    constructor
    · intro ⟨hon, h20, hl, hack, hpure⟩
      exact ⟨hon, h20, hl, hack.trans (hw.ack (hr hon h20 hl hpure)).symm, hpure⟩
    · intro ⟨hon, h20, hl, hack, hpure⟩
      exact ⟨hon, h20, hl, hack.trans (hw.ack (hr hon h20 hl hpure)), hpure⟩
  refine ⟨?_, ?_⟩
  · rw [finish_fst, finish_fst]
    exact hw.afterRwnd bs
  · simp only [finish, hdedups]
    split
    · rfl
    · rw [hw.rwndData csum bs, hw.mark]

/-- **A packet keeps what has been written the same** and gets the same verdicts, if the dedup stage
    compares it with a number that has been written. -/
theorem callback_same (csum : List UInt8 → UInt16) (hw : Same f w w') (nfa : NfqData)
    (hr : ∀ bs, nfa.payload = some bs → Compares w bs → f.ack = true) :
    Agree (fun a b => Same (f.packet w nfa) a.1 b.1 ∧ a.2 = b.2) (workerCallback csum w nfa)
      (workerCallback csum w' nfa) := by
  have hdef : DropDefined w' ↔ DropDefined w := by
    unfold DropDefined
    rw [← hw.doDrop]
    exact forall_congr' fun hd => by rw [hw.drop hd]
  by_cases hok : (∃ bs, nfa.payload = some bs) ∧ DropDefined w
  · obtain ⟨⟨bs, hp⟩, hd⟩ := hok
    have hafter := hw.afterDrop
    have h0 : (Handoff.afterDrop w).doReorder = w.doReorder := afterDrop_doReorder w
    rw [workerCallback_some csum hp hd, workerCallback_some csum hp (hdef.mpr hd)]
    simp only [hw.drops, ← hw.doReorder, Fields.packet, hp]
    by_cases hdr : Drops w
    · rw [if_pos hdr, if_pos hdr, if_neg fun hm : Measures w bs => hm.1 hdr]
      exact ⟨hafter, rfl⟩
    · rw [if_neg hdr, if_neg hdr]
      by_cases hre : w.doReorder = 0
      · have hmeasures : Measures w bs ↔ Readable bs ∧ (Handoff.afterDrop w).doRwnd ≠ 0 := by
          rw [afterDrop_doRwnd]
          constructor
          · intro ⟨_, _, hne, hread⟩
            exact ⟨hread, hne⟩
          · intro ⟨hread, hne⟩
            exact ⟨hdr, hre, hne, hread⟩
        rw [if_pos hre, if_pos hre]
        simp only [hmeasures]
        refine finish_same csum hafter nfa.packetId fun hon h20 hl hpure => ?_
        rw [afterDrop_doDedup] at hon
        exact hr bs hp ⟨hdr, hre, hon, h20, hl, hpure⟩
      · rw [if_neg hre, if_neg hre, if_neg fun hm : Measures w bs => hre hm.2.1]
        exact reorderStep_same hafter (by rw [h0]; exact hre) nfa.packetId
  · -- both calls fault
    rcases h₁ : workerCallback csum w nfa with e | r
    · rcases h₂ : workerCallback csum w' nfa with e' | r'
      · trivial
      · have hr' := workerCallback_ok csum h₂
        exact absurd ⟨hr'.1, hdef.mp hr'.2⟩ hok
    · exact absurd (workerCallback_ok csum h₁) hok

end Workers

end Handoff
