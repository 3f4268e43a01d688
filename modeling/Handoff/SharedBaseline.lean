import Handoff.Suppression
import Mathlib.Data.Int.ModEq
import Mathlib.Data.List.ReduceOption

/- Connections that share a queue.

   The worker of a queue keeps one `last_ack`, and no state per connection. A packet is
   therefore compared with the packet before it on the queue, and adds to `data_rcvd` the
   distance from that packet, whichever connection it belongs to. `shared_baseline`
   compares a run with the runs in which one connection has the queue to itself; `conn`
   says which connection a packet belongs to. -/
namespace Handoff

open Machine

/-- What a worker is given: a packet of some connection, or a tick of the sampler. -/
inductive QueueInput
  | packet (p : Packet)
  | tick (tctx : TcpCtx)

@[simp] def QueueInput.op : QueueInput → WorkerOp
  | .packet p => .callback p.nfa
  | .tick tctx => .tcpSchedule tctx

@[simp] def QueueInput.packet? : QueueInput → Option Packet
  | .packet p => some p
  | .tick _ => none

def queueStep (csum : List UInt8 → UInt16) (ctx : WorkerCtx) (i : QueueInput) : C (WorkerCtx × List Verdict) :=
  workerStep csum ctx i.op

/-- The packets of a run. -/
def packetsOf (is : List QueueInput) : List Packet := is.filterMap QueueInput.packet?

@[simp] theorem packetsOf_nil : packetsOf [] = [] := rfl
@[simp] theorem packetsOf_packet (p : Packet) (is : List QueueInput) :
    packetsOf (.packet p :: is) = p :: packetsOf is := rfl
@[simp] theorem packetsOf_tick (tctx : TcpCtx) (is : List QueueInput) :
    packetsOf (.tick tctx :: is) = packetsOf is := rfl

/-- `as` is `is` without the packets of the other connections. The ticks stay where they are; the sampler
    they find need not be the same. -/
def Alone {κ : Type} [DecidableEq κ] (conn : Packet → κ) (A : κ) (is as : List QueueInput) : Prop :=
  as.map QueueInput.packet? = (is.map QueueInput.packet?).filter (fun o => o.all (fun p => conn p = A))

instance {κ : Type} [DecidableEq κ] (conn : Packet → κ) (A : κ) (is as : List QueueInput) :
    Decidable (Alone conn A is as) :=
  inferInstanceAs (Decidable (_ = _))

/-- `last_ack` after packets. -/
def baseline (first : UInt32) (ps : List Packet) : UInt32 := ps.foldl (fun _ p => Bytes.ack p.bytes) first

/-- What packets add to `data_rcvd`: the distance of each from the one before it. -/
def progress (first : UInt32) : List Packet → UInt64
  | [] => 0
  | p :: ps => (Bytes.ack p.bytes - first).toUInt64 + progress (Bytes.ack p.bytes) ps

/-- How often the numbers of packets step back. -/
def stepsBack (first : UInt32) : List Packet → Nat
  | [] => 0
  | p :: ps => (if Bytes.ack p.bytes < first then 1 else 0) + stepsBack (Bytes.ack p.bytes) ps

/-- The net distance the numbers of packets come, and a turn of the 32-bit range for each step back. -/
def travelled (first : UInt32) (ps : List Packet) : Int :=
  (baseline first ps).toNat - first.toNat + 2^32 * stepsBack first ps

theorem toNat_sub_step (a b : UInt32) :
    ((a - b).toNat : Int) = a.toNat - b.toNat + 2^32 * (if a < b then 1 else 0 : Nat) := by
  have ha := a.toNat_lt
  have hb := b.toNat_lt
  rw [UInt32.toNat_sub]
  split
  · next h =>
    rw [UInt32.lt_iff_toNat_lt] at h
    omega
  · next h =>
    rw [UInt32.lt_iff_toNat_lt] at h
    omega

theorem toUInt64_eq_ofInt (a : UInt32) : a.toUInt64 = UInt64.ofInt a.toNat := by
  rw [← UInt64.toNat_inj, UInt32.toNat_toUInt64, UInt64.ofInt, UInt64.toNat_ofNat']
  have := a.toNat_lt
  omega

theorem ofInt_eq_ofInt_iff (x y : Int) : UInt64.ofInt x = UInt64.ofInt y ↔ x ≡ y [ZMOD 2^64] := by
  rw [← UInt64.toNat_inj, UInt64.ofInt, UInt64.ofInt, UInt64.toNat_ofNat', UInt64.toNat_ofNat', Int.ModEq]
  omega

/-- The distances add up to the net distance, but for the turns. -/
theorem progress_travelled (first : UInt32) (ps : List Packet) :
    progress first ps = UInt64.ofInt (travelled first ps) := by
  induction ps generalizing first with
  | nil =>
    simp only [progress, travelled, baseline, stepsBack, List.foldl_nil, sub_self, Nat.cast_zero, mul_zero, add_zero]
    rfl
  | cons p ps ih =>
    have hsum : travelled first (p :: ps) =
        (Bytes.ack p.bytes - first).toNat + travelled (Bytes.ack p.bytes) ps := by
      rw [toNat_sub_step, travelled, travelled, stepsBack, baseline, List.foldl_cons, baseline]
      push_cast
      ring
    rw [progress, ih, hsum, UInt64.ofInt_add, toUInt64_eq_ofInt]

/-- Duplicate suppression and the window stage are on, drop and reorder idle. -/
structure Measuring (ctx : WorkerCtx) : Prop where
  drop : ctx.doDrop = 0
  reorder : ctx.doReorder = 0
  dedup : ctx.doDedup ≠ 0
  rwnd : ctx.doRwnd ≠ 0

theorem Measuring.counted {ctx : WorkerCtx} (h : Measuring ctx) (t : UInt16) (d : UInt64) (a : UInt32) :
    Measuring { ctx with tuneRwnd := t, dataRcvd := d, lastAck := a } :=
  ⟨h.drop, h.reorder, h.dedup, h.rwnd⟩

section Runs
variable (csum : List UInt8 → UInt16)

theorem queueStep_packet {ctx : WorkerCtx} (hm : Measuring ctx) {p : Packet} (hp : WellFormed p.bytes) :
    ∃ v, queueStep csum ctx (.packet p) =
        .ok ({ ctx with dataRcvd := ctx.dataRcvd + (Bytes.ack p.bytes - ctx.lastAck).toUInt64
                        lastAck := Bytes.ack p.bytes }, [v]) ∧
      v.id = p.id ∧ (v.isDrop = true ↔ NoPayload p.bytes ∧ Bytes.ack p.bytes = ctx.lastAck) := by
  obtain ⟨v, hv, hid, hdrop⟩ := finish_verdict csum ctx p
  refine ⟨v, ?_, hid, hdrop.trans (dedups_wellFormed hp hm.dedup)⟩
  have hstep : queueStep csum ctx (.packet p) = .ok (finish csum ctx p.id p.bytes) :=
    (callback_no_drop csum p hm.drop).trans (if_pos hm.reorder)
  have hafter : (finish csum ctx p.id p.bytes).1 = _ :=
    (finish_fst csum ctx p.id p.bytes).trans (if_pos ⟨hp.readable, hm.rwnd⟩)
  rw [hstep, ← hafter, ← hv]

theorem queueStep_tick {ctx ctx' : WorkerCtx} {tctx : TcpCtx} {o : List Verdict}
    (h : queueStep csum ctx (.tick tctx) = .ok (ctx', o)) :
    ∃ t, ctx' = { ctx with tuneRwnd := t, dataRcvd := 0 } := by
  simp only [queueStep, QueueInput.op, workerStep, C.bind_ok] at h
  obtain ⟨ctx₁, hctx, h⟩ := h
  cases h
  exact tcpSchedule_ok hctx

/-- **The baseline after a run** is the number of the last packet, of whichever connection. -/
theorem queue_run {is : List QueueInput} : ∀ {ctx ctx' : WorkerCtx} {o : List Verdict}, Measuring ctx →
    (∀ p ∈ packetsOf is, WellFormed p.bytes) → run (queueStep csum) ctx is = .ok (ctx', o) →
    Measuring ctx' ∧ ctx'.lastAck = baseline ctx.lastAck (packetsOf is) := by
  induction is with
  | nil =>
    intro ctx ctx' o hm _ hrun
    cases hrun
    exact ⟨hm, rfl⟩
  | cons i is ih =>
    intro ctx ctx' o hm hwf hrun
    obtain ⟨ctx₁, o₁, o₂, hstep, hrun, -⟩ := run_cons_ok.mp hrun
    cases i with
    | packet p =>
      obtain ⟨v, hp, -⟩ := queueStep_packet csum hm (hwf p List.mem_cons_self)
      rw [hp] at hstep
      cases hstep
      exact ih (hm.counted _ _ _) (fun q hq => hwf q (List.mem_cons_of_mem p hq)) hrun
    | tick tctx =>
      obtain ⟨t, rfl⟩ := queueStep_tick csum hstep
      obtain ⟨hm', hlast⟩ := ih (hm.counted t 0 ctx.lastAck) hwf hrun
      exact ⟨hm', hlast⟩

theorem packets_progress {ps : List Packet} : ∀ {ctx ctx' : WorkerCtx} {o : List Verdict}, Measuring ctx →
    (∀ p ∈ ps, WellFormed p.bytes) → run (queueStep csum) ctx (ps.map .packet) = .ok (ctx', o) →
    ctx'.dataRcvd = ctx.dataRcvd + progress ctx.lastAck ps := by
  induction ps with
  | nil =>
    intro ctx ctx' o _ _ hrun
    cases hrun
    simp [progress]
  | cons p ps ih =>
    intro ctx ctx' o hm hwf hrun
    obtain ⟨ctx₁, o₁, o₂, hstep, hrun, -⟩ := run_cons_ok.mp hrun
    obtain ⟨v, hp, -⟩ := queueStep_packet csum hm (hwf p List.mem_cons_self)
    rw [hp] at hstep
    cases hstep
    rw [ih (hm.counted _ _ _) (fun q hq => hwf q (List.mem_cons_of_mem p hq)) hrun,
      progress, UInt64.add_assoc]

/-- **The count since the last tick.** -/
theorem counter_since_tick {ctx ctx' : WorkerCtx} (hm : Measuring ctx) {pre : List QueueInput} {tctx : TcpCtx}
    {mid : List Packet} (hpre : ∀ p ∈ packetsOf pre, WellFormed p.bytes) (hmid : ∀ p ∈ mid, WellFormed p.bytes)
    {o : List Verdict}
    (hrun : run (queueStep csum) ctx (pre ++ .tick tctx :: mid.map .packet) = .ok (ctx', o)) :
    ctx'.dataRcvd = progress (baseline ctx.lastAck (packetsOf pre)) mid := by
  obtain ⟨c, o₁, o₂, hbefore, hafter, -⟩ := run_append_ok.mp hrun
  obtain ⟨hc, hlast⟩ := queue_run csum hm hpre hbefore
  obtain ⟨c₁, o₃, o₄, htick, hrest, -⟩ := run_cons_ok.mp hafter
  obtain ⟨t, rfl⟩ := queueStep_tick csum htick
  rw [packets_progress csum (hc.counted _ _ _) hmid hrest, ← hlast]
  simp

variable {κ : Type} [DecidableEq κ] {conn : Packet → κ} {A : κ}

theorem Alone.packetsOf {is as : List QueueInput} (h : Alone conn A is as) :
    packetsOf as = (packetsOf is).filter (fun p => conn p = A) := by
  have hmap : ∀ js : List QueueInput, Handoff.packetsOf js = (js.map QueueInput.packet?).reduceOption := by
    intro js
    rw [List.reduceOption, List.filterMap_map]
    rfl
  rw [hmap as, hmap is, h]
  generalize is.map QueueInput.packet? = os
  induction os with
  | nil => rfl
  | cons o os ih =>
    cases o with
    | none => exact ih
    | some p => by_cases hp : conn p = A <;> simp [hp, ih]

theorem Alone.wellFormed {is as : List QueueInput} (h : Alone conn A is as)
    (hwf : ∀ p ∈ Handoff.packetsOf is, WellFormed p.bytes) : ∀ p ∈ Handoff.packetsOf as, WellFormed p.bytes := by
  intro p hp
  rw [h.packetsOf] at hp
  exact hwf p (List.mem_of_mem_filter hp)

/-- **Connections that share a queue share its baseline.** A packet gets the verdict it would get without the
    other connections iff it carries payload or its comparison with the packet before it on the queue comes
    out as that with the packet before it of its own connection. Between two ticks the counter adds up the
    distances between neighbours on the queue, and with one connection alone those between its own packets. It is the
    sum of what two connections count alone iff the net distances and a turn for each step back add up so. -/
theorem shared_baseline (conn : Packet → κ) (A B : κ) {ctx : WorkerCtx} (hm : Measuring ctx)
    {pre asA asB : List QueueInput} (hpre : ∀ p ∈ packetsOf pre, WellFormed p.bytes)
    (hA : Alone conn A pre asA) (hB : Alone conn B pre asB) :
    let before := baseline ctx.lastAck (packetsOf pre)
    let own := fun X => baseline ctx.lastAck ((packetsOf pre).filter (fun p => conn p = X))
    (∀ c cA o oA p, run (queueStep csum) ctx pre = .ok (c, o) → run (queueStep csum) ctx asA = .ok (cA, oA) →
      WellFormed p.bytes → conn p = A →
      ∃ r rA v vA, queueStep csum c (.packet p) = .ok (r, [v]) ∧ queueStep csum cA (.packet p) = .ok (rA, [vA]) ∧
        v.id = p.id ∧ vA.id = p.id ∧
        (v.isDrop = vA.isDrop ↔
          (NoPayload p.bytes → (Bytes.ack p.bytes = before ↔ Bytes.ack p.bytes = own A)))) ∧
    (∀ c cA cB o oA oB t tA tB mid, (∀ p ∈ mid, WellFormed p.bytes) →
      run (queueStep csum) ctx (pre ++ .tick t :: mid.map .packet) = .ok (c, o) →
      run (queueStep csum) ctx (asA ++ .tick tA :: (mid.filter (fun p => conn p = A)).map .packet) = .ok (cA, oA) →
      run (queueStep csum) ctx (asB ++ .tick tB :: (mid.filter (fun p => conn p = B)).map .packet) = .ok (cB, oB) →
      c.dataRcvd = progress before mid ∧
        cA.dataRcvd = progress (own A) (mid.filter (fun p => conn p = A)) ∧
        cB.dataRcvd = progress (own B) (mid.filter (fun p => conn p = B)) ∧
        (c.dataRcvd = cA.dataRcvd + cB.dataRcvd ↔
          travelled before mid ≡ travelled (own A) (mid.filter (fun p => conn p = A)) +
            travelled (own B) (mid.filter (fun p => conn p = B)) [ZMOD 2^64])) := by
  intro before own
  refine ⟨?_, ?_⟩
  · intro c cA o oA p hrun hrunA hp _
    obtain ⟨hc, hlast⟩ := queue_run csum hm hpre hrun
    obtain ⟨hcA, hlastA⟩ := queue_run csum hm (hA.wellFormed hpre) hrunA
    rw [hA.packetsOf] at hlastA
    obtain ⟨v, hstep, hid, hdrop⟩ := queueStep_packet csum hc hp
    obtain ⟨vA, hstepA, hidA, hdropA⟩ := queueStep_packet csum hcA hp
    refine ⟨_, _, v, vA, hstep, hstepA, hid, hidA, ?_⟩
    rw [Bool.eq_iff_iff, hdrop, hdropA, hlast, hlastA]
    exact and_congr_right_iff
  · intro c cA cB o oA oB t tA tB mid hmid hrun hrunA hrunB
    have hsub : ∀ X, ∀ p ∈ mid.filter (fun p => conn p = X), WellFormed p.bytes :=
      fun X p hp => hmid p (List.mem_of_mem_filter hp)
    have hc := counter_since_tick csum hm hpre hmid hrun
    have hcA := counter_since_tick csum hm (hA.wellFormed hpre) (hsub A) hrunA
    have hcB := counter_since_tick csum hm (hB.wellFormed hpre) (hsub B) hrunB
    rw [hA.packetsOf] at hcA
    rw [hB.packetsOf] at hcB
    refine ⟨hc, hcA, hcB, ?_⟩
    rw [hc, hcA, hcB, progress_travelled, progress_travelled, progress_travelled, ← UInt64.ofInt_add, ofInt_eq_ofInt_iff]

end Runs

/-! Two connections that take turns. -/

/-- The source port, which tells the connections of one host apart. -/
def sourcePort (p : Packet) : UInt16 := Bytes.u16 p.bytes (Bytes.ihl p.bytes)

/-- An acknowledgement from a port below 256. -/
def ackFrom (port : UInt8) (id ack : UInt32) : Packet := ⟨id, (ackSegment ack 100).set 21 port⟩

def sharedWorker : WorkerCtx := { zeroWorker with doDedup := 1, doRwnd := 1 }

/-- Two equal acknowledgements from port 1 around one from port 2. -/
def takenTurns : List Packet := [ackFrom 1 1 5, ackFrom 2 2 7, ackFrom 1 3 5]

/-- A tick, and the packets of `takenTurns` from the given ports. -/
def turns (ports : List UInt16) : List QueueInput :=
  .tick zeroTcp :: (takenTurns.filter (fun p => sourcePort p ∈ ports)).map .packet

theorem shared_baseline_turns :
    ∃ c cA r rA v vA, run (queueStep zeroCsum) sharedWorker (turns [1, 2]) = .ok c ∧
      run (queueStep zeroCsum) sharedWorker (turns [1]) = .ok cA ∧
      queueStep zeroCsum c.1 (.packet (ackFrom 1 4 9)) = .ok (r, [v]) ∧
      queueStep zeroCsum cA.1 (.packet (ackFrom 1 4 9)) = .ok (rA, [vA]) ∧ v.isDrop = vA.isDrop ∧
      ∃ d, run (queueStep zeroCsum) sharedWorker (turns [1, 2] ++ [.tick zeroTcp, .packet (ackFrom 1 4 9)]) = .ok d ∧
        d.1.dataRcvd = 4 := by
  have hm : Measuring sharedWorker := ⟨rfl, rfl, by decide, by decide⟩
  have hwf : ∀ p ∈ packetsOf (turns [1, 2]), WellFormed p.bytes := by decide
  obtain ⟨hverdict, hcount⟩ := shared_baseline zeroCsum sourcePort 1 2 hm hwf
    (show Alone sourcePort 1 (turns [1, 2]) (turns [1]) by decide)
    (show Alone sourcePort 2 (turns [1, 2]) (turns [2]) by decide)
  obtain ⟨r, rA, v, vA, hstep, hstepA, -, -, hsame⟩ :=
    hverdict _ _ _ _ (ackFrom 1 4 9) rfl rfl (by decide) (by decide)
  have hdata := hcount _ _ _ _ _ _ zeroTcp zeroTcp zeroTcp [ackFrom 1 4 9] (by decide) rfl rfl rfl
  exact ⟨_, _, r, rA, v, vA, rfl, rfl, hstep, hstepA, hsame.mpr fun _ => by decide, _, rfl, hdata.1.trans (by decide)⟩

/-- **Taking turns disturbs both.** Alone, the second acknowledgement of port 1 is a duplicate and is dropped;
    after one from port 2 it is accepted, and counted as almost a whole turn of the 32-bit range. -/
theorem turns_disturbed :
    ∃ c cA cB v v' u v₁ v₂, run (queueStep zeroCsum) sharedWorker (turns [1, 2]) = .ok (c, [v, u, v']) ∧
      run (queueStep zeroCsum) sharedWorker (turns [1]) = .ok (cA, [v₁, v₂]) ∧
      run (queueStep zeroCsum) sharedWorker (turns [2]) = .ok (cB, [u]) ∧
      v'.id = v₂.id ∧ v'.isDrop = false ∧ v₂.isDrop = true ∧
      c.dataRcvd ≠ cA.dataRcvd + cB.dataRcvd :=
  ⟨_, _, _, _, _, _, _, _, rfl, rfl, rfl, rfl, rfl, rfl, by decide⟩

end Handoff
