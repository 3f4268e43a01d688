import Handoff.Lib.Machine
import Handoff.Action
import Handoff.Stages

/- One worker as a machine: it is handed packets and has its setters and the sampler's
   tick called, in any order. `WorkerOp` lists these calls, `workerStep` runs one, and a
   run of the machine is any sequence of them. -/
namespace Handoff

/-- A call on a worker. `tcpSchedule` is a tick of a sampler in any state. -/
inductive WorkerOp
  | callback (nfa : NfqData)
  | setMark (mark : UInt32)
  | setReorder (enable : Int) (count offset : UInt16)
  | setDrop (enable dropCount : Int)
  | setDedup (enable : Int)
  | solUpdate (rwnd : Int)
  | setRwnd (rwnd : UInt16)
  | setBurst (enable rwnd : Int)
  | setAdapt (enable rwnd : Int)
  | initTcpSched (doRwnd : Int)
  | tcpSchedule (tctx : TcpCtx)
  deriving DecidableEq

def workerStep (csum : List UInt8 → UInt16) (ctx : WorkerCtx) : WorkerOp → C (WorkerCtx × List Verdict)
  | .callback nfa => workerCallback csum ctx nfa
  | .setMark mark => .ok (workerSetMark ctx mark, [])
  | .setReorder enable count offset => .ok (workerSetReorder ctx enable count offset, [])
  | .setDrop enable dropCount => .ok (workerSetDrop ctx enable dropCount, [])
  | .setDedup enable => .ok (workerSetDedup ctx enable, [])
  | .solUpdate rwnd => .ok (workerSolUpdate ctx rwnd, [])
  | .setRwnd rwnd => .ok (workerSetRwnd ctx rwnd, [])
  | .setBurst enable rwnd => .ok (workerSetBurst ctx enable rwnd, [])
  | .setAdapt enable rwnd => .ok (workerSetAdapt ctx enable rwnd, [])
  | .initTcpSched doRwnd => .ok (workerInitTcpSched ctx doRwnd, [])
  | .tcpSchedule tctx => do
    let ctx ← tcpSchedule tctx ctx
    return (ctx, [])

/-- The packet a call delivers. -/
@[simp] def WorkerOp.packet? : WorkerOp → Option NfqData
  | .callback nfa => some nfa
  | _ => none

/-- The ids delivered by a sequence of calls. -/
def deliveredIds (ops : List WorkerOp) : List UInt32 := (ops.filterMap WorkerOp.packet?).map NfqData.packetId

@[simp] theorem deliveredIds_append (as bs : List WorkerOp) :
    deliveredIds (as ++ bs) = deliveredIds as ++ deliveredIds bs := by
  simp [deliveredIds]

@[simp] theorem deliveredIds_singleton (op : WorkerOp) :
    deliveredIds [op] = (op.packet?.map NfqData.packetId).toList := by
  cases op <;> rfl

/-- Packets given to the callback. -/
def packetOps (ps : List Packet) : List WorkerOp := ps.map fun p => .callback p.nfa

@[simp] theorem packetOps_cons (p : Packet) (ps : List Packet) :
    packetOps (p :: ps) = .callback p.nfa :: packetOps ps := rfl

@[simp] theorem packetOps_append (ps qs : List Packet) :
    packetOps (ps ++ qs) = packetOps ps ++ packetOps qs := by
  simp [packetOps]

/-- A packet that meets no drop count goes straight to the reorder stage. -/
theorem callback_no_drop (csum : List UInt8 → UInt16) {ctx : WorkerCtx} (p : Packet) (hd : ctx.doDrop = 0) :
    workerStep csum ctx (.callback p.nfa) =
      if ctx.doReorder = 0 then .ok (finish csum ctx p.id p.bytes) else reorderStep ctx p.id := by
  have hafter : afterDrop ctx = ctx := by simp [afterDrop, hd]
  have hdrop : ¬ Drops ctx := fun h => h.1 hd
  have hcb : workerCallback csum ctx p.nfa = _ := workerCallback_some csum rfl (fun h => absurd hd h)
  rw [if_neg hdrop, hafter] at hcb
  exact hcb

/-- The ids the reorder buffer holds in a session in progress. -/
def live (ctx : WorkerCtx) : List UInt32 := if ctx.doReorder = 0 then [] else held ctx

/-- What a tick writes: the window and the byte counter. -/
theorem tcpSchedule_ok {tctx : TcpCtx} {ctx ctx' : WorkerCtx} (h : tcpSchedule tctx ctx = .ok ctx') :
    ∃ t, ctx' = { ctx with tuneRwnd := t, dataRcvd := 0 } := by
  unfold tcpSchedule at h
  split at h
  · obtain ⟨p, -, h⟩ := C.bind_ok.mp h
    cases h
    exact ⟨_, rfl⟩
  · split at h
    · cases h
      exact ⟨_, rfl⟩
    · cases h
      exact ⟨ctx.tuneRwnd, rfl⟩

/-! Setters and ticks that do not arm the reorder buffer leave it alone. -/

section Buffer
variable (ctx : WorkerCtx)

@[simp] theorem live_setMark (m : UInt32) : live (workerSetMark ctx m) = live ctx := rfl
@[simp] theorem live_setDedup (e : Int) : live (workerSetDedup ctx e) = live ctx := rfl
@[simp] theorem live_solUpdate (r : Int) : live (workerSolUpdate ctx r) = live ctx := rfl
@[simp] theorem live_setRwnd (r : UInt16) : live (workerSetRwnd ctx r) = live ctx := rfl
@[simp] theorem live_initTcpSched (d : Int) : live (workerInitTcpSched ctx d) = live ctx := rfl
@[simp] theorem live_setDrop (e n : Int) : live (workerSetDrop ctx e n) = live ctx := by
  unfold workerSetDrop; split <;> rfl
@[simp] theorem live_setBurst (e r : Int) : live (workerSetBurst ctx e r) = live ctx := by
  unfold workerSetBurst; split <;> rfl
@[simp] theorem live_setAdapt (e r : Int) : live (workerSetAdapt ctx e r) = live ctx := by
  unfold workerSetAdapt; split <;> rfl
@[simp] theorem live_afterDrop : live (afterDrop ctx) = live ctx := by
  unfold afterDrop; split <;> rfl
@[simp] theorem live_afterRwnd (bs : List UInt8) : live (afterRwnd ctx bs) = live ctx := by
  unfold afterRwnd; split <;> rfl

/-- Arming starts an empty buffer and disabling drops the session, so both leave nothing live. -/
@[simp] theorem live_setReorder (e : Int) (c o : UInt16) : live (workerSetReorder ctx e c o) = [] := by
  unfold workerSetReorder
  by_cases he : e = 0 <;> simp [live, held, he]

end Buffer

/-! A concrete worker, packet and checksum for runs on fixed inputs. -/

/-- Memory of zeros. -/
def zeroWorker : WorkerCtx :=
  { mark := 0, doReorder := 0, reorderCount := 0, reorderOffset := 0, reorderIdCur := 0,
    reorderIds := Vector.replicate _ 0, doDrop := 0, dropCount := 0, doRwnd := 0, tuneRwnd := 0,
    doBurst := 0, dataRcvd := 0, doAdapt := 0, doDedup := 0, lastAck := 0 }

/-- A checksum routine that always computes 0. -/
def zeroCsum (_ : List UInt8) : UInt16 := 0

/-- An IPv4/TCP packet with an acknowledgement number and a window, and without payload. -/
def ackSegment (ack : UInt32) (window : UInt16) : List UInt8 :=
  ((0x45 : UInt8) :: List.replicate 27 0) ++
    [(ack >>> 24).toUInt8, (ack >>> 16).toUInt8, (ack >>> 8).toUInt8, ack.toUInt8, 0x50, 0x10,
     (window >>> 8).toUInt8, window.toUInt8, 0, 0, 0, 0]

/-- A delivered packet with an empty payload. -/
def emptyPacket (id : UInt32) : NfqData := ⟨id, some []⟩

end Handoff
