import Handoff.Packet

/- The packet worker (`worker.c`): the state of one queue's worker, the four stages a
   packet goes through, the callback that chains them, and the setters the scheduler's
   actions call.

   Every operation runs under the lock of what it touches and is one step here. An
   `nfq_set_verdict` or `nfq_set_verdict2` call is an entry of the verdict list. The value a
   callback returns is the one its last such call returned (`callbackRet`), and the
   uninitialised local `ret` if it made none. The checksum routine of libnetfilter_queue is
   the parameter `csum`: the checksum it computes for the bytes of a packet. -/
namespace Handoff

/-- `WORKER_MAX_REORDER_COUNT`. -/
abbrev workerMaxReorderCount : Nat := 1000

/-- `worker_ctx`, without its name, its locks and the field `burst_sample_interval`, which nothing
    reads. -/
structure WorkerCtx where
  mark : UInt32
  doReorder : Int
  reorderCount : Int
  reorderOffset : Int
  reorderIdCur : Int
  reorderIds : Vector UInt32 workerMaxReorderCount
  doDrop : Int
  dropCount : Int
  doRwnd : Int
  tuneRwnd : UInt16
  doBurst : Int
  dataRcvd : UInt64
  doAdapt : Int
  doDedup : Int
  lastAck : UInt32
  deriving DecidableEq, Repr

/-- One verdict call. `drop` is `nfq_set_verdict` with `NF_DROP`; `accept` is `nfq_set_verdict2`
    with `NF_ACCEPT`, the mark it sets and the bytes that replace the packet, if any. -/
inductive Verdict
  | drop (id : UInt32)
  | accept (id mark : UInt32) (data : Option (List UInt8))
  deriving DecidableEq, Repr

def Verdict.id : Verdict → UInt32
  | .drop id => id
  | .accept id _ _ => id

def Verdict.isDrop : Verdict → Bool
  | .drop _ => true
  | .accept _ _ _ => false

@[simp] theorem Verdict.id_drop (id : UInt32) : (Verdict.drop id).id = id := rfl
@[simp] theorem Verdict.id_accept (id m : UInt32) (d : Option (List UInt8)) :
    (Verdict.accept id m d).id = id := rfl
@[simp] theorem Verdict.isDrop_drop (id : UInt32) : (Verdict.drop id).isDrop = true := rfl
@[simp] theorem Verdict.isDrop_accept (id m : UInt32) (d : Option (List UInt8)) :
    (Verdict.accept id m d).isDrop = false := rfl

/-- What a stage leaves: whether it handled the packet, the state, and its verdict calls. -/
structure Stage where
  handled : Bool
  ctx : WorkerCtx
  verdicts : List Verdict

/-- A stage that leaves the packet to the next one. -/
@[simp] def Stage.pass (ctx : WorkerCtx) : Stage := ⟨false, ctx, []⟩

/-- `worker_handle_drop`. The count is decremented by the test also when nothing is dropped. -/
def workerHandleDrop (ctx : WorkerCtx) (id : UInt32) : C Stage :=
  if ctx.doDrop = 0 then .ok (.pass ctx)
  else do
    let n ← decInt ctx.dropCount
    return {
      handled := 0 < ctx.dropCount
      ctx := { ctx with dropCount := n, doDrop := if n ≤ 0 then 0 else ctx.doDrop }
      verdicts := if 0 < ctx.dropCount then [.drop id] else [] }

/-- The first half of `worker_handle_reorder`: queue the packet while `reorder_count-- > 0`, else
    let it pass while `reorder_offset-- > 0`. When neither holds nothing happens to it. -/
def reorderAdmit (ctx : WorkerCtx) (id : UInt32) : C (WorkerCtx × List Verdict) := do
  let n ← decInt ctx.reorderCount
  if 0 < ctx.reorderCount then
    let ids ← writeAt ctx.reorderIds ctx.reorderIdCur id
    return ({ ctx with reorderCount := n, reorderIds := ids, reorderIdCur := ctx.reorderIdCur + 1 }, [])
  else
    let k ← decInt ctx.reorderOffset
    return ({ ctx with reorderCount := n, reorderOffset := k },
      if 0 < ctx.reorderOffset then [.accept id ctx.mark none] else [])

/-- The release loop, from index `n - 1` down to 0. -/
def releaseQueued (ids : Vector UInt32 workerMaxReorderCount) (mark : UInt32) : Nat → C (List Verdict)
  | 0 => .ok []
  | n + 1 => do
    let id ← readAt ids n
    let vs ← releaseQueued ids mark n
    return .accept id mark none :: vs

/-- `worker_handle_reorder`. -/
def workerHandleReorder (ctx : WorkerCtx) (id : UInt32) : C Stage :=
  if ctx.doReorder = 0 then .ok (.pass ctx)
  else do
    let (ctx, vs) ← reorderAdmit ctx id
    if ctx.reorderOffset ≤ 0 then
      let rs ← releaseQueued ctx.reorderIds ctx.mark ctx.reorderIdCur.toNat
      return ⟨true, { ctx with doReorder := 0, reorderIdCur := 0 }, vs ++ rs⟩
    else return ⟨true, ctx, vs⟩

/-- `worker_handle_dedup`. Both length tests are made in `size_t`, the last one in `int`. -/
def workerHandleDedup (ctx : WorkerCtx) (id : UInt32) (nfa : NfqData) : C Stage :=
  if ctx.doDedup = 0 then .ok (.pass ctx)
  else
    let len := nfqGetPayload nfa
    if ltSize len iphdrSize then .ok (.pass ctx)
    else do
      let ihl ← ipIhl nfa
      if ltSize len (ihl + tcphdrSize) then return .pass ctx
      let ack ← tcpAckSeq nfa ihl
      if ack = ctx.lastAck then
        let doff ← tcpDoff nfa ihl
        if len ≤ ihl + doff then return ⟨true, ctx, [.drop id]⟩ else return .pass ctx
      else return .pass ctx

/-- Write a 16-bit field in network order. -/
def putU16 (bs : List UInt8) (i : Nat) (x : UInt16) : List UInt8 :=
  (bs.set i (UInt8.ofNat (x.toNat / 256))).set (i + 1) (UInt8.ofNat (x.toNat % 256))

section Csum
variable (csum : List UInt8 → UInt16)

/-- The copy of the packet with the window set and the checksum recomputed. -/
def rewriteWindow (bs : List UInt8) (rwnd : UInt16) : List UInt8 :=
  let bs := putU16 bs (Bytes.ihl bs + 14) rwnd
  putU16 bs (Bytes.ihl bs + 16) (csum bs)

/-- `worker_handle_rwnd`. The first length test is made in `size_t`, the others in `int`. The guard
    `recv < 0` on an unsigned value never holds and only logs. -/
def workerHandleRwnd (ctx : WorkerCtx) (id : UInt32) (nfa : NfqData) : C Stage :=
  let len := nfqGetPayload nfa
  if ltSize len iphdrSize then .ok (.pass ctx)
  else do
    let ihl ← ipIhl nfa
    if ihl < iphdrSize ∨ len < ihl + tcphdrSize then return .pass ctx
    if ctx.doRwnd = 0 then return .pass ctx
    let ack ← tcpAckSeq nfa ihl
    let recv := ack - ctx.lastAck
    let ctx := { ctx with dataRcvd := ctx.dataRcvd + recv.toUInt64, lastAck := ack }
    let originalRwnd ← tcpWindow nfa ihl
    if ctx.tuneRwnd < originalRwnd then
      return ⟨true, ctx,
        [.accept id ctx.mark (some (rewriteWindow csum (nfa.payload.getD []) ctx.tuneRwnd))]⟩
    else return .pass ctx

/-- `worker_callback`. -/
def workerCallback (ctx : WorkerCtx) (nfa : NfqData) : C (WorkerCtx × List Verdict) := do
  let id := nfa.packetId
  let _ ← packetLogging nfa
  let s ← workerHandleDrop ctx id
  if s.handled then return (s.ctx, s.verdicts)
  let s ← workerHandleReorder s.ctx id
  if s.handled then return (s.ctx, s.verdicts)
  let s ← workerHandleDedup s.ctx id nfa
  if s.handled then return (s.ctx, s.verdicts)
  let s ← workerHandleRwnd csum s.ctx id nfa
  if s.handled then return (s.ctx, s.verdicts)
  return (s.ctx, [.accept id s.ctx.mark none])

end Csum

/-- The verdict call whose value the callback returns; `none` is the uninitialised local. -/
def callbackRet (vs : List Verdict) : Option Verdict := vs.getLast?

/-! Initialisation and setters. -/

/-- `worker_init_ctx` on the memory `malloc` returned. -/
def workerInitCtx (mem : WorkerCtx) : WorkerCtx :=
  { mem with mark := 0, doRwnd := 0, doDedup := 0, doReorder := 0, doDrop := 0, doAdapt := 0, doBurst := 0 }

def workerSetMark (ctx : WorkerCtx) (mark : UInt32) : WorkerCtx := { ctx with mark }

def workerSolUpdate (ctx : WorkerCtx) (rwnd : Int) : WorkerCtx :=
  { ctx with doAdapt := 0, doBurst := 0, tuneRwnd := UInt16.ofInt rwnd }

def workerSetRwnd (ctx : WorkerCtx) (rwnd : UInt16) : WorkerCtx := { ctx with tuneRwnd := rwnd }

def workerSetBurst (ctx : WorkerCtx) (enable rwnd : Int) : WorkerCtx :=
  if 0 < enable then
    { ctx with doBurst := enable, doAdapt := 0, dataRcvd := 0, tuneRwnd := UInt16.ofInt rwnd }
  else { ctx with doBurst := enable }

def workerSetAdapt (ctx : WorkerCtx) (enable rwnd : Int) : WorkerCtx :=
  if 0 < enable then
    { ctx with doAdapt := enable, doBurst := 0, dataRcvd := 0, tuneRwnd := UInt16.ofInt rwnd }
  else { ctx with doAdapt := enable }

def workerInitTcpSched (ctx : WorkerCtx) (doRwnd : Int) : WorkerCtx :=
  { ctx with doRwnd, doAdapt := 1, dataRcvd := 0 }

def workerSetDedup (ctx : WorkerCtx) (enable : Int) : WorkerCtx := { ctx with doDedup := enable }

/-- `worker_set_reorder`. Arming starts an empty buffer; disabling leaves the buffer as it is. -/
def workerSetReorder (ctx : WorkerCtx) (enable : Int) (count offset : UInt16) : WorkerCtx :=
  let count : UInt16 := if workerMaxReorderCount < count.toNat then 1000 else count
  if enable ≠ 0 then
    { ctx with doReorder := enable, reorderCount := count.toNat, reorderOffset := offset.toNat,
               reorderIdCur := 0 }
  else { ctx with doReorder := enable }

def workerSetDrop (ctx : WorkerCtx) (enable dropCount : Int) : WorkerCtx :=
  if enable ≠ 0 then { ctx with doDrop := enable, dropCount } else { ctx with doDrop := enable }

end Handoff
