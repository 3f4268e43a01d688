import Handoff.Worker

/- The controller's actions (`action.c`, and the flag writes of `nfqueue.c`).

   `malloc`ed queue and worker contexts live in a heap of queue objects, one for each
   `INIT`, and the tables `queues` and `workers` hold positions in it. An object is never
   freed: teardown only destroys its worker and clears the table entries, so a pointer
   kept elsewhere (`wkctx`) stays readable. What the C library and libnetfilter_queue
   decide during an action is its argument `LibCalls`. -/
namespace Handoff

/-- `ACTION_MAX_NFQUEUE`. -/
abbrev actionMaxNfqueue : Nat := 0xFF

/-- `RWSCALE`. -/
def rwscale : UInt64 := 10

structure LinkParameter where
  mark : Int
  histRw : Int
  rtt : Int
  deriving DecidableEq, Repr

/-- `tcp_ctx`. `wkctx` is a position in the heap of queue objects. -/
structure TcpCtx where
  fire : UInt64
  wkctx : Option Nat
  mark : Int
  sampleInterval : Int
  burstSampleInterval : Int
  threshold : ℚ
  pace : ℚ
  enable : Int
  histParam : Vector LinkParameter 3
  deriving DecidableEq

/-- `enum nfq_status`. -/
def nfqStopped : Int := 0
def nfqRunning : Int := 1
def nfqDead : Int := 2

/-- `nfq_ctx`, without the library's handles. -/
structure NfqCtx where
  queueNum : UInt16
  status : Int
  deriving DecidableEq, Repr

def nfqStart (ctx : NfqCtx) : NfqCtx := { ctx with status := nfqRunning }
def nfqStop (ctx : NfqCtx) : NfqCtx := { ctx with status := nfqStopped }

/-- `nfq_teardown`: the flag is set first, whatever the two library calls then return. -/
def nfqTeardown (ctx : NfqCtx) (libOk : Bool) : NfqCtx × Int :=
  ({ ctx with status := nfqDead }, if libOk then 0 else -1)

/-- The contexts one `INIT` allocates. -/
structure QueueObj where
  nfq : NfqCtx
  worker : WorkerCtx
  destroyed : Bool
  deriving DecidableEq, Repr

/-- `action_ctx`, with the heap its tables point into. -/
structure ActionCtx where
  queues : Vector (Option Nat) actionMaxNfqueue
  workers : Vector (Option Nat) actionMaxNfqueue
  heap : List QueueObj
  deriving DecidableEq

/-- `action_init_ctx`. -/
def actionInitCtx : ActionCtx :=
  { queues := Vector.replicate _ none, workers := Vector.replicate _ none, heap := [] }

/-- `init_tcp_scheduler` on the uninitialised local of `main`. -/
def initTcpScheduler (mem : TcpCtx) : TcpCtx :=
  { mem with fire := 0xFFFFFFFF, wkctx := none, sampleInterval := 0 }

/-- A sampler in memory of zeros. -/
def zeroTcp : TcpCtx :=
  { fire := 0, wkctx := none, mark := 0, sampleInterval := 0, burstSampleInterval := 0, threshold := 0,
    pace := 0, enable := 0, histParam := Vector.replicate _ ⟨0, 0, 0⟩ }

/-! The sampler. -/

/-- `(int)(data_rcvd * rate)` with `rate = rtt / sample_interval`. Dividing by zero gives an infinite
    or undefined rate, which converts like any number out of range. -/
def burstEstimate (dataRcvd : UInt64) (rtt sampleInterval : Int) : Int :=
  if sampleInterval = 0 then intMin else cvtInt (dataRcvd.toNat * ((rtt : ℚ) / sampleInterval))

/-- `tcp_schedule` on the worker it is linked to. -/
def tcpSchedule (tctx : TcpCtx) (ctx : WorkerCtx) : C WorkerCtx :=
  if ctx.doBurst ≠ 0 then do
    let p ← readAt tctx.histParam tctx.mark
    -- a negative estimate becomes a huge one before it is shifted
    let rwEst := UInt64.ofInt (burstEstimate ctx.dataRcvd p.rtt tctx.sampleInterval) >>> rwscale
    return { ctx with
      tuneRwnd := if ctx.tuneRwnd.toNat < rwEst.toNat then rwEst.toUInt16 else ctx.tuneRwnd
      dataRcvd := 0 }
  else if ctx.doAdapt ≠ 0 ∧ 0 < ctx.tuneRwnd then
    let cw := ctx.dataRcvd >>> rwscale
    let rate : ℚ := cw.toNat / ctx.tuneRwnd.toNat
    .ok { ctx with
      tuneRwnd :=
        if tctx.threshold < rate then cvtU16 (ctx.tuneRwnd.toNat * (1 + tctx.pace))
        else if rate < 7 / 10 then cvtU16 (ctx.tuneRwnd.toNat * (1 - tctx.pace / 4))
        else ctx.tuneRwnd
      dataRcvd := 0 }
  else .ok { ctx with dataRcvd := 0 }

/-! What the controller's actions do to a worker and to the controller's own state. -/

/-- The body of `action_sol_update`. -/
def solUpdate (mark : UInt32) (wctx : WorkerCtx) (tctx : TcpCtx) : C (WorkerCtx × TcpCtx) := do
  -- the current link changes only together with the window it is left with
  let tctx ←
    if 0 < wctx.tuneRwnd then do
      let p ← readAt tctx.histParam tctx.mark
      let hist ← writeAt tctx.histParam tctx.mark { p with histRw := wctx.tuneRwnd.toNat }
      pure { tctx with histParam := hist, mark := toInt mark.toNat }
    else pure tctx
  let p ← readAt tctx.histParam mark.toNat
  return (workerSolUpdate wctx p.histRw, tctx)

/-- The body of `action_set_rwnd`: a window below 10 becomes 10. -/
def setRwnd (rwnd : UInt16) (wctx : WorkerCtx) (tctx : TcpCtx) : C (WorkerCtx × TcpCtx) :=
  .ok (workerSetRwnd wctx (if rwnd < 10 then 10 else rwnd), tctx)

/-- The body of `action_set_burst`. -/
def setBurst (enable : Int) (wctx : WorkerCtx) (tctx : TcpCtx) : C (WorkerCtx × TcpCtx) := do
  let p ← readAt tctx.histParam tctx.mark
  let wctx := workerSetBurst wctx enable p.histRw
  -- the end of a burst leaves the period as it is, and the remembered window grows at most
  if 0 < enable then return (wctx, { tctx with sampleInterval := tctx.burstSampleInterval })
  else if p.histRw < wctx.tuneRwnd.toNat then
    let hist ← writeAt tctx.histParam tctx.mark { p with histRw := wctx.tuneRwnd.toNat }
    return (wctx, { tctx with histParam := hist })
  else return (wctx, tctx)

/-- The body of `action_set_adapt`. -/
def setAdapt (enable : Int) (wctx : WorkerCtx) (tctx : TcpCtx) : C (WorkerCtx × TcpCtx) := do
  let p ← readAt tctx.histParam tctx.mark
  return (workerSetAdapt wctx enable p.histRw,
    if 0 < enable then { tctx with sampleInterval := p.rtt } else tctx)

/-- `action_init_tcp_sched_args`, without the context and the queue. Entry 0 of `initParam` is never
    written by the parser. -/
structure InitTcpSchedArgs where
  enable : Int
  sampleInterval : Int
  threshold : ℚ
  pace : ℚ
  fire : Int
  mark : Int
  initParam : Vector LinkParameter 3
  deriving DecidableEq

/-- The body of `action_init_tcp_sched` for the worker at position `pos` of the heap. -/
def initTcpSched (args : InitTcpSchedArgs) (pos : Nat) (wctx : WorkerCtx) (tctx : TcpCtx) :
    C (WorkerCtx × TcpCtx) := do
  let p ← readAt args.initParam args.mark
  -- entry 0 keeps what it had
  let hist := (tctx.histParam.set 1 { args.initParam[1] with mark := 1 }).set 2
    { args.initParam[2] with mark := 2 }
  let tctx := { tctx with
    wkctx := some pos
    fire := UInt64.ofInt args.fire
    burstSampleInterval := args.sampleInterval
    threshold := args.threshold
    pace := args.pace
    mark := args.mark
    sampleInterval := p.rtt
    enable := args.enable
    histParam := hist }
  let q ← readAt tctx.histParam tctx.mark
  return (workerSetRwnd (workerInitTcpSched wctx args.enable) (UInt16.ofInt q.histRw), tctx)

/-! The actions. -/

/-- The state the scheduler's actions work on: `main`'s `tcp_ctx` and `action_ctx`. -/
structure Emulator where
  tcp : TcpCtx
  action : ActionCtx
  deriving DecidableEq

/-- What the library calls of one action return: the memory of a fresh worker and of the status word
    of a fresh `nfq_ctx`, whether `nfq_init` succeeds, and whether the library tears a queue down. -/
structure LibCalls where
  mem : WorkerCtx
  status : Int
  nfqInit : Bool
  nfqTeardown : Bool

/-- The object a table entry points to. -/
def deref (tab : Vector (Option Nat) actionMaxNfqueue) (heap : List QueueObj) (q : UInt16) :
    C (Nat × QueueObj) := do
  match ← readAt tab q.toNat with
  | none => .error .nullDeref
  | some p =>
    match heap[p]? with
    | none => .error .nullDeref
    | some o => .ok (p, o)

/-- Run a flag write on queue `q`. -/
def onQueue (e : Emulator) (q : UInt16) (f : NfqCtx → NfqCtx) : C Emulator := do
  let (p, o) ← deref e.action.queues e.action.heap q
  return { e with action.heap := e.action.heap.set p { o with nfq := f o.nfq } }

/-- Run the body of an action on the worker of queue `q`. -/
def onWorker (e : Emulator) (q : UInt16)
    (f : Nat → WorkerCtx → TcpCtx → C (WorkerCtx × TcpCtx)) : C Emulator := do
  let (p, o) ← deref e.action.workers e.action.heap q
  let (w, t) ← f p o.worker e.tcp
  return { tcp := t, action.queues := e.action.queues, action.workers := e.action.workers,
           action.heap := e.action.heap.set p { o with worker := w } }

def actionInitNfqueue (lib : LibCalls) (e : Emulator) (q : UInt16) : C Emulator :=
  if lib.nfqInit then do
    let p := e.action.heap.length
    let o : QueueObj := ⟨⟨q, lib.status⟩, workerInitCtx lib.mem, false⟩
    let queues ← writeAt e.action.queues q.toNat (some p)
    let workers ← writeAt e.action.workers q.toNat (some p)
    return { e with action := ⟨queues, workers, e.action.heap ++ [o]⟩ }
  else .error .exited

def actionStartNfqueue (e : Emulator) (q : UInt16) : C Emulator := onQueue e q nfqStart
def actionStopNfqueue (e : Emulator) (q : UInt16) : C Emulator := onQueue e q nfqStop

/-- `action_teardown_nfqueue`: a teardown the library refuses leaves the tables as they are. -/
def actionTeardownNfqueue (lib : LibCalls) (e : Emulator) (q : UInt16) : C Emulator := do
  let (p, o) ← deref e.action.queues e.action.heap q
  let (nfq, ret) := nfqTeardown o.nfq lib.nfqTeardown
  let e := { e with action.heap := e.action.heap.set p { o with nfq } }
  -- the queue is dead by now, but its table entries stay
  if ret ≠ 0 then return e
  let (w, o) ← deref e.action.workers e.action.heap q
  let queues ← writeAt e.action.queues q.toNat none
  let workers ← writeAt e.action.workers q.toNat none
  return { e with action := ⟨queues, workers, e.action.heap.set w { o with destroyed := true }⟩ }

def actionSetMark (e : Emulator) (q : UInt16) (mark : UInt32) : C Emulator :=
  onWorker e q fun _ w t => .ok (workerSetMark w mark, t)

def actionSetReorder (e : Emulator) (q : UInt16) (enable : Int) (count offset : UInt16) : C Emulator :=
  onWorker e q fun _ w t => .ok (workerSetReorder w enable count offset, t)

def actionSetDrop (e : Emulator) (q : UInt16) (enable dropCount : Int) : C Emulator :=
  onWorker e q fun _ w t => .ok (workerSetDrop w enable dropCount, t)

def actionSetDedup (e : Emulator) (q : UInt16) (enable : Int) : C Emulator :=
  onWorker e q fun _ w t => .ok (workerSetDedup w enable, t)

def actionSolUpdate (e : Emulator) (q : UInt16) (mark : UInt32) : C Emulator :=
  onWorker e q fun _ => solUpdate mark

def actionSetRwnd (e : Emulator) (q : UInt16) (rwnd : UInt16) : C Emulator :=
  onWorker e q fun _ => setRwnd rwnd

def actionSetBurst (e : Emulator) (q : UInt16) (enable : Int) : C Emulator :=
  onWorker e q fun _ => setBurst enable

def actionSetAdapt (e : Emulator) (q : UInt16) (enable : Int) : C Emulator :=
  onWorker e q fun _ => setAdapt enable

def actionInitTcpSched (e : Emulator) (q : UInt16) (args : InitTcpSchedArgs) : C Emulator :=
  onWorker e q (initTcpSched args)

/-- One scheduled action with its arguments. -/
inductive Action
  | command (command : List Char)
  | initNfqueue (q : UInt16)
  | startNfqueue (q : UInt16)
  | stopNfqueue (q : UInt16)
  | teardownNfqueue (q : UInt16)
  | setMark (q : UInt16) (mark : UInt32)
  | setReorder (q : UInt16) (enable : Int) (count offset : UInt16)
  | setDrop (q : UInt16) (enable dropCount : Int)
  | setDedup (q : UInt16) (enable : Int)
  | solUpdate (q : UInt16) (mark : UInt32)
  | setRwnd (q : UInt16) (rwnd : UInt16)
  | setBurst (q : UInt16) (enable : Int)
  | setAdapt (q : UInt16) (enable : Int)
  | initTcpSched (q : UInt16) (args : InitTcpSchedArgs)
  deriving DecidableEq

/-- The handler of an action. A shell command leaves the emulator's own state alone. -/
def runAction (lib : LibCalls) (e : Emulator) : Action → C Emulator
  | .command _ => .ok e
  | .initNfqueue q => actionInitNfqueue lib e q
  | .startNfqueue q => actionStartNfqueue e q
  | .stopNfqueue q => actionStopNfqueue e q
  | .teardownNfqueue q => actionTeardownNfqueue lib e q
  | .setMark q mark => actionSetMark e q mark
  | .setReorder q enable count offset => actionSetReorder e q enable count offset
  | .setDrop q enable dropCount => actionSetDrop e q enable dropCount
  | .setDedup q enable => actionSetDedup e q enable
  | .solUpdate q mark => actionSolUpdate e q mark
  | .setRwnd q rwnd => actionSetRwnd e q rwnd
  | .setBurst q enable => actionSetBurst e q enable
  | .setAdapt q enable => actionSetAdapt e q enable
  | .initTcpSched q args => actionInitTcpSched e q args

/-- `tcp_schedule` as the scheduler calls it: on the linked worker. -/
def tick (tcp : TcpCtx) (action : ActionCtx) : C ActionCtx :=
  match tcp.wkctx with
  | none => .error .nullDeref
  | some p =>
    match action.heap[p]? with
    | none => .error .nullDeref
    | some o => do
      let w ← tcpSchedule tcp o.worker
      return { action with heap := action.heap.set p { o with worker := w } }

end Handoff
