import Handoff.Action
import Mathlib.Data.List.Sort

/- The scheduler (`scheduler.c`): the event array, its comparator, and the loop of
   `scheduler_run` that merges the sorted events with the ticks of the sampler.

   The loop is a step function. A state is either at the loop test or in the inner
   loop, waiting for the clock before it calls the handler it chose; a step is one
   evaluation of the outer test or one reading of the clock. The scheduler is generic
   in what an event carries and in the state `ρ` the handlers work on besides
   `tcp_sched`: `Handlers` says what calling an event's handler or `tcp_schedule`
   does. -/
namespace Handoff

/-- `SCHEDULER_MAX_EVENT`. -/
def schedulerMaxEvent : Nat := 0xFFFF

/-- `scheduler_event`: the handler and its data are one value. -/
structure SchedulerEvent (α : Type) where
  timeMs : UInt64
  action : α
  idx : Int
  deriving DecidableEq, Repr

/-- `scheduler_ctx`, without its name: `events[0 .. event_count)`. -/
structure SchedulerCtx (α : Type) where
  events : List (SchedulerEvent α)
  deriving DecidableEq, Repr

def schedulerInitCtx {α : Type} : SchedulerCtx α := ⟨[]⟩

/-- `scheduler_add_event`. -/
def schedulerAddEvent {α : Type} (ctx : SchedulerCtx α) (time : UInt64) (action : α) :
    SchedulerCtx α × Int :=
  if schedulerMaxEvent ≤ ctx.events.length then (ctx, -1)
  else (⟨ctx.events ++ [⟨time, action, ctx.events.length⟩]⟩, 0)

/-- `scheduler_compare_event`. -/
def schedulerCompareEvent {α : Type} (a b : SchedulerEvent α) : Int :=
  if b.timeMs < a.timeMs then 1
  else if a.timeMs < b.timeMs then -1
  else if b.idx < a.idx then 1
  else if a.idx < b.idx then -1
  else 0

/-- `qsort` with that comparator. -/
def qsortEvents {α : Type} (es : List (SchedulerEvent α)) : List (SchedulerEvent α) :=
  es.mergeSort (fun a b => schedulerCompareEvent a b ≤ 0)

/-- A handler the loop can call. -/
inductive Handler (α : Type)
  | tick
  | event (e : SchedulerEvent α)
  deriving DecidableEq, Repr

/-- What the handlers do. An event's handler may change `tcp_sched`; `tcp_schedule` only reads it. -/
structure Handlers (α ρ : Type) where
  event : α → TcpCtx × ρ → C (TcpCtx × ρ)
  tick : TcpCtx → ρ → C ρ

def Handlers.call {α ρ : Type} (hs : Handlers α ρ) (h : Handler α) (w : TcpCtx × ρ) : C (TcpCtx × ρ) :=
  match h with
  | .event e => hs.event e.action w
  | .tick => do
    let r ← hs.tick w.1 w.2
    return (w.1, r)

/-- A handler call: which handler, when it was due, the time since the start read just before it, and
    the period of the sampler when it was chosen. -/
structure Call (α : Type) where
  handler : Handler α
  due : UInt64
  elapsed : Nat
  sampleInterval : Int
  deriving DecidableEq, Repr

/-- Where the loop is: at its test, in the inner loop, finished, or stopped by a fault. -/
inductive Pc (α : Type)
  | head
  | wait (fire : UInt64) (h : Handler α) (sampleInterval : Int)
  | done
  | crashed (f : Fault)
  deriving DecidableEq, Repr

/-- A state of `scheduler_run`. `i` is the index of the next event, `reads` the number of clock
    readings made in the inner loop, `calls` the handler calls so far. -/
structure RunState (α ρ : Type) where
  i : Nat
  pc : Pc α
  reads : Nat
  world : TcpCtx × ρ
  calls : List (Call α)

/-- `tcp_sched->fire + tcp_sched->sample_interval`. -/
def getTcpSchedulerFire (tctx : TcpCtx) : UInt64 := tctx.fire + UInt64.ofInt tctx.sampleInterval

section Run
variable {α ρ : Type} (hs : Handlers α ρ) (events : List (SchedulerEvent α)) (clock : Nat → Nat)

/-- One step of the loop over the sorted `events`. `clock 0` is `started_at`, `clock (n + 1)` the
    `n`-th reading after it. -/
def schedulerStep (s : RunState α ρ) : RunState α ρ :=
  match s.pc with
  | .head =>
    match events[s.i]? with
    | none => { s with pc := .done }
    | some e =>
      let tcp := s.world.1
      let fire := getTcpSchedulerFire tcp
      if e.timeMs < fire then
        { s with i := s.i + 1, pc := .wait e.timeMs (.event e) tcp.sampleInterval }
      else
        -- a tie goes to the tick, and the index stays
        { s with
          pc := .wait fire .tick tcp.sampleInterval
          world := ({ tcp with fire := tcp.fire + UInt64.ofInt tcp.sampleInterval }, s.world.2) }
  | .wait fire h si =>
    let elapsed := clock (s.reads + 1) - clock 0
    -- too early: sleep and read the clock again
    if elapsed < fire.toNat then { s with reads := s.reads + 1 }
    else
      match hs.call h s.world with
      | .error f => { s with reads := s.reads + 1, pc := .crashed f }
      | .ok w =>
        { s with reads := s.reads + 1, pc := .head, world := w,
                 calls := s.calls ++ [⟨h, fire, elapsed, si⟩] }
  | .done => s
  | .crashed _ => s

/-- The state `scheduler_run` enters its loop in. -/
def schedulerStart (w : TcpCtx × ρ) : RunState α ρ := ⟨0, .head, 0, w, []⟩

end Run

/-- `scheduler_run` after `n` steps of its loop: the events are sorted first. -/
def schedulerRun {α ρ : Type} (hs : Handlers α ρ) (ctx : SchedulerCtx α) (clock : Nat → Nat)
    (w : TcpCtx × ρ) (n : Nat) : RunState α ρ :=
  (schedulerStep hs (qsortEvents ctx.events) clock)^[n] (schedulerStart w)

end Handoff
