import Handoff.QueueThread
import Handoff.WorkerRun
import Handoff.Lib.Returns

/- Teardown of a queue beside its thread.

   `action_teardown_nfqueue` stores `NFQ_DEAD`, destroys the library's queue, closes its handle,
   and then releases what the worker holds: `reorder_ids` and the locks. The thread is told
   by the word alone, and nobody waits for it. Here the thread goes through the callback step by
   step (`workerCallbackSteps`, which `workerCallback_steps` ties to the callback), so that
   teardown can run between any two of them.

   A thread that has passed the load when teardown begins goes on: it may come out of `recv`
   with a message, or be anywhere in the callback, when the worker is destroyed under it.
   Whether it touches the worker after that depends only on where it is at that moment
   (`teardown_safe_iff`). -/
namespace Handoff

open Interleaving

/-! The steps of the callback. -/

/-- The locks of a `worker_ctx`. -/
inductive Lock
  | rwnd | reorder | dedup | drop
  deriving DecidableEq

/-- A step of `worker_callback` on what `worker_destroy_ctx` takes away, or a verdict. -/
inductive CallbackStep
  | lock (l : Lock)
  | unlock (l : Lock)
  | buffer (i : Int)
  | verdict (v : Verdict)
  deriving DecidableEq

def CallbackStep.verdict? : CallbackStep → Option Verdict
  | .verdict v => some v
  | _ => none

/-- A critical section. -/
def locked (l : Lock) (body : List CallbackStep) : List CallbackStep := .lock l :: (body ++ [.unlock l])

/-- The critical section of a stage that makes verdict calls only. -/
def Stage.steps (s : Stage) (l : Lock) : List CallbackStep := locked l (s.verdicts.map .verdict)

/-- The release loop, each id read from the buffer. -/
def releaseSteps (ids : Vector UInt32 workerMaxReorderCount) (mark : UInt32) : Nat → C (List CallbackStep)
  | 0 => .ok []
  | n + 1 => do
    let id ← readAt ids n
    let steps ← releaseSteps ids mark n
    return .buffer n :: .verdict (.accept id mark none) :: steps

/-- `worker_handle_reorder` inside its lock: whether it handled the packet, the state, and its steps. -/
def reorderSteps (ctx : WorkerCtx) (id : UInt32) : C (Bool × WorkerCtx × List CallbackStep) :=
  if ctx.doReorder = 0 then .ok (false, ctx, [])
  else do
    let (ctx', vs) ← reorderAdmit ctx id
    -- a packet that is queued is a write to the buffer
    let steps := (if 0 < ctx.reorderCount then [.buffer ctx.reorderIdCur] else []) ++ vs.map .verdict
    if ctx'.reorderOffset ≤ 0 then
      let rs ← releaseSteps ctx'.reorderIds ctx'.mark ctx'.reorderIdCur.toNat
      return (true, { ctx' with doReorder := 0, reorderIdCur := 0 }, steps ++ rs)
    else return (true, ctx', steps)

/-- The headers are there, so that `worker_handle_rwnd` goes on to its lock. -/
def rwndLocks (nfa : NfqData) : C Bool :=
  let len := nfqGetPayload nfa
  if ltSize len iphdrSize then .ok false
  else do
    let ihl ← ipIhl nfa
    return ¬ (ihl < iphdrSize ∨ len < ihl + tcphdrSize)

/-- `worker_callback`, with its steps. -/
def workerCallbackSteps (csum : List UInt8 → UInt16) (ctx : WorkerCtx) (nfa : NfqData) :
    C (WorkerCtx × List CallbackStep) := do
  let id := nfa.packetId
  let _ ← packetLogging nfa
  let s₁ ← workerHandleDrop ctx id
  if s₁.handled then return (s₁.ctx, s₁.steps .drop)
  let (handled, ctx₂, body) ← reorderSteps s₁.ctx id
  if handled then return (ctx₂, s₁.steps .drop ++ locked .reorder body)
  let s₃ ← workerHandleDedup ctx₂ id nfa
  if s₃.handled then return (s₃.ctx, s₁.steps .drop ++ locked .reorder body ++ s₃.steps .dedup)
  let locks ← rwndLocks nfa
  let s₄ ← workerHandleRwnd csum s₃.ctx id nfa
  let last := if s₄.handled then [] else [.verdict (.accept id s₄.ctx.mark none)]
  return (s₄.ctx, s₁.steps .drop ++ locked .reorder body ++ s₃.steps .dedup ++
    (if locks then s₄.steps .rwnd else []) ++ last)

section Verdicts

@[simp] theorem verdict?_lock (l : Lock) : (CallbackStep.lock l).verdict? = none := rfl
@[simp] theorem verdict?_unlock (l : Lock) : (CallbackStep.unlock l).verdict? = none := rfl
@[simp] theorem verdict?_buffer (i : Int) : (CallbackStep.buffer i).verdict? = none := rfl
@[simp] theorem verdict?_verdict (v : Verdict) : (CallbackStep.verdict v).verdict? = some v := rfl

/-- The verdicts among the steps. -/
def verdictsOf (steps : List CallbackStep) : List Verdict := steps.filterMap CallbackStep.verdict?

@[simp] theorem verdictsOf_nil : verdictsOf [] = [] := rfl

@[simp] theorem verdictsOf_append (xs ys : List CallbackStep) :
    verdictsOf (xs ++ ys) = verdictsOf xs ++ verdictsOf ys := by
  simp [verdictsOf]

@[simp] theorem verdictsOf_single (v : Verdict) : verdictsOf [.verdict v] = [v] := rfl

@[simp] theorem verdictsOf_map (vs : List Verdict) : verdictsOf (vs.map .verdict) = vs := by
  induction vs with
  | nil => rfl
  | cons v vs ih => simpa [verdictsOf] using ih

@[simp] theorem verdictsOf_locked (l : Lock) (body : List CallbackStep) :
    verdictsOf (locked l body) = verdictsOf body := by
  simp [verdictsOf, locked, List.filterMap_cons]

@[simp] theorem verdictsOf_steps (s : Stage) (l : Lock) : verdictsOf (s.steps l) = s.verdicts := by
  simp [Stage.steps]

end Verdicts

theorem releaseSteps_verdicts (ids : Vector UInt32 workerMaxReorderCount) (mark : UInt32) (n : Nat) :
    (releaseSteps ids mark n).map verdictsOf = releaseQueued ids mark n := by
  induction n with
  | zero => rfl
  | succ n ih =>
    simp only [releaseSteps, releaseQueued, ← ih]
    rcases readAt ids (n : Int) with f | id
    · rfl
    · rcases releaseSteps ids mark n with f | steps
      · rfl
      · simp [Except.map, verdictsOf, List.filterMap_cons]

theorem reorderSteps_verdicts (ctx : WorkerCtx) (id : UInt32) :
    (reorderSteps ctx id).map (fun r => (⟨r.1, r.2.1, verdictsOf r.2.2⟩ : Stage)) =
      workerHandleReorder ctx id := by
  unfold reorderSteps workerHandleReorder
  split
  · rfl
  · rcases reorderAdmit ctx id with f | ⟨ctx', vs⟩
    · rfl
    · have hbuf : verdictsOf (if 0 < ctx.reorderCount then [.buffer ctx.reorderIdCur] else []) = [] := by
        split <;> rfl
      simp only [C.ok_bind]
      split
      · rw [← releaseSteps_verdicts]
        rcases releaseSteps ctx'.reorderIds ctx'.mark ctx'.reorderIdCur.toNat with f | rs
        · rfl
        · simp [Except.map, hbuf]
      · simp [Except.map, hbuf]

/-- Without its lock the window stage passes the packet on. -/
theorem workerHandleRwnd_unlocked {csum : List UInt8 → UInt16} {ctx : WorkerCtx} {id : UInt32} {nfa : NfqData}
    (h : rwndLocks nfa = .ok false) : workerHandleRwnd csum ctx id nfa = .ok (.pass ctx) := by
  simp only [rwndLocks] at h
  simp only [workerHandleRwnd]
  split at h
  · next hlen => rw [if_pos hlen]
  · next hlen =>
    obtain ⟨ihl, hihl, h⟩ := C.bind_ok.mp h
    rw [if_neg hlen, hihl]
    simp only [C.pure_eq_ok, Except.ok.injEq, decide_eq_false_iff_not, not_not] at h
    simp [h]

theorem workerHandleRwnd_fault {csum : List UInt8 → UInt16} {ctx : WorkerCtx} {id : UInt32} {nfa : NfqData} {f : Fault}
    (h : rwndLocks nfa = .error f) : workerHandleRwnd csum ctx id nfa = .error f := by
  simp only [rwndLocks] at h
  simp only [workerHandleRwnd]
  split at h
  · cases h
  · next hlen =>
    rw [if_neg hlen]
    rcases hihl : ipIhl nfa with f' | ihl
    · rw [hihl] at h
      cases h
      rfl
    · rw [hihl] at h
      cases h

/-- A stage that leaves the packet to the next one has made no verdict call. -/
def Stage.Quiet (s : Stage) : Prop := s.handled = false → s.verdicts = []

theorem workerHandleDrop_quiet {ctx : WorkerCtx} {id : UInt32} {s : Stage} (h : workerHandleDrop ctx id = .ok s) :
    s.Quiet := by
  rw [workerHandleDrop_eq id (workerHandleDrop_ok h), Except.ok.injEq] at h
  intro hs
  rw [← h, decide_eq_false_iff_not] at hs
  rw [← h, if_neg hs]

theorem workerHandleReorder_quiet {ctx : WorkerCtx} {id : UInt32} {s : Stage}
    (h : workerHandleReorder ctx id = .ok s) : s.Quiet := by
  intro hs
  by_cases h0 : ctx.doReorder = 0
  · rw [workerHandleReorder, if_pos h0] at h
    cases h
    rfl
  · rw [workerHandleReorder_handled h0 h] at hs
    cases hs

theorem workerHandleDedup_quiet {ctx : WorkerCtx} {id : UInt32} {nfa : NfqData} :
    Returns Stage.Quiet (workerHandleDedup ctx id nfa) := by
  simp only [workerHandleDedup]
  refine .ite (fun _ => .ok fun _ => rfl) fun _ => .ite (fun _ => .ok fun _ => rfl) fun _ => ?_
  refine .bind_any fun ihl => .ite (fun _ => .ok fun _ => rfl) fun _ => .bind_any fun ack => ?_
  refine .ite (fun _ => .bind_any fun doff => ?_) fun _ => .ok fun _ => rfl
  exact .ite (fun _ => .ok fun h => by cases h) fun _ => .ok fun _ => rfl

theorem workerHandleRwnd_quiet {csum : List UInt8 → UInt16} {ctx : WorkerCtx} {id : UInt32} {nfa : NfqData} :
    Returns Stage.Quiet (workerHandleRwnd csum ctx id nfa) := by
  simp only [workerHandleRwnd]
  refine .ite (fun _ => .ok fun _ => rfl) fun _ => .bind_any fun ihl => ?_
  refine .ite (fun _ => .ok fun _ => rfl) fun _ => .ite (fun _ => .ok fun _ => rfl) fun _ => ?_
  refine .bind_any fun ack => .bind_any fun rwnd => ?_
  exact .ite (fun _ => .ok fun h => by cases h) fun _ => .ok fun _ => rfl

/-- **The steps are those of the callback**: it leaves the same state and makes the same verdict calls. -/
theorem workerCallback_steps (csum : List UInt8 → UInt16) (ctx : WorkerCtx) (nfa : NfqData) :
    (workerCallbackSteps csum ctx nfa).map (fun r => (r.1, verdictsOf r.2)) = workerCallback csum ctx nfa := by
  unfold workerCallbackSteps workerCallback
  rcases packetLogging nfa with f | l
  · rfl
  simp only [C.ok_bind]
  rcases hdrop : workerHandleDrop ctx nfa.packetId with f | s₁
  · rfl
  simp only [C.ok_bind]
  by_cases h₁ : s₁.handled = true
  · simp [h₁, Except.map]
  have hq₁ : s₁.verdicts = [] := workerHandleDrop_quiet hdrop (Bool.not_eq_true _ ▸ h₁)
  have hreorder := reorderSteps_verdicts s₁.ctx nfa.packetId
  simp only [h₁, if_false, Bool.false_eq_true]
  rcases hre : reorderSteps s₁.ctx nfa.packetId with f | ⟨handled, ctx₂, body⟩ <;> rw [hre] at hreorder
  · rw [← hreorder]
    rfl
  simp only [← hreorder, C.ok_bind, Except.map]
  by_cases h₂ : handled = true
  · simp [h₂, hq₁]
  have hq₂ : verdictsOf body = [] := workerHandleReorder_quiet hreorder.symm (Bool.not_eq_true _ ▸ h₂)
  simp only [h₂, if_false, Bool.false_eq_true]
  rcases hdedup : workerHandleDedup ctx₂ nfa.packetId nfa with f | s₃
  · rfl
  simp only [C.ok_bind]
  by_cases h₃ : s₃.handled = true
  · simp [h₃, hq₁, hq₂]
  have hq₃ : s₃.verdicts = [] := workerHandleDedup_quiet.value _ hdedup (Bool.not_eq_true _ ▸ h₃)
  simp only [h₃, if_false, Bool.false_eq_true]
  rcases hlocks : rwndLocks nfa with f | locks
  · rw [workerHandleRwnd_fault hlocks]
    rfl
  simp only [C.ok_bind]
  rcases hrwnd : workerHandleRwnd csum s₃.ctx nfa.packetId nfa with f | s₄
  · rfl
  have hlast : (if locks = true then s₄.verdicts else []) = s₄.verdicts := by
    split
    · rfl
    · next hno =>
      rw [Bool.not_eq_true] at hno
      rw [hno] at hlocks
      rw [workerHandleRwnd_unlocked hlocks] at hrwnd
      cases hrwnd
      rfl
  simp only [C.ok_bind]
  by_cases h₄ : s₄.handled = true
  · simp [h₄, hq₁, hq₂, hq₃, apply_ite verdictsOf, hlast]
  · have hq₄ : s₄.verdicts = [] := workerHandleRwnd_quiet.value _ hrwnd (Bool.not_eq_true _ ▸ h₄)
    simp [h₄, hq₁, hq₂, hq₃, apply_ite verdictsOf, hq₄]

/-! The thread and the teardown. -/

/-- Where the queue's thread is: at the top of its loop, about to call `recv`, in it, with a message,
    in `nfq_handle_packet` with packets left, or in the callback with steps left. -/
inductive LoopPc
  | load
  | recv
  | blocked
  | message (nfas : List NfqData)
  | handling (nfas : List NfqData)
  | callback (todo : List CallbackStep) (after : WorkerCtx) (nfas : List NfqData)
  | exited

/-- Where the scheduler's thread is in `action_teardown_nfqueue`. -/
inductive TeardownPc
  | before
  | dead
  | unqueued (ok : Bool)
  | closed (ok closed : Bool)
  | destroyed
  | cleared
  deriving DecidableEq

/-- The queue's thread, the teardown, and what they share. -/
structure TeardownThreads where
  nfq : NfqCtx
  worker : WorkerCtx
  pc : LoopPc
  main : TeardownPc

/-- A step of one of the two. -/
inductive TeardownEvent
  | load (status : Int)
  | recv
  | received (msg : Option (List NfqData))
  | handle
  | begin (after : WorkerCtx) (steps : List CallbackStep)
  | callback (c : CallbackStep)
  | finish
  | leave
  | storeDead
  | destroyQueue (ok : Bool)
  | close (ok : Bool)
  | destroyWorker
  | clear

/-- The handle is closed, so that a new `recv` fails at once. -/
def TeardownPc.handleClosed : TeardownPc → Bool
  | .closed _ ok => ok
  | .destroyed => true
  | .cleared => true
  | _ => false

/-- The loop after its `switch`. -/
def LoopPc.afterSwitch (status : Int) : LoopPc :=
  match nfqRunSwitch status with
  | .recv => .recv
  | .exited => .exited
  | _ => .load

section Csum
variable (csum : List UInt8 → UInt16)

/-- A step, where it can happen. -/
def teardownStep (s : TeardownThreads) : TeardownEvent → Option TeardownThreads
  | .load status =>
    match s.pc with
    | .load => if status = s.nfq.status then some { s with pc := .afterSwitch status } else none
    | _ => none
  | .recv =>
    match s.pc with
    | .recv => some { s with pc := if s.main.handleClosed then .load else .blocked }
    | _ => none
  | .received msg =>
    match s.pc with
    | .blocked => some { s with pc := match msg with | none => .load | some nfas => .message nfas }
    | _ => none
  | .handle =>
    match s.pc with
    | .message nfas => some { s with pc := .handling nfas }
    | _ => none
  | .begin after steps =>
    match s.pc with
    | .handling (nfa :: nfas) =>
      match workerCallbackSteps csum s.worker nfa with
      | .ok r => if r = (after, steps) then some { s with pc := .callback steps after nfas } else none
      -- what C does not define may do anything
      | .error _ => some { s with pc := .callback steps after nfas }
    | _ => none
  | .callback c =>
    match s.pc with
    | .callback (c' :: todo) after nfas =>
      if c = c' then some { s with pc := .callback todo after nfas } else none
    | _ => none
  | .finish =>
    match s.pc with
    | .callback [] after nfas => some { s with pc := .handling nfas, worker := after }
    | _ => none
  | .leave =>
    match s.pc with
    | .handling [] => some { s with pc := .load }
    | _ => none
  | .storeDead =>
    if s.main = .before then some { s with main := .dead, nfq := { s.nfq with status := nfqDead } } else none
  | .destroyQueue ok => if s.main = .dead then some { s with main := .unqueued ok } else none
  | .close ok =>
    match s.main with
    | .unqueued ok' => some { s with main := .closed ok' ok }
    | _ => none
  | .destroyWorker => if s.main = .closed true true then some { s with main := .destroyed } else none
  | .clear => if s.main = .destroyed then some { s with main := .cleared } else none

theorem begin_step {nfq : NfqCtx} {worker after : WorkerCtx} {nfa : NfqData} {steps : List CallbackStep}
    {nfas : List NfqData} {main : TeardownPc} (h : workerCallbackSteps csum worker nfa = .ok (after, steps)) :
    teardownStep csum ⟨nfq, worker, .handling (nfa :: nfas), main⟩ (.begin after steps) =
      some ⟨nfq, worker, .callback steps after nfas, main⟩ := by
  simp [teardownStep, h]

/-- The stores of the first steps are those of `nfq_teardown`. -/
theorem nfqTeardown_steps (nfq : NfqCtx) (worker : WorkerCtx) (pc : LoopPc) (ok ok' : Bool) :
    Runs (teardownStep csum) ⟨nfq, worker, pc, .before⟩ [.storeDead, .destroyQueue ok, .close ok']
      ⟨(nfqTeardown nfq (ok && ok')).1, worker, pc, .closed ok ok'⟩ :=
  .cons rfl (.cons rfl (.cons rfl (.nil _)))

end Csum

/-- A step of `nfq_handle_packet` or the callback. -/
def TeardownEvent.works : TeardownEvent → Bool
  | .handle => true
  | .begin _ _ => true
  | .callback _ => true
  | .finish => true
  | .leave => true
  | _ => false

/-- The thread is at the top of its loop or about to call `recv`, or it has exited. -/
def LoopPc.Idle : LoopPc → Prop
  | .load => True
  | .recv => True
  | .exited => True
  | _ => False

/-- The teardown has closed the handle, over a dead word, and the thread is idle. -/
structure Abandoned (s : TeardownThreads) : Prop where
  dead : s.nfq.status = nfqDead
  closed : s.main.handleClosed = true
  idle : s.pc.Idle

section Csum
variable {csum : List UInt8 → UInt16} {s s' : TeardownThreads} {es : List TeardownEvent}

/-- A thread that is idle then stays so: a new `recv` fails, and the next load is of the dead word. -/
theorem abandoned_step {e : TeardownEvent} (h : Abandoned s) (hs : teardownStep csum s e = some s') :
    Abandoned s' ∧ e.works = false := by
  obtain ⟨nfq, worker, pc, main⟩ := s
  obtain ⟨hdead, hclosed, hidle⟩ := h
  simp only at hdead hclosed hidle
  cases e with
  | load status =>
    cases pc with
    | load =>
      simp only [teardownStep, Option.ite_none_right_eq_some, Option.some.injEq] at hs
      obtain ⟨rfl, rfl⟩ := hs
      refine ⟨⟨hdead, hclosed, ?_⟩, rfl⟩
      rw [hdead]
      trivial
    | _ => cases hs
  | recv =>
    cases pc with
    | recv =>
      simp only [teardownStep, hclosed, if_true, Option.some.injEq] at hs
      obtain rfl := hs
      exact ⟨⟨hdead, hclosed, trivial⟩, rfl⟩
    | _ => cases hs
  | storeDead =>
    simp only [teardownStep, Option.ite_none_right_eq_some] at hs
    rw [hs.1] at hclosed
    cases hclosed
  | destroyQueue ok =>
    simp only [teardownStep, Option.ite_none_right_eq_some] at hs
    rw [hs.1] at hclosed
    cases hclosed
  | close ok =>
    cases main with
    | unqueued ok' => cases hclosed
    | _ => cases hs
  | destroyWorker =>
    simp only [teardownStep, Option.ite_none_right_eq_some, Option.some.injEq] at hs
    obtain ⟨-, rfl⟩ := hs
    exact ⟨⟨hdead, rfl, hidle⟩, rfl⟩
  | clear =>
    simp only [teardownStep, Option.ite_none_right_eq_some, Option.some.injEq] at hs
    obtain ⟨-, rfl⟩ := hs
    exact ⟨⟨hdead, rfl, hidle⟩, rfl⟩
  | _ =>
    -- the thread is where this step begins
    cases pc with
    | load => cases hs
    | recv => cases hs
    | exited => cases hs
    | _ => exact absurd hidle id

/-- From the first step of the teardown on the word is dead. -/
def DeadSince (s : TeardownThreads) : Prop := s.main ≠ .before → s.nfq.status = nfqDead

theorem deadSince_step {e : TeardownEvent} (h : DeadSince s) (hs : teardownStep csum s e = some s') :
    DeadSince s' := by
  -- every step keeps the word and the place of the teardown, or stores the word, or moves on from there
  have hcases : (s'.nfq = s.nfq ∧ (s'.main ≠ .before → s.main ≠ .before)) ∨ s'.nfq.status = nfqDead := by
    cases e <;> simp only [teardownStep] at hs <;> grind
  obtain ⟨hnfq, hmain⟩ | hdead := hcases
  · intro hne
    rw [hnfq]
    exact h (hmain hne)
  · exact fun _ => hdead

/-- A thread that is not idle has a step on the packet before it, whatever the teardown does. -/
theorem busy_works (h : ¬ s.pc.Idle) :
    ∃ es' s', Runs (teardownStep csum) s es' s' ∧ ∃ e ∈ es', e.works = true := by
  obtain ⟨nfq, worker, pc, main⟩ := s
  cases pc with
  | load => exact absurd trivial h
  | recv => exact absurd trivial h
  | exited => exact absurd trivial h
  | blocked => exact ⟨[.received (some []), .handle], _, .cons rfl (.cons rfl (.nil _)), .handle, by simp, rfl⟩
  | message nfas => exact ⟨[.handle], _, .cons rfl (.nil _), .handle, by simp, rfl⟩
  | handling nfas =>
    cases nfas with
    | nil => exact ⟨[.leave], _, .cons rfl (.nil _), .leave, by simp, rfl⟩
    | cons nfa nfas =>
      rcases hcall : workerCallbackSteps csum worker nfa with f | ⟨after, steps⟩
      · refine ⟨[.begin worker []], ⟨nfq, worker, .callback [] worker nfas, main⟩, .cons ?_ (.nil _), _,
          List.mem_singleton_self _, rfl⟩
        simp [teardownStep, hcall]
      · exact ⟨[.begin after steps], _, .cons (begin_step csum hcall) (.nil _), _, List.mem_singleton_self _, rfl⟩
  | callback todo after nfas =>
    cases todo with
    | nil => exact ⟨[.finish], _, .cons rfl (.nil _), .finish, by simp, rfl⟩
    | cons c todo =>
      refine ⟨[.callback c], ⟨nfq, worker, .callback todo after nfas, main⟩, .cons ?_ (.nil _), _,
        List.mem_singleton_self _, rfl⟩
      simp [teardownStep]

/-- **Whether the thread touches the worker after it is destroyed** depends on where it is when
    `worker_destroy_ctx` runs, and on nothing else: it must be idle. -/
theorem teardown_safe_iff {s₀ : TeardownThreads} (hr : Runs (teardownStep csum) s₀ es s) (h0 : s₀.main = .before)
    (hm : s.main = .closed true true) :
    (∀ es' s', Runs (teardownStep csum) s (.destroyWorker :: es') s' → ∀ e ∈ es', e.works = false) ↔ s.pc.Idle := by
  have hdead : s.nfq.status = nfqDead := by
    have hsince : DeadSince s :=
      hr.invariant (F := fun _ => True) (fun _ _ _ hI _ hs => deadSince_step hI hs) (fun hne => absurd h0 hne)
        fun _ _ => trivial
    exact hsince (by simp [hm])
  have hdestroy : teardownStep csum s .destroyWorker = some { s with main := .destroyed } := by
    simp [teardownStep, hm]
  constructor
  · intro hsafe
    by_contra hbusy
    have hbusy' : ∃ es' s', Runs (teardownStep csum) { s with main := .destroyed } es' s' ∧ ∃ e ∈ es', e.works = true :=
      busy_works hbusy
    obtain ⟨es', s', hrun, e, he, hworks⟩ := hbusy'
    rw [hsafe es' s' (.cons hdestroy hrun) e he] at hworks
    cases hworks
  · intro hidle es' s' hrun
    cases hrun with
    | cons head tail =>
      rw [hdestroy, Option.some.injEq] at head
      subst head
      exact tail.events (F := fun _ => True) (fun _ _ _ hI _ hs => abandoned_step hI hs) ⟨hdead, rfl, hidle⟩
        fun _ _ => trivial

end Csum

/-! A teardown while the thread waits at the top of its loop, and one while it has a packet. -/

def idleThreads : TeardownThreads := ⟨⟨0, nfqStopped⟩, workerInitCtx zeroWorker, .load, .before⟩

theorem teardown_safe_iff_stopped :
    ∃ s, Runs (teardownStep fun _ => 0) idleThreads [.storeDead, .destroyQueue true, .close true] s ∧
      ∀ es' s', Runs (teardownStep fun _ => 0) s (.destroyWorker :: es') s' → ∀ e ∈ es', e.works = false :=
  have hrun := nfqTeardown_steps (fun _ => 0) ⟨0, nfqStopped⟩ (workerInitCtx zeroWorker) .load true true
  ⟨_, hrun, (teardown_safe_iff hrun rfl rfl).mpr trivial⟩

/-- The word is loaded and the packet received before the teardown; the callback locks a destroyed
    lock after it. -/
def overtakenEvents : List TeardownEvent :=
  [.load nfqRunning, .recv, .received (some [⟨1, some (ackSegment 1000 5000)⟩]), .storeDead, .destroyQueue true, .close true,
    .destroyWorker, .handle,
    .begin (workerInitCtx zeroWorker)
      (locked .drop [] ++ locked .reorder [] ++ locked .dedup [] ++ locked .rwnd [] ++ [.verdict (.accept 1 0 none)]),
    .callback (.lock .drop)]

theorem teardown_overtakes :
    ¬ ∀ (csum : List UInt8 → UInt16) s₀ es s', s₀.main = .before → Runs (teardownStep csum) s₀ es s' →
      ∀ pre post, es = pre ++ .destroyWorker :: post → ∀ e ∈ post, e.works = false := by
  intro h
  have hrun : ∃ s', Runs (teardownStep fun _ => 0) ⟨⟨0, nfqRunning⟩, workerInitCtx zeroWorker, .load, .before⟩
      overtakenEvents s' :=
    ⟨_, .cons rfl (.cons rfl (.cons rfl (.cons rfl (.cons rfl (.cons rfl (.cons rfl (.cons rfl
      (.cons (begin_step _ rfl) (.cons rfl (.nil _))))))))))⟩
  obtain ⟨s', hs'⟩ := hrun
  have hlock := h _ _ _ s' rfl hs' (overtakenEvents.take 6) (overtakenEvents.drop 7) rfl (.callback (.lock .drop))
    (by simp [overtakenEvents])
  cases hlock

end Handoff
