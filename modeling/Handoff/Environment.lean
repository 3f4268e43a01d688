import Handoff.EmulatorRun
import Handoff.SchedulerRun

/- The handlers `scheduler_run` calls in the emulator, and what each needs of the state it is called in.

   A handler does not check what it follows: the table entries of its queue, the link of
   the sampler to a worker, and the index of the current link. `HandlerReady` is the
   condition under which all of these lead somewhere, and `handlerReady_iff` says that
   it is exactly the condition under which the call returns. -/
namespace Handoff

/-- The computation returns. -/
def Defined {α : Type} (x : C α) : Prop := ∃ a, x = .ok a

section Defined
variable {α β : Type} {n : Nat}

@[simp] theorem defined_ok (a : α) : Defined (.ok a) := ⟨a, rfl⟩

@[simp] theorem defined_pure (a : α) : Defined (pure a) := ⟨a, rfl⟩

@[simp] theorem not_defined_error (f : Fault) : ¬ Defined (.error f : C α) := by
  intro ⟨a, h⟩
  cases h

theorem defined_bind {x : C α} {f : α → C β} : Defined (x >>= f) ↔ ∃ a, x = .ok a ∧ Defined (f a) := by
  simp only [Defined, C.bind_ok]
  constructor
  · intro h
    obtain ⟨b, a, hx, hf⟩ := h
    exact ⟨a, hx, b, hf⟩
  · intro h
    obtain ⟨a, hx, b, hf⟩ := h
    exact ⟨b, a, hx, hf⟩

/-- After a first part that returns anything, a second that does not depend on it. -/
theorem defined_bind_iff {x : C α} {f : α → C β} {p : Prop} (h : ∀ a, x = .ok a → (Defined (f a) ↔ p)) :
    Defined (x >>= f) ↔ Defined x ∧ p := by
  rw [defined_bind]
  exact ⟨fun ⟨a, hx, hf⟩ => ⟨⟨a, hx⟩, (h a hx).mp hf⟩, fun ⟨⟨a, hx⟩, hp⟩ => ⟨a, hx, (h a hx).mpr hp⟩⟩

/-- An index of an array of length `n`. -/
def InTable (n : Nat) (i : Int) : Prop := 0 ≤ i ∧ i.toNat < n

instance (n : Nat) (i : Int) : Decidable (InTable n i) := inferInstanceAs (Decidable (_ ∧ _))

theorem defined_readAt {a : Vector α n} {i : Int} : Defined (readAt a i) ↔ InTable n i := by
  unfold readAt
  split
  · next h => simp [InTable, h]
  · next h => simp [InTable, h]

theorem defined_writeAt {a : Vector α n} {i : Int} {x : α} : Defined (writeAt a i x) ↔ InTable n i := by
  unfold writeAt
  split
  · next h => simp [InTable, h]
  · next h => simp [InTable, h]

end Defined

/-! The bodies of the actions. -/

/-- What the body of an action needs: the links it looks up are entries of the table. -/
def BodyReady (a : Action) (w : WorkerCtx) (t : TcpCtx) : Prop :=
  match a with
  | .solUpdate _ mark => (0 < w.tuneRwnd → InTable 3 t.mark) ∧ InTable 3 mark.toNat
  | .setBurst _ _ => InTable 3 t.mark
  | .setAdapt _ _ => InTable 3 t.mark
  | .initTcpSched _ args => InTable 3 args.mark
  | _ => True

theorem defined_solUpdate {mark : UInt32} {w : WorkerCtx} {t : TcpCtx} :
    Defined (solUpdate mark w t) ↔ (0 < w.tuneRwnd → InTable 3 t.mark) ∧ InTable 3 mark.toNat := by
  have hlast : ∀ t' : TcpCtx, Defined (do
      let p ← readAt t'.histParam mark.toNat
      return (workerSolUpdate w p.histRw, t') : C (WorkerCtx × TcpCtx)) ↔ InTable 3 mark.toNat := by
    intro t'
    rw [defined_bind_iff (p := True) fun _ _ => by simp, defined_readAt, and_true]
  by_cases hw : 0 < w.tuneRwnd
  · simp only [solUpdate, hw, if_true, forall_true_left]
    rw [defined_bind_iff (p := InTable 3 mark.toNat), defined_readAt]
    intro p hp
    rw [defined_bind_iff (p := InTable 3 mark.toNat), defined_writeAt]
    · exact and_iff_right (defined_readAt.mp ⟨p, hp⟩)
    · exact fun hist _ => hlast _
  · simp only [solUpdate, hw, if_false, false_implies, true_and]
    exact hlast t

theorem defined_setBurst {enable : Int} {w : WorkerCtx} {t : TcpCtx} :
    Defined (setBurst enable w t) ↔ InTable 3 t.mark := by
  unfold setBurst
  rw [defined_bind_iff (p := True), defined_readAt, and_true]
  intro p hp
  -- what is written later goes to the index just read
  refine iff_of_true ?_ trivial
  have hwrite : ∀ x, Defined (writeAt t.histParam t.mark x) :=
    fun x => defined_writeAt.mpr (defined_readAt.mp ⟨p, hp⟩)
  simp only
  split
  · simp
  · split
    · rw [defined_bind_iff (p := True) fun _ _ => by simp]
      exact ⟨hwrite _, trivial⟩
    · simp

theorem defined_setAdapt {enable : Int} {w : WorkerCtx} {t : TcpCtx} :
    Defined (setAdapt enable w t) ↔ InTable 3 t.mark := by
  unfold setAdapt
  rw [defined_bind_iff (p := True) fun _ _ => by simp, defined_readAt, and_true]

theorem defined_initTcpSched {args : InitTcpSchedArgs} {pos : Nat} {w : WorkerCtx} {t : TcpCtx} :
    Defined (initTcpSched args pos w t) ↔ InTable 3 args.mark := by
  unfold initTcpSched
  rw [defined_bind_iff (p := True), defined_readAt, and_true]
  intro p hp
  rw [defined_bind_iff (p := True) fun _ _ => by simp, defined_readAt, and_true]
  exact iff_of_true (defined_readAt.mp ⟨p, hp⟩) trivial

theorem defined_body {a : Action} {q : UInt16} {f : Body} (h : a.body? = some (q, f)) (pos : Nat)
    (w : WorkerCtx) (t : TcpCtx) : Defined (f pos w t) ↔ BodyReady a w t := by
  cases a with
  | solUpdate q mark => cases h; exact defined_solUpdate
  | setBurst q enable => cases h; exact defined_setBurst
  | setAdapt q enable => cases h; exact defined_setAdapt
  | initTcpSched q args => cases h; exact defined_initTcpSched
  | setMark q mark => cases h; exact iff_of_true (defined_ok _) trivial
  | setReorder q enable count offset => cases h; exact iff_of_true (defined_ok _) trivial
  | setDrop q enable dropCount => cases h; exact iff_of_true (defined_ok _) trivial
  | setDedup q enable => cases h; exact iff_of_true (defined_ok _) trivial
  | setRwnd q rwnd => cases h; exact iff_of_true (defined_ok _) trivial
  | _ => cases h

/-! The actions. -/

/-- Entry `q` of a table leads to an object. -/
def Opened (tab : Vector (Option Nat) actionMaxNfqueue) (heap : List QueueObj) (q : UInt16) : Prop :=
  Defined (deref tab heap q)

/-- What an action on a whole queue needs. A queue is opened at an index of the tables, and only if the
    library opens it, since the action exits otherwise. -/
def QueueReady (lib : LibCalls) (e : Emulator) : Action → Prop
  | .initNfqueue q => lib.nfqInit = true ∧ InTable actionMaxNfqueue q.toNat
  | .startNfqueue q => Opened e.action.queues e.action.heap q
  | .stopNfqueue q => Opened e.action.queues e.action.heap q
  | .teardownNfqueue q =>
    Opened e.action.queues e.action.heap q ∧
      (lib.nfqTeardown = true → Opened e.action.workers e.action.heap q)
  | _ => True

/-- What an action needs: an action on a worker finds it, and its body the links it looks up. -/
def ActionReady (lib : LibCalls) (e : Emulator) (a : Action) : Prop :=
  match a.body? with
  | some (q, _) =>
    ∃ p o, deref e.action.workers e.action.heap q = .ok (p, o) ∧ BodyReady a o.worker e.tcp
  | none => QueueReady lib e a

/-- An object found in a table is found there after a write to the heap. -/
theorem opened_set {tab : Vector (Option Nat) actionMaxNfqueue} {heap : List QueueObj} {q : UInt16} (p : Nat)
    (o : QueueObj) : Opened tab (heap.set p o) q ↔ Opened tab heap q := by
  unfold Opened deref
  simp only [defined_bind]
  apply exists_congr
  intro entry
  apply and_congr_right
  intro _
  rcases entry with _ | r
  · exact Iff.rfl
  · have hlen : (heap.set p o).length = heap.length := List.length_set
    simp only
    split
    · next h =>
      rw [List.getElem?_eq_none_iff, hlen, ← List.getElem?_eq_none_iff] at h
      rw [h]
    · next v h =>
      obtain ⟨hr, -⟩ := List.getElem?_eq_some_iff.mp h
      rw [List.getElem?_eq_getElem (hlen ▸ hr)]
      simp

/-- An object found in a table has an index of the table. -/
theorem Opened.inTable {tab : Vector (Option Nat) actionMaxNfqueue} {heap : List QueueObj} {q : UInt16}
    (h : Opened tab heap q) : InTable actionMaxNfqueue q.toNat := by
  obtain ⟨entry, hentry, -⟩ := defined_bind.mp h
  exact defined_readAt.mp ⟨entry, hentry⟩

theorem defined_onQueue {e : Emulator} {q : UInt16} {f : NfqCtx → NfqCtx} :
    Defined (onQueue e q f) ↔ Opened e.action.queues e.action.heap q := by
  unfold onQueue
  rw [defined_bind_iff (p := True) fun _ _ => by simp, and_true]
  exact Iff.rfl

theorem defined_onWorker {e : Emulator} {q : UInt16} {f : Body} :
    Defined (onWorker e q f) ↔
      ∃ p o, deref e.action.workers e.action.heap q = .ok (p, o) ∧ Defined (f p o.worker e.tcp) := by
  unfold onWorker
  rw [defined_bind]
  constructor
  · intro ⟨⟨p, o⟩, hpo, hf⟩
    rw [defined_bind_iff (p := True) fun _ _ => by simp] at hf
    exact ⟨p, o, hpo, hf.1⟩
  · intro ⟨p, o, hpo, hf⟩
    refine ⟨(p, o), hpo, ?_⟩
    rw [defined_bind_iff (p := True) fun _ _ => by simp]
    exact ⟨hf, trivial⟩

theorem defined_teardown {lib : LibCalls} {e : Emulator} {q : UInt16} :
    Defined (actionTeardownNfqueue lib e q) ↔
      Opened e.action.queues e.action.heap q ∧
        (lib.nfqTeardown = true → Opened e.action.workers e.action.heap q) := by
  unfold actionTeardownNfqueue
  rw [defined_bind_iff (p := lib.nfqTeardown = true → Opened e.action.workers e.action.heap q)]
  · exact Iff.rfl
  · intro ⟨p, o⟩ _
    -- only a teardown the library makes goes on to the worker's table
    rcases hlib : lib.nfqTeardown with _ | _
    · simp [nfqTeardown]
    · have hset : Opened e.action.workers (e.action.heap.set p { o with nfq := (nfqTeardown o.nfq true).1 }) q ↔
          Opened e.action.workers e.action.heap q := opened_set p _
      simp only [nfqTeardown, if_true, ne_eq, not_true_eq_false, if_false, forall_true_left] at hset ⊢
      rw [← hset, defined_bind_iff (p := True), and_true]
      · exact Iff.rfl
      · intro ⟨r, v⟩ hr
        have hq : InTable actionMaxNfqueue q.toNat := Opened.inTable ⟨_, hr⟩
        refine iff_of_true ?_ trivial
        rw [defined_bind_iff (p := True)]
        · exact ⟨defined_writeAt.mpr hq, trivial⟩
        · intro _ _
          rw [defined_bind_iff (p := True) fun _ _ => by simp]
          exact iff_of_true ⟨defined_writeAt.mpr hq, trivial⟩ trivial

theorem defined_queueAction {lib : LibCalls} {e : Emulator} {a : Action} (h : a.body? = none) :
    Defined (runAction lib e a) ↔ QueueReady lib e a := by
  cases a with
  | command c => exact iff_of_true (defined_ok _) trivial
  | initNfqueue q =>
    simp only [runAction, actionInitNfqueue, QueueReady]
    by_cases hlib : lib.nfqInit = true
    · rw [if_pos hlib, defined_bind_iff (p := InTable actionMaxNfqueue q.toNat), defined_writeAt, and_self]
      · exact (and_iff_right hlib).symm
      · intro _ _
        rw [defined_bind_iff (p := True) fun _ _ => by simp, defined_writeAt, and_true]
    · rw [if_neg hlib]
      exact iff_of_false (not_defined_error _) fun hr => hlib hr.1
  | startNfqueue q => exact defined_onQueue
  | stopNfqueue q => exact defined_onQueue
  | teardownNfqueue q => exact defined_teardown
  | _ => cases h

theorem defined_action {lib : LibCalls} {e : Emulator} {a : Action} :
    Defined (runAction lib e a) ↔ ActionReady lib e a := by
  unfold ActionReady
  rcases hb : a.body? with _ | ⟨q, f⟩
  · exact defined_queueAction hb
  · rw [runAction_body lib e hb, defined_onWorker]
    simp only [defined_body hb]

/-! The handlers. -/

/-- What goes on beside the scheduler's thread: what the library calls of the `k`-th handler call return,
    and what the packet threads have done just before it to the worker at position `p` of the heap. -/
structure Env where
  lib : Nat → LibCalls
  threads : Nat → Nat → WorkerCtx → WorkerCtx

/-- The packet threads at work. -/
def Env.disturb (env : Env) (k : Nat) (action : ActionCtx) : ActionCtx :=
  { action with heap := action.heap.mapIdx fun p o => { o with worker := env.threads k p o.worker } }

/-- The handlers of the emulator. Their state is `main`'s `action_ctx` and the number of handler calls
    so far. -/
def emuHandlers (env : Env) : Handlers Action (ActionCtx × Nat) where
  event a w := do
    let e ← runAction (env.lib w.2.2) ⟨w.1, env.disturb w.2.2 w.2.1⟩ a
    return (e.tcp, e.action, w.2.2 + 1)
  tick tcp r := do
    let action ← tick tcp (env.disturb r.2 r.1)
    return (action, r.2 + 1)

/-- What `tcp_schedule` needs: the sampler is linked to a worker, and while that estimates a burst the
    current link is an entry of the table. -/
def SamplerReady (tcp : TcpCtx) (action : ActionCtx) : Prop :=
  ∃ p o, tcp.wkctx = some p ∧ action.heap[p]? = some o ∧ (o.worker.doBurst ≠ 0 → InTable 3 tcp.mark)

theorem defined_tcpSchedule {t : TcpCtx} {w : WorkerCtx} :
    Defined (tcpSchedule t w) ↔ (w.doBurst ≠ 0 → InTable 3 t.mark) := by
  unfold tcpSchedule
  split
  · next hb =>
    rw [defined_bind_iff (p := True) fun _ _ => by simp, defined_readAt, and_true]
    exact ⟨fun h _ => h, fun h => h hb⟩
  · next hb =>
    refine iff_of_true ?_ fun h => absurd h hb
    split <;> simp

theorem defined_tick {tcp : TcpCtx} {action : ActionCtx} : Defined (tick tcp action) ↔ SamplerReady tcp action := by
  unfold tick SamplerReady
  rcases tcp.wkctx with _ | p
  · simp
  · rcases ho : action.heap[p]? with _ | o
    · simp [ho]
    · simp only [Option.some.injEq, exists_and_left, exists_eq_left', ho]
      rw [defined_bind_iff (p := True) fun _ _ => by simp, defined_tcpSchedule, and_true]

/-- What a handler needs of the state it is called in. -/
def HandlerReady (env : Env) (h : Handler Action) (w : TcpCtx × ActionCtx × Nat) : Prop :=
  match h with
  | .event e => ActionReady (env.lib w.2.2) ⟨w.1, env.disturb w.2.2 w.2.1⟩ e.action
  | .tick => SamplerReady w.1 (env.disturb w.2.2 w.2.1)

/-- **A handler call returns if and only if the handler is ready.** -/
theorem handlerReady_iff {env : Env} {h : Handler Action} {w : TcpCtx × ActionCtx × Nat} :
    Defined ((emuHandlers env).call h w) ↔ HandlerReady env h w := by
  cases h with
  | event e =>
    simp only [Handlers.call, emuHandlers, HandlerReady]
    rw [defined_bind_iff (p := True) fun _ _ => by simp, defined_action, and_true]
  | tick =>
    simp only [Handlers.call, emuHandlers, HandlerReady]
    rw [defined_bind_iff (p := True) fun _ _ => by simp, and_true,
      defined_bind_iff (p := True) fun _ _ => by simp, defined_tick, and_true]

end Handoff
