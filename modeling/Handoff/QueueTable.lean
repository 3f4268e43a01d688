import Handoff.EmulatorRun
import Handoff.Lib.Returns

/- The tables `queues` and `workers`, and the object each queue is open with.

   `INIT` writes the same position to both tables and teardown clears both, so the tables are
   equal, and the object an entry leads to bears the number of its queue (`Tagged`). Two
   entries therefore never lead to one object, and an action on one queue leaves what every
   other queue is open with (`view`) as it is. -/
namespace Handoff

/-- The position entry `q` of a table holds, if it is not a null pointer. -/
def entry (tab : Vector (Option Nat) actionMaxNfqueue) (q : UInt16) : Option Nat := (tab[q.toNat]?).join

/-- The object queue `q` is open with. -/
def view (action : ActionCtx) (q : UInt16) : Option QueueObj := (entry action.queues q).bind (action.heap[·]?)

/-- The status word of queue `q`. -/
def statusOf (action : ActionCtx) (q : UInt16) : Option Int := (view action q).map fun o => o.nfq.status

/-- The queue an action is addressed to. -/
def Action.queue? : Action → Option UInt16
  | .command _ => none
  | .initNfqueue q => some q
  | .startNfqueue q => some q
  | .stopNfqueue q => some q
  | .teardownNfqueue q => some q
  | .setMark q _ => some q
  | .setReorder q _ _ _ => some q
  | .setDrop q _ _ => some q
  | .setDedup q _ => some q
  | .solUpdate q _ => some q
  | .setRwnd q _ => some q
  | .setBurst q _ => some q
  | .setAdapt q _ => some q
  | .initTcpSched q _ => some q

theorem Action.queue_of_body {a : Action} {q : UInt16} {f : Body} (h : a.body? = some (q, f)) :
    a.queue? = some q := by
  cases a <;> cases h <;> rfl

/-! Reading and writing the tables. -/

section Entries
variable {tab tab' : Vector (Option Nat) actionMaxNfqueue} {heap : List QueueObj} {q r : UInt16}

theorem entry_of_lt (h : q.toNat < actionMaxNfqueue) : entry tab q = tab[q.toNat] := by
  simp [entry, h]

theorem deref_eq_ok {p : Nat} {o : QueueObj} :
    deref tab heap q = .ok (p, o) ↔ entry tab q = some p ∧ heap[p]? = some o := by
  by_cases hq : q.toNat < actionMaxNfqueue
  · have hr : readAt tab q.toNat = .ok tab[q.toNat] := readAt_ok.mpr ⟨⟨by omega, by simpa using hq⟩, by simp⟩
    simp only [deref, hr, C.ok_bind, entry_of_lt hq]
    rcases tab[q.toNat] with _ | p'
    · simp
    · rcases hp : heap[p']? with _ | o'
      · simp only [hp, reduceCtorEq, Option.some.injEq, false_iff]
        intro h
        rw [← h.1, hp] at h
        cases h.2
      · simp only [hp, Except.ok.injEq, Prod.mk.injEq, Option.some.injEq]
        apply and_congr_right
        intro hpp
        rw [← hpp, hp, Option.some.injEq]
  · have hr : readAt tab q.toNat = .error .outOfBounds := by
      unfold readAt
      rw [dif_neg (by simpa using hq)]
    simp only [deref, hr, C.error_bind, reduceCtorEq, false_iff]
    intro h
    simp [entry, hq] at h

theorem entry_writeAt {x : Option Nat} (h : writeAt tab q.toNat x = .ok tab') :
    entry tab' r = if r = q then x else entry tab r := by
  obtain ⟨⟨-, hq⟩, rfl⟩ := writeAt_ok.mp h
  have hq' : q.toNat < actionMaxNfqueue := by simpa using hq
  by_cases hr : r.toNat < actionMaxNfqueue
  · rw [entry_of_lt hr, entry_of_lt hr]
    by_cases hrq : r = q
    · subst hrq
      simp
    · have hne : q.toNat ≠ r.toNat := fun h => hrq (UInt16.toNat_inj.mp h.symm)
      rw [if_neg hrq]
      simp [Vector.getElem_set_ne, hne]
  · have hne : r ≠ q := fun h => hr (h ▸ hq')
    rw [if_neg hne]
    simp [entry, hr]

end Entries

/-! The tables of a run. -/

/-- The two tables are equal, and every entry leads to an object with the number of its queue. -/
structure Tagged (action : ActionCtx) : Prop where
  same : action.workers = action.queues
  tag : ∀ q p, entry action.queues q = some p → ∃ o, action.heap[p]? = some o ∧ o.nfq.queueNum = q

theorem actionInitCtx_tagged : Tagged actionInitCtx := by
  refine ⟨rfl, ?_⟩
  intro q p h
  by_cases hq : q.toNat < actionMaxNfqueue
  · rw [entry_of_lt hq] at h
    simp [actionInitCtx] at h
  · simp [entry, hq] at h

section Frame
variable {action : ActionCtx} {p : Nat} {o o' : QueueObj}

/-- Writing an object that keeps its number. -/
theorem Tagged.set (h : Tagged action) (hp : action.heap[p]? = some o)
    (ho : o'.nfq.queueNum = o.nfq.queueNum) : Tagged { action with heap := action.heap.set p o' } := by
  refine ⟨h.same, ?_⟩
  intro q r hr
  obtain ⟨v, hv, htag⟩ := h.tag q r hr
  by_cases hrp : p = r
  · subst hrp
    cases hp.symm.trans hv
    exact ⟨o', List.getElem?_set_self (List.getElem?_eq_some_iff.mp hp).1, ho.trans htag⟩
  · exact ⟨v, by simpa [List.getElem?_set_ne hrp] using hv, htag⟩

/-- **Frame.** Writing an object leaves the queues that do not bear its number. -/
theorem view_set_other (h : Tagged action) (hp : action.heap[p]? = some o) {q : UInt16}
    (hq : o.nfq.queueNum ≠ q) : view { action with heap := action.heap.set p o' } q = view action q := by
  unfold view
  simp only
  rcases hr : entry action.queues q with _ | r
  · rfl
  · obtain ⟨v, hv, htag⟩ := h.tag q r hr
    have hrp : p ≠ r := by
      intro hrp
      subst hrp
      cases hp.symm.trans hv
      exact hq htag
    simp [List.getElem?_set_ne hrp]

theorem view_set_own {q : UInt16} (hq : entry action.queues q = some p) (hp : action.heap[p]? = some o) :
    view { action with heap := action.heap.set p o' } q = some o' := by
  have hlt := (List.getElem?_eq_some_iff.mp hp).1
  simp [view, hq, List.getElem?_set_self hlt]

theorem view_eq {q : UInt16} (hq : entry action.queues q = some p) (hp : action.heap[p]? = some o) :
    view action q = some o := by
  simp [view, hq, hp]

end Frame

/-! What each kind of action does to them. -/

section Actions
variable {lib : LibCalls} {e e' : Emulator} {q : UInt16}

theorem onQueue_ok {f : NfqCtx → NfqCtx} :
    onQueue e q f = .ok e' ↔ ∃ p o, entry e.action.queues q = some p ∧ e.action.heap[p]? = some o ∧
      e' = { e with action.heap := e.action.heap.set p { o with nfq := f o.nfq } } := by
  simp only [onQueue, C.bind_ok, C.pure_eq_ok, Except.ok.injEq, Prod.exists, deref_eq_ok, and_assoc]
  refine exists_congr fun p => exists_congr fun o => ?_
  rw [eq_comm (a := e')]

theorem onWorker_ok (same : e.action.workers = e.action.queues) {f : Body} :
    onWorker e q f = .ok e' ↔ ∃ p o w t, entry e.action.queues q = some p ∧ e.action.heap[p]? = some o ∧
      f p o.worker e.tcp = .ok (w, t) ∧
      e' = { tcp := t, action := { e.action with heap := e.action.heap.set p { o with worker := w } } } := by
  simp only [onWorker, C.bind_ok, C.pure_eq_ok, Except.ok.injEq, Prod.exists, deref_eq_ok, same, and_assoc]
  refine exists_congr fun p => exists_congr fun o => ?_
  constructor
  · intro h
    obtain ⟨hp, ho, w, t, hf, rfl⟩ := h
    exact ⟨w, t, hp, ho, hf, by rw [← same]⟩
  · intro h
    obtain ⟨w, t, hp, ho, hf, rfl⟩ := h
    exact ⟨hp, ho, w, t, hf, by rw [← same]⟩

/-- The object an `INIT` allocates. -/
def freshObj (lib : LibCalls) (q : UInt16) : QueueObj := ⟨⟨q, lib.status⟩, workerInitCtx lib.mem, false⟩

theorem actionInit_ok (same : e.action.workers = e.action.queues) :
    actionInitNfqueue lib e q = .ok e' ↔ lib.nfqInit = true ∧
      ∃ tab, writeAt e.action.queues q.toNat (some e.action.heap.length) = .ok tab ∧
        e' = { e with action := ⟨tab, tab, e.action.heap ++ [freshObj lib q]⟩ } := by
  unfold actionInitNfqueue
  split
  · next hlib =>
    simp only [C.bind_ok, same, hlib, true_and, C.pure_eq_ok, Except.ok.injEq]
    apply exists_congr
    intro tab
    apply and_congr_right
    intro htab
    simp only [htab, Except.ok.injEq, exists_eq_left']
    exact eq_comm
  · next hlib => simp [hlib]

/-- What teardown leaves of the object: the status, and whether the worker was destroyed. -/
def tornObj (lib : LibCalls) (o : QueueObj) : QueueObj :=
  ⟨(nfqTeardown o.nfq lib.nfqTeardown).1, o.worker, lib.nfqTeardown || o.destroyed⟩

/-- A teardown the library makes clears the entries, one it refuses keeps them. -/
theorem actionTeardown_ok (same : e.action.workers = e.action.queues) :
    actionTeardownNfqueue lib e q = .ok e' ↔ ∃ p o, entry e.action.queues q = some p ∧
      e.action.heap[p]? = some o ∧ ∃ tab,
        (if lib.nfqTeardown = true then writeAt e.action.queues q.toNat none else .ok e.action.queues) = .ok tab ∧
        e' = { e with action := ⟨tab, tab, e.action.heap.set p (tornObj lib o)⟩ } := by
  simp only [actionTeardownNfqueue, C.bind_ok, Prod.exists, deref_eq_ok, and_assoc]
  refine exists_congr fun p => exists_congr fun o => and_congr_right fun hp => and_congr_right fun ho => ?_
  have hlt := (List.getElem?_eq_some_iff.mp ho).1
  rcases hlib : lib.nfqTeardown with _ | _
  · simp only [nfqTeardown, tornObj, hlib, Bool.false_eq_true, if_false, Except.ok.injEq, exists_eq_left',
      Bool.false_or, C.pure_eq_ok, ← same]
    simp only [ne_eq, Int.reduceNeg, reduceCtorEq, not_false_eq_true, if_true, Except.ok.injEq]
    exact eq_comm
  · simp only [nfqTeardown, tornObj, hlib, if_true, Bool.true_or, same, hp, ne_eq, not_true_eq_false, if_false,
      C.pure_eq_ok, C.bind_ok, Prod.exists, deref_eq_ok, Option.some.injEq]
    constructor
    · intro h
      obtain ⟨_, v, ⟨rfl, hv⟩, tab, htab, tab', htab', h⟩ := h
      rw [List.getElem?_set_self hlt, Option.some.injEq] at hv
      cases htab.symm.trans htab'
      cases hv
      cases h
      exact ⟨tab, htab, by rw [List.set_set]⟩
    · intro h
      obtain ⟨tab, htab, rfl⟩ := h
      refine ⟨p, _, ⟨rfl, List.getElem?_set_self hlt⟩, tab, htab, tab, htab, ?_⟩
      rw [List.set_set]

end Actions

/-- What an action writes to the `nfq_ctx` it is addressed to. -/
def Action.onNfq : Action → NfqCtx → NfqCtx
  | .startNfqueue _, nfq => nfqStart nfq
  | .stopNfqueue _, nfq => nfqStop nfq
  | .teardownNfqueue _, nfq => { nfq with status := nfqDead }
  | _, nfq => nfq

@[simp] theorem Action.onNfq_queueNum (a : Action) (nfq : NfqCtx) : (a.onNfq nfq).queueNum = nfq.queueNum := by
  cases a <;> rfl

theorem Action.onNfq_of_body {a : Action} {x : UInt16 × Body} (h : a.body? = some x) (nfq : NfqCtx) :
    a.onNfq nfq = nfq := by
  cases a <;> first | rfl | cases h

/-- **All an action can do** to the tables and the objects. -/
inductive Effect (lib : LibCalls) (a : Action) (x : ActionCtx) : ActionCtx → Prop
  | none (ha : a.queue? = none) : Effect lib a x x
  | write (q : UInt16) (p : Nat) (o : QueueObj) (w : WorkerCtx) (ha : a.queue? = some q)
      (hinit : a ≠ .initNfqueue q) (hkept : a = .teardownNfqueue q → lib.nfqTeardown = false)
      (hp : entry x.queues q = some p) (ho : x.heap[p]? = some o) :
      Effect lib a x { x with heap := x.heap.set p ⟨a.onNfq o.nfq, w, o.destroyed⟩ }
  | opened (q : UInt16) (tab : Vector (Option Nat) actionMaxNfqueue) (ha : a = .initNfqueue q)
      (htab : writeAt x.queues q.toNat (some x.heap.length) = .ok tab) :
      Effect lib a x ⟨tab, tab, x.heap ++ [freshObj lib q]⟩
  | closed (q : UInt16) (p : Nat) (o : QueueObj) (tab : Vector (Option Nat) actionMaxNfqueue)
      (ha : a = .teardownNfqueue q) (hlib : lib.nfqTeardown = true) (hp : entry x.queues q = some p)
      (ho : x.heap[p]? = some o) (htab : writeAt x.queues q.toNat .none = .ok tab) :
      Effect lib a x ⟨tab, tab, x.heap.set p (tornObj lib o)⟩

theorem runAction_effect {lib : LibCalls} {e e' : Emulator} {a : Action}
    (same : e.action.workers = e.action.queues) (h : runAction lib e a = .ok e') :
    Effect lib a e.action e'.action := by
  rcases hb : a.body? with _ | ⟨q, f⟩
  · cases a with
    | command c => cases h; exact .none rfl
    | initNfqueue q =>
      obtain ⟨-, tab, htab, rfl⟩ := (actionInit_ok same).mp h
      exact .opened q tab rfl htab
    | startNfqueue q =>
      obtain ⟨p, o, hp, ho, rfl⟩ := onQueue_ok.mp h
      exact .write q p o o.worker rfl (by simp) (by simp) hp ho
    | stopNfqueue q =>
      obtain ⟨p, o, hp, ho, rfl⟩ := onQueue_ok.mp h
      exact .write q p o o.worker rfl (by simp) (by simp) hp ho
    | teardownNfqueue q =>
      obtain ⟨p, o, hp, ho, tab, htab, rfl⟩ := (actionTeardown_ok same).mp h
      rcases hlib : lib.nfqTeardown with _ | _
      · simp only [hlib, Bool.false_eq_true, if_false, Except.ok.injEq] at htab
        subst htab
        have hw := @Effect.write lib (.teardownNfqueue q) e.action q p o o.worker rfl (by simp) (fun _ => hlib) hp ho
        simpa [tornObj, hlib, nfqTeardown, same, Action.onNfq] using hw
      · simp only [hlib, if_true] at htab
        exact .closed q p o tab rfl hlib hp ho htab
    | _ => cases hb
  · rw [runAction_body lib e hb, onWorker_ok same] at h
    obtain ⟨p, o, w, t, hp, ho, -, rfl⟩ := h
    have hne : ∀ r, a ≠ .initNfqueue r ∧ a ≠ .teardownNfqueue r := by
      intro r
      constructor <;> intro ha <;> subst ha <;> cases hb
    have hw := @Effect.write lib a e.action q p o w (Action.queue_of_body hb) (hne q).1
      (fun ha => absurd ha (hne q).2) hp ho
    rwa [Action.onNfq_of_body hb] at hw

section Effect
variable {lib : LibCalls} {a : Action} {x x' : ActionCtx}

theorem Effect.tagged (h : Effect lib a x x') (ht : Tagged x) : Tagged x' := by
  cases h with
  | none ha => exact ht
  | write q p o w ha hinit hkept hp ho => exact ht.set ho (Action.onNfq_queueNum a o.nfq)
  | opened q tab ha htab =>
    refine ⟨rfl, ?_⟩
    intro r p hr
    rw [entry_writeAt htab] at hr
    split at hr
    · next hrq =>
      cases hr
      exact ⟨freshObj lib q, by simp, hrq.symm⟩
    · obtain ⟨o, ho, htag⟩ := ht.tag r p hr
      exact ⟨o, List.getElem?_append_left (List.getElem?_eq_some_iff.mp ho).1 ▸ ho, htag⟩
  | closed q p o tab ha hlib hp ho htab =>
    refine ⟨rfl, ?_⟩
    intro r s hr
    rw [entry_writeAt htab] at hr
    split at hr
    · cases hr
    · have hset : Tagged { x with heap := x.heap.set p (tornObj lib o) } := ht.set ho rfl
      exact hset.tag r s hr

/-- **An action leaves the queues it is not addressed to.** -/
theorem Effect.view_other (h : Effect lib a x x') (ht : Tagged x) {q : UInt16} (hq : a.queue? ≠ some q) :
    view x' q = view x q := by
  cases h with
  | none ha => rfl
  | write r p o w ha hinit hkept hp ho =>
    obtain ⟨v, hv, htag⟩ := ht.tag r p hp
    cases ho.symm.trans hv
    exact view_set_other ht ho fun hrq => hq (by rw [ha, ← hrq, htag])
  | opened r tab ha htab =>
    have hne : q ≠ r := fun hqr => hq (by rw [ha, hqr]; rfl)
    simp only [view, entry_writeAt htab, if_neg hne]
    rcases hr : entry x.queues q with _ | p
    · rfl
    · obtain ⟨o, ho, -⟩ := ht.tag q p hr
      simp [List.getElem?_append_left (List.getElem?_eq_some_iff.mp ho).1]
  | closed r p o tab ha hlib hp ho htab =>
    obtain ⟨v, hv, htag⟩ := ht.tag r p hp
    cases ho.symm.trans hv
    have hrq : r ≠ q := fun hrq => hq (by rw [ha, ← hrq]; rfl)
    have hset : view { x with heap := x.heap.set p (tornObj lib o) } q = view x q :=
      view_set_other ht ho (by rw [htag]; exact hrq)
    unfold view at hset ⊢
    rw [← hset]
    simp only [entry_writeAt htab, if_neg (Ne.symm hrq)]

end Effect

/-- A tick writes the worker the sampler is linked to. -/
theorem tick_ok {t : TcpCtx} {x x' : ActionCtx} :
    tick t x = .ok x' ↔ ∃ p o w, t.wkctx = some p ∧ x.heap[p]? = some o ∧ tcpSchedule t o.worker = .ok w ∧
      x' = { x with heap := x.heap.set p { o with worker := w } } := by
  unfold tick
  rcases t.wkctx with _ | p
  · simp
  · rcases ho : x.heap[p]? with _ | o
    · simp [ho]
    · simp only [ho, C.bind_ok, C.pure_eq_ok, Except.ok.injEq, Option.some.injEq, exists_and_left, exists_eq_left']
      exact exists_congr fun w => and_congr_right fun _ => eq_comm

end Handoff
