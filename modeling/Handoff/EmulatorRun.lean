import Handoff.WorkerRun
import Mathlib.Data.List.Forall2

/- The whole emulator as a machine, and two runs of it side by side.

   An input of the machine is an action of the scheduler, a tick of the sampler, or a packet
   for one queue object. Two emulators are `Alike` when they have the same tables and their
   samplers and workers are related. The flags `do_rwnd`, `do_dedup` and `enable` are read
   by no action and by no tick: a body that is `Natural` commutes with any change of them,
   so relations that only change these flags are kept by every such body
   (`natural_alike`) and by every input that neither delivers a packet nor sets one of
   them (`emuStep_alike`). -/
namespace Handoff

open Machine

/-- What happens next. -/
inductive EmuInput
  | action (lib : LibCalls) (a : Action)
  | tick
  | packet (p : Nat) (nfa : NfqData)

/-- One step of the emulator. A verdict is listed with the position of its queue object. -/
def emuStep (csum : List UInt8 → UInt16) (e : Emulator) : EmuInput → C (Emulator × List (Nat × Verdict))
  | .action lib a => do
    let e ← runAction lib e a
    return (e, [])
  | .tick => do
    let action ← tick e.tcp e.action
    return ({ e with action }, [])
  | .packet p nfa =>
    match e.action.heap[p]? with
    | none => .ok (e, [])
    | some o => do
      let (w, vs) ← workerCallback csum o.worker nfa
      return ({ e with action.heap := e.action.heap.set p { o with worker := w } }, vs.map (p, ·))

/-- What an action does to the worker it is addressed to and to the sampler. -/
abbrev Body := Nat → WorkerCtx → TcpCtx → C (WorkerCtx × TcpCtx)

/-- The queue and the body of an action on a worker. -/
def Action.body? : Action → Option (UInt16 × Body)
  | .setMark q mark => some (q, fun _ w t => .ok (workerSetMark w mark, t))
  | .setReorder q enable count offset => some (q, fun _ w t => .ok (workerSetReorder w enable count offset, t))
  | .setDrop q enable dropCount => some (q, fun _ w t => .ok (workerSetDrop w enable dropCount, t))
  | .setDedup q enable => some (q, fun _ w t => .ok (workerSetDedup w enable, t))
  | .solUpdate q mark => some (q, fun _ => Handoff.solUpdate mark)
  | .setRwnd q rwnd => some (q, fun _ => Handoff.setRwnd rwnd)
  | .setBurst q enable => some (q, fun _ => Handoff.setBurst enable)
  | .setAdapt q enable => some (q, fun _ => Handoff.setAdapt enable)
  | .initTcpSched q args => some (q, Handoff.initTcpSched args)
  | _ => none

theorem runAction_body (lib : LibCalls) (e : Emulator) {a : Action} {q : UInt16} {f : Body}
    (h : a.body? = some (q, f)) : runAction lib e a = onWorker e q f := by
  cases a <;> cases h <;> rfl

/-! Two emulators side by side. -/

section Alike
variable {Rt : TcpCtx → TcpCtx → Prop} {Rw : WorkerCtx → WorkerCtx → Prop}

structure ObjAlike (Rw : WorkerCtx → WorkerCtx → Prop) (o o' : QueueObj) : Prop where
  nfq : o.nfq = o'.nfq
  worker : Rw o.worker o'.worker
  destroyed : o.destroyed = o'.destroyed

structure Alike (Rt : TcpCtx → TcpCtx → Prop) (Rw : WorkerCtx → WorkerCtx → Prop) (e e' : Emulator) : Prop where
  tcp : Rt e.tcp e'.tcp
  queues : e.action.queues = e'.action.queues
  workers : e.action.workers = e'.action.workers
  heap : List.Forall₂ (ObjAlike Rw) e.action.heap e'.action.heap

/-- Two bodies keep the relations. -/
def BodyAlike (Rt : TcpCtx → TcpCtx → Prop) (Rw : WorkerCtx → WorkerCtx → Prop) (f f' : Body) : Prop :=
  ∀ pos w w' t t', Rw w w' → Rt t t' →
    Agree (fun x y => Rw x.1 y.1 ∧ Rt x.2 y.2) (f pos w t) (f' pos w' t')

/-- At each position the heaps have related objects, or neither has one. -/
theorem heap_get {h h' : List QueueObj} (H : List.Forall₂ (ObjAlike Rw) h h') (p : Nat) :
    (h[p]? = none ∧ h'[p]? = none) ∨ ∃ o o', h[p]? = some o ∧ h'[p]? = some o' ∧ ObjAlike Rw o o' := by
  induction H generalizing p with
  | nil => exact .inl ⟨rfl, rfl⟩
  | cons ho _ ih =>
    cases p with
    | zero => exact .inr ⟨_, _, rfl, rfl, ho⟩
    | succ p => exact ih p

theorem heap_set {h h' : List QueueObj} (H : List.Forall₂ (ObjAlike Rw) h h') {o o' : QueueObj}
    (ho : ObjAlike Rw o o') (p : Nat) : List.Forall₂ (ObjAlike Rw) (h.set p o) (h'.set p o') := by
  induction H generalizing p with
  | nil => exact .nil
  | cons hd tl ih =>
    cases p with
    | zero => exact .cons ho tl
    | succ p => exact .cons hd (ih p)

/-- Changing an object on the left alone. -/
theorem heap_set_left {h h' : List QueueObj} (H : List.Forall₂ (ObjAlike Rw) h h') {o : QueueObj} {p : Nat}
    (ho : ∀ o', h'[p]? = some o' → ObjAlike Rw o o') : List.Forall₂ (ObjAlike Rw) (h.set p o) h' := by
  induction H generalizing p with
  | nil => exact .nil
  | cons hd tl ih =>
    cases p with
    | zero => exact .cons (ho _ rfl) tl
    | succ p => exact .cons hd (ih ho)

theorem deref_ok {tab : Vector (Option Nat) actionMaxNfqueue} {h : List QueueObj} {q : UInt16} {p : Nat}
    {o : QueueObj} (hd : deref tab h q = .ok (p, o)) : h[p]? = some o := by
  simp only [deref, C.bind_ok] at hd
  obtain ⟨entry, -, hd⟩ := hd
  rcases entry with _ | p'
  · cases hd
  · simp only at hd
    rcases hp : h[p']? with _ | o'
    · rw [hp] at hd
      cases hd
    · rw [hp] at hd
      cases hd
      exact hp

theorem deref_alike {h h' : List QueueObj} (H : List.Forall₂ (ObjAlike Rw) h h')
    (tab : Vector (Option Nat) actionMaxNfqueue) (q : UInt16) :
    Agree (fun x y => x.1 = y.1 ∧ ObjAlike Rw x.2 y.2) (deref tab h q) (deref tab h' q) := by
  unfold deref
  apply Agree.bind_same
  intro entry
  rcases entry with _ | p
  · trivial
  · rcases heap_get H p with ⟨h₁, h₂⟩ | ⟨o, o', h₁, h₂, ho⟩
    · simp only [h₁, h₂]
      trivial
    · simp only [h₁, h₂]
      exact ⟨rfl, ho⟩

theorem onQueue_alike {e e' : Emulator} (h : Alike Rt Rw e e') (q : UInt16) (f : NfqCtx → NfqCtx) :
    Agree (Alike Rt Rw) (onQueue e q f) (onQueue e' q f) := by
  unfold onQueue
  rw [h.queues]
  refine Agree.bind (deref_alike h.heap _ q) ?_
  rintro ⟨p, o⟩ ⟨_, o'⟩ ⟨rfl, (ho : ObjAlike Rw o o')⟩
  have hset : ObjAlike Rw { o with nfq := f o.nfq } { o' with nfq := f o'.nfq } :=
    ⟨by rw [ho.nfq], ho.worker, ho.destroyed⟩
  exact ⟨h.tcp, h.queues, h.workers, heap_set h.heap hset p⟩

theorem onWorker_alike {e e' : Emulator} (h : Alike Rt Rw e e') (q : UInt16) {f f' : Body}
    (hf : BodyAlike Rt Rw f f') : Agree (Alike Rt Rw) (onWorker e q f) (onWorker e' q f') := by
  unfold onWorker
  rw [h.workers]
  refine Agree.bind (deref_alike h.heap _ q) ?_
  rintro ⟨p, o⟩ ⟨_, o'⟩ ⟨rfl, (ho : ObjAlike Rw o o')⟩
  refine Agree.bind (hf p _ _ _ _ ho.worker h.tcp) ?_
  rintro ⟨w, t⟩ ⟨w', t'⟩ ⟨(hw : Rw w w'), ht⟩
  have hset : ObjAlike Rw { o with worker := w } { o' with worker := w' } := ⟨ho.nfq, hw, ho.destroyed⟩
  exact ⟨ht, h.queues, rfl, heap_set h.heap hset p⟩

/-- The actions that work on a whole queue keep emulators alike. -/
theorem queueAction_alike {e e' : Emulator} (h : Alike Rt Rw e e')
    (hinit : ∀ mem, Rw (workerInitCtx mem) (workerInitCtx mem)) (lib : LibCalls) {a : Action}
    (ha : a.body? = none) : Agree (Alike Rt Rw) (runAction lib e a) (runAction lib e' a) := by
  have hlen : e.action.heap.length = e'.action.heap.length := h.heap.length_eq
  cases a with
  | command c => exact h
  | initNfqueue q =>
    simp only [runAction, actionInitNfqueue]
    split
    · rw [h.queues, h.workers, hlen]
      apply Agree.bind_same
      intro queues
      apply Agree.bind_same
      intro workers
      exact ⟨h.tcp, rfl, rfl, List.rel_append h.heap (.cons ⟨rfl, hinit _, rfl⟩ .nil)⟩
    · trivial
  | startNfqueue q => exact onQueue_alike h q nfqStart
  | stopNfqueue q => exact onQueue_alike h q nfqStop
  | teardownNfqueue q =>
    simp only [runAction, actionTeardownNfqueue]
    rw [h.queues]
    refine Agree.bind (deref_alike h.heap _ q) ?_
    rintro ⟨p, o⟩ ⟨_, o'⟩ ⟨rfl, (ho : ObjAlike Rw o o')⟩
    have hdead : ObjAlike Rw { o with nfq := (nfqTeardown o.nfq lib.nfqTeardown).1 }
        { o' with nfq := (nfqTeardown o'.nfq lib.nfqTeardown).1 } :=
      ⟨by rw [ho.nfq], ho.worker, ho.destroyed⟩
    have hset := heap_set h.heap hdead p
    have hret : (nfqTeardown o.nfq lib.nfqTeardown).2 = (nfqTeardown o'.nfq lib.nfqTeardown).2 := rfl
    simp only [hret]
    split
    · exact ⟨h.tcp, rfl, h.workers, hset⟩
    · rw [h.workers]
      refine Agree.bind (deref_alike hset _ q) ?_
      rintro ⟨w, v⟩ ⟨_, v'⟩ ⟨rfl, (hv : ObjAlike Rw v v')⟩
      apply Agree.bind_same
      intro queues
      apply Agree.bind_same
      intro workers
      have hgone : ObjAlike Rw { v with destroyed := true } { v' with destroyed := true } :=
        ⟨hv.nfq, hv.worker, rfl⟩
      exact ⟨h.tcp, rfl, rfl, heap_set hset hgone w⟩
  | _ => cases ha

/-- A packet keeps emulators alike if it keeps the workers it may meet related. -/
theorem packet_alike {csum : List UInt8 → UInt16} {ν : Type} {view : Verdict → ν} {e e' : Emulator}
    (h : Alike Rt Rw e e') (p : Nat) (nfa : NfqData)
    (hcb : ∀ o o', e.action.heap[p]? = some o → e'.action.heap[p]? = some o' → Rw o.worker o'.worker →
      Agree (fun a b => Rw a.1 b.1 ∧ a.2.map view = b.2.map view)
        (workerCallback csum o.worker nfa) (workerCallback csum o'.worker nfa)) :
    Agree (fun a b => Alike Rt Rw a.1 b.1 ∧ a.2.map (Prod.map id view) = b.2.map (Prod.map id view))
      (emuStep csum e (.packet p nfa)) (emuStep csum e' (.packet p nfa)) := by
  simp only [emuStep]
  rcases heap_get h.heap p with ⟨h₁, h₂⟩ | ⟨o, o', h₁, h₂, ho⟩
  · simp only [h₁, h₂]
    exact ⟨h, rfl⟩
  · simp only [h₁, h₂]
    refine Agree.bind (hcb o o' h₁ h₂ ho.worker) ?_
    rintro ⟨w, vs⟩ ⟨w', vs'⟩ ⟨(hw : Rw w w'), (hv : vs.map view = vs'.map view)⟩
    have hset : ObjAlike Rw { o with worker := w } { o' with worker := w' } := ⟨ho.nfq, hw, ho.destroyed⟩
    refine ⟨⟨h.tcp, h.queues, h.workers, heap_set h.heap hset p⟩, ?_⟩
    have hpair : ∀ us : List Verdict, (us.map (p, ·)).map (Prod.map id view) = (us.map view).map (p, ·) := by
      intro us
      simp [Function.comp_def]
    simp only [hpair, hv]

end Alike

/-! Changing flags that nothing but the packet path reads. -/

section Flags

/-- `do_rwnd` and `do_dedup` changed, and `enable` changed. -/
def flags (g h : Int → Int) (w : WorkerCtx) : WorkerCtx := { w with doRwnd := g w.doRwnd, doDedup := h w.doDedup }
def flagEnable (k : Int → Int) (t : TcpCtx) : TcpCtx := { t with enable := k t.enable }

/-- A body that commutes with every change of the flags. -/
def Natural (f : Body) : Prop :=
  ∀ g h k pos w t, f pos (flags g h w) (flagEnable k t) = (f pos w t).map (Prod.map (flags g h) (flagEnable k))

/-- The relations only change these flags. -/
structure Reflags (Rt : TcpCtx → TcpCtx → Prop) (Rw : WorkerCtx → WorkerCtx → Prop) : Prop where
  worker : ∀ w w', Rw w w' → ∃ g h, w' = flags g h w ∧ ∀ v, Rw v (flags g h v)
  tcp : ∀ t t', Rt t t' → ∃ k, t' = flagEnable k t ∧ ∀ u, Rt u (flagEnable k u)

variable {Rt : TcpCtx → TcpCtx → Prop} {Rw : WorkerCtx → WorkerCtx → Prop}

theorem natural_alike (R : Reflags Rt Rw) {f : Body} (hf : Natural f) : BodyAlike Rt Rw f f := by
  intro pos w w' t t' hw ht
  obtain ⟨g, h, rfl, hgh⟩ := R.worker w w' hw
  obtain ⟨k, rfl, hk⟩ := R.tcp t t' ht
  rw [hf g h k pos w t]
  rcases f pos w t with e | ⟨v, u⟩
  · trivial
  · exact ⟨hgh v, hk u⟩

theorem natural_solUpdate (mark : UInt32) : Natural (fun _ => solUpdate mark) := by
  intro g h k pos w t
  by_cases hw : 0 < w.tuneRwnd
  · simp only [solUpdate, flags, flagEnable, hw, if_true]
    rcases readAt t.histParam t.mark with e | p
    · rfl
    · simp only [C.ok_bind]
      rcases writeAt t.histParam t.mark { p with histRw := w.tuneRwnd.toNat } with e | hist
      · rfl
      · simp only [C.ok_bind, C.pure_eq_ok]
        rcases readAt hist mark.toNat with e | q
        · rfl
        · simp only [C.ok_bind, Except.map, Prod.map, workerSolUpdate, flags, flagEnable]
  · simp only [solUpdate, flags, flagEnable, hw, if_false, C.ok_bind, C.pure_eq_ok]
    rcases readAt t.histParam mark.toNat with e | q <;> rfl

theorem natural_setRwnd (rwnd : UInt16) : Natural (fun _ => setRwnd rwnd) := by
  intro g h k pos w t
  unfold setRwnd
  generalize (if rwnd < 10 then 10 else rwnd) = r
  rfl

theorem workerSetBurst_flags (g h : Int → Int) (w : WorkerCtx) (enable rwnd : Int) :
    workerSetBurst (flags g h w) enable rwnd = flags g h (workerSetBurst w enable rwnd) := by
  unfold workerSetBurst
  split <;> rfl

theorem workerSetAdapt_flags (g h : Int → Int) (w : WorkerCtx) (enable rwnd : Int) :
    workerSetAdapt (flags g h w) enable rwnd = flags g h (workerSetAdapt w enable rwnd) := by
  unfold workerSetAdapt
  split <;> rfl

theorem natural_setBurst (enable : Int) : Natural (fun _ => setBurst enable) := by
  intro g h k pos w t
  have ht : (flagEnable k t).histParam = t.histParam ∧ (flagEnable k t).mark = t.mark := ⟨rfl, rfl⟩
  simp only [setBurst, ht.1, ht.2]
  rcases readAt t.histParam t.mark with e | p
  · rfl
  · simp only [C.ok_bind, workerSetBurst_flags]
    have hr : (flags g h (workerSetBurst w enable p.histRw)).tuneRwnd =
        (workerSetBurst w enable p.histRw).tuneRwnd := rfl
    simp only [hr]
    split
    · rfl
    · split
      · rcases writeAt t.histParam t.mark { p with histRw := (workerSetBurst w enable p.histRw).tuneRwnd.toNat }
          with e | hist <;> rfl
      · rfl

theorem natural_setAdapt (enable : Int) : Natural (fun _ => setAdapt enable) := by
  intro g h k pos w t
  have ht : (flagEnable k t).histParam = t.histParam ∧ (flagEnable k t).mark = t.mark := ⟨rfl, rfl⟩
  simp only [setAdapt, ht.1, ht.2]
  rcases readAt t.histParam t.mark with e | p
  · rfl
  · simp only [C.ok_bind, workerSetAdapt_flags, C.pure_eq_ok]
    split <;> rfl

/-- The actions that set none of the flags. -/
def Action.Neutral : Action → Prop
  | .setDedup _ _ => False
  | .initTcpSched _ _ => False
  | _ => True

theorem Action.Neutral.natural {a : Action} (ha : a.Neutral) {q : UInt16} {f : Body}
    (h : a.body? = some (q, f)) : Natural f := by
  cases a with
  | setMark q mark => cases h; exact fun _ _ _ _ _ _ => rfl
  | setReorder q enable count offset =>
    cases h
    intro g k j pos w t
    simp only [workerSetReorder, flags]
    split <;> rfl
  | setDrop q enable dropCount =>
    cases h
    intro g k j pos w t
    simp only [workerSetDrop, flags]
    split <;> rfl
  | solUpdate q mark => cases h; exact natural_solUpdate mark
  | setRwnd q rwnd => cases h; exact natural_setRwnd rwnd
  | setBurst q enable => cases h; exact natural_setBurst enable
  | setAdapt q enable => cases h; exact natural_setAdapt enable
  | setDedup q enable => exact ha.elim
  | initTcpSched q args => exact ha.elim
  | _ => cases h

theorem tcpSchedule_flags (g h : Int → Int) (k : Int → Int) (t : TcpCtx) (w : WorkerCtx) :
    tcpSchedule (flagEnable k t) (flags g h w) = (tcpSchedule t w).map (flags g h) := by
  by_cases hb : w.doBurst = 0
  · by_cases ha : w.doAdapt ≠ 0 ∧ 0 < w.tuneRwnd
    · simp only [tcpSchedule, flags, flagEnable, hb, ne_eq, not_true_eq_false, if_false, if_pos ha, Except.map]
    · simp only [tcpSchedule, flags, flagEnable, hb, ne_eq, not_true_eq_false, if_false, if_neg ha, Except.map]
  · simp only [tcpSchedule, flags, flagEnable, hb, ne_eq, not_false_eq_true, if_true]
    rcases readAt t.histParam t.mark with e | p <;> rfl

theorem tick_alike (R : Reflags Rt Rw) {e e' : Emulator} (h : Alike Rt Rw e e') :
    Agree (fun a a' => Alike Rt Rw { e with action := a } { e' with action := a' })
      (tick e.tcp e.action) (tick e'.tcp e'.action) := by
  obtain ⟨k, hk, -⟩ := R.tcp _ _ h.tcp
  have hwk : e'.tcp.wkctx = e.tcp.wkctx := by rw [hk]; rfl
  unfold tick
  rw [hwk]
  rcases e.tcp.wkctx with _ | p
  · trivial
  · rcases heap_get h.heap p with ⟨h₁, h₂⟩ | ⟨o, o', h₁, h₂, ho⟩
    · simp only [h₁, h₂]
      trivial
    · simp only [h₁, h₂]
      obtain ⟨f, d, hfd, hrel⟩ := R.worker _ _ ho.worker
      rw [hfd, hk, tcpSchedule_flags]
      rcases tcpSchedule e.tcp o.worker with err | w
      · trivial
      · have hset : ObjAlike Rw { o with worker := w } { o' with worker := flags f d w } :=
          ⟨ho.nfq, hrel w, ho.destroyed⟩
        exact ⟨hk ▸ h.tcp, h.queues, h.workers, heap_set h.heap hset p⟩

/-! A packet under changed flags. -/

theorem afterDrop_flags (g h : Int → Int) (w : WorkerCtx) : afterDrop (flags g h w) = flags g h (afterDrop w) := by
  unfold afterDrop
  by_cases hd : w.doDrop = 0
  · rw [if_pos hd, if_pos (show (flags g h w).doDrop = 0 from hd)]
  · rw [if_neg hd, if_neg (show ¬ (flags g h w).doDrop = 0 from hd)]
    rfl

theorem reorderAdmit_flags (g h : Int → Int) (w : WorkerCtx) (id : UInt32) :
    reorderAdmit (flags g h w) id = (reorderAdmit w id).map (fun r => (flags g h r.1, r.2)) := by
  by_cases hc : 0 < w.reorderCount
  · simp only [reorderAdmit, flags, hc, if_true]
    rcases decInt w.reorderCount with e | n
    · rfl
    · simp only [C.ok_bind]
      rcases writeAt w.reorderIds w.reorderIdCur id with e | ids <;> rfl
  · simp only [reorderAdmit, flags, hc, if_false]
    rcases decInt w.reorderCount with e | n
    · rfl
    · simp only [C.ok_bind]
      rcases decInt w.reorderOffset with e | k <;> rfl

theorem reorderStep_flags (g h : Int → Int) (w : WorkerCtx) (id : UInt32) :
    reorderStep (flags g h w) id = (reorderStep w id).map (fun r => (flags g h r.1, r.2)) := by
  by_cases h0 : w.doReorder = 0
  · simp only [reorderStep, workerHandleReorder, h0, show (flags g h w).doReorder = w.doReorder from rfl, if_true]
    rfl
  · simp only [reorderStep, workerHandleReorder, h0, show (flags g h w).doReorder = w.doReorder from rfl, if_false,
      reorderAdmit_flags]
    rcases reorderAdmit w id with e | ⟨v, vs⟩
    · rfl
    · have hv : (flags g h v).reorderOffset = v.reorderOffset ∧ (flags g h v).reorderIds = v.reorderIds ∧
          (flags g h v).mark = v.mark ∧ (flags g h v).reorderIdCur = v.reorderIdCur := ⟨rfl, rfl, rfl, rfl⟩
      obtain ⟨ho, hi, hm, hc⟩ := hv
      simp only [Except.map, C.ok_bind, ho, hi, hm, hc]
      split
      · rcases releaseQueued v.reorderIds v.mark v.reorderIdCur.toNat with e | rs <;> rfl
      · rfl

/-- Up to the stages that read the flags a packet does the same under other flags. -/
theorem callback_alike (R : Reflags Rt Rw) (csum : List UInt8 → UInt16) {ν : Type} (view : Verdict → ν)
    (nfa : NfqData) {w w' : WorkerCtx} (hw : Rw w w')
    (hfin : ∀ bs, nfa.payload = some bs → ¬ Drops w → w.doReorder = 0 →
      Rw (finish csum (afterDrop w) nfa.packetId bs).1 (finish csum (afterDrop w') nfa.packetId bs).1 ∧
      (finish csum (afterDrop w) nfa.packetId bs).2.map view =
        (finish csum (afterDrop w') nfa.packetId bs).2.map view) :
    Agree (fun a b => Rw a.1 b.1 ∧ a.2.map view = b.2.map view)
      (workerCallback csum w nfa) (workerCallback csum w' nfa) := by
  obtain ⟨g, h, rfl, hgh⟩ := R.worker w w' hw
  by_cases hok : (∃ bs, nfa.payload = some bs) ∧ DropDefined w
  · obtain ⟨⟨bs, hp⟩, hd⟩ := hok
    have hd' : DropDefined (flags g h w) := hd
    have hiff : Drops (flags g h w) ↔ Drops w := Iff.rfl
    rw [workerCallback_some csum hp hd, workerCallback_some csum hp hd', afterDrop_flags]
    simp only [hiff, show (flags g h w).doReorder = w.doReorder from rfl]
    split
    · exact ⟨hgh _, rfl⟩
    · next hdr =>
      split
      · next h0 =>
        have hf := hfin bs hp hdr h0
        rw [afterDrop_flags] at hf
        exact hf
      · rw [reorderStep_flags]
        rcases reorderStep (afterDrop w) nfa.packetId with e | r
        · trivial
        · exact ⟨hgh _, rfl⟩
  · -- both calls fault
    rcases h₁ : workerCallback csum w nfa with e | r
    · rcases h₂ : workerCallback csum (flags g h w) nfa with e' | r'
      · trivial
      · exact absurd (workerCallback_ok csum h₂) hok
    · exact absurd (workerCallback_ok csum h₁) hok

/-- The inputs that deliver no packet and set none of the flags. -/
def EmuInput.Neutral : EmuInput → Prop
  | .action _ a => a.Neutral
  | .tick => True
  | .packet _ _ => False

/-- **Neutral inputs keep emulators alike.** -/
theorem emuStep_alike (R : Reflags Rt Rw) (hinit : ∀ mem, Rw (workerInitCtx mem) (workerInitCtx mem))
    (csum : List UInt8 → UInt16) {e e' : Emulator} (h : Alike Rt Rw e e') {i : EmuInput} (hi : i.Neutral)
    {ν : Type} (view : Nat × Verdict → ν) :
    Agree (fun a b => Alike Rt Rw a.1 b.1 ∧ a.2.map view = b.2.map view) (emuStep csum e i) (emuStep csum e' i) := by
  cases i with
  | action lib a =>
    simp only [emuStep]
    refine Agree.bind (R := Alike Rt Rw) ?_ fun a b hab => ⟨hab, rfl⟩
    rcases hb : a.body? with _ | ⟨q, f⟩
    · exact queueAction_alike h hinit lib hb
    · rw [runAction_body lib e hb, runAction_body lib e' hb]
      exact onWorker_alike h q (natural_alike R (Action.Neutral.natural hi hb))
  | tick =>
    simp only [emuStep]
    exact Agree.bind (tick_alike R h) fun a b hab => ⟨hab, rfl⟩
  | packet p nfa => exact hi.elim

end Flags

/-! Library calls that succeed, and the arguments of a `SOL_INIT_SCHED` line, for fixed inputs. -/

def quietLib : LibCalls := { mem := zeroWorker, status := 0, nfqInit := true, nfqTeardown := true }

def schedArgs : InitTcpSchedArgs :=
  { enable := 1, sampleInterval := 30, threshold := 90 / 100, pace := 2 / 100, fire := 1500, mark := 1,
    initParam := #v[⟨0, 0, 0⟩, ⟨1, 2000, 82⟩, ⟨2, 4000, 46⟩] }

end Handoff
