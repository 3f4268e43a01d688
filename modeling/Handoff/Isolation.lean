import Handoff.DryRun
import Handoff.QueueTable
import Handoff.SamplerPeriod

/- Queues do not reach each other.

   The actions of `INIT`, `HO` and `SOL_HANDLEDUP` lines write nothing but the object their
   queue is open with, and a packet nothing but the worker of its queue. Only the sampler is
   shared, and it follows the worker of the queue that `SOL_INIT_SCHED` named. So a queue that no
   such line names is a machine of its own (`soloStep`), and the whole emulator, seen from that
   queue, is this machine run on the inputs addressed to the queue (`run_solo`). -/
namespace Handoff

open Machine

/-- What happens next in the emulator, a packet by the queue it is on. -/
inductive NetInput
  | action (lib : LibCalls) (a : Action)
  | tick
  | packet (q : UInt16) (nfa : NfqData)

/-- One step of the emulator. The packets of a queue go to the worker it is open with, and each verdict
    is listed with its queue. -/
def netStep (csum : List UInt8 → UInt16) (e : Emulator) : NetInput → C (Emulator × List (UInt16 × Verdict))
  | .action lib a => do
    let e ← runAction lib e a
    return (e, [])
  | .tick => do
    let action ← tick e.tcp e.action
    return ({ e with action }, [])
  | .packet q nfa =>
    match entry e.action.queues q with
    | none => .ok (e, [])
    | some p => do
      let (e, vs) ← emuStep csum e (.packet p nfa)
      return (e, vs.map fun v => (q, v.2))

/-- The inputs addressed to queue `q`. -/
def NetInput.on (q : UInt16) : NetInput → Bool
  | .action _ a => a.queue? == some q
  | .tick => false
  | .packet r _ => r == q

/-- What an action of an `HO` or `SOL_HANDLEDUP` line does to its worker. -/
def Action.onWorker? : Action → Option (WorkerCtx → WorkerCtx)
  | .setMark _ mark => some fun w => workerSetMark w mark
  | .setReorder _ enable count offset => some fun w => workerSetReorder w enable count offset
  | .setDrop _ enable dropCount => some fun w => workerSetDrop w enable dropCount
  | .setDedup _ enable => some fun w => workerSetDedup w enable
  | _ => none

/-- An action that `SOL_INIT_SCHED` and `SOL_HO` lines alone issue. -/
def Action.OfController : Action → Prop
  | .solUpdate _ _ => True
  | .setRwnd _ _ => True
  | .setBurst _ _ => True
  | .setAdapt _ _ => True
  | .initTcpSched _ _ => True
  | _ => False

/-- An input that is no such action on queue `q`. -/
def NetInput.Plain (q : UInt16) : NetInput → Prop
  | .action _ a => a.queue? = some q → ¬ a.OfController
  | _ => True

theorem Action.body_of_onWorker {a : Action} {g : WorkerCtx → WorkerCtx} (h : a.onWorker? = some g) :
    ∃ q, a.queue? = some q ∧ a.body? = some (q, fun _ w t => .ok (g w, t)) := by
  cases a <;> cases h <;> exact ⟨_, rfl, rfl⟩

theorem Action.onWorker_of_body {a : Action} {x : UInt16 × Body} (h : a.body? = some x)
    (ha : ¬ a.OfController) : ∃ g, a.onWorker? = some g := by
  cases a with
  | setMark q mark => exact ⟨_, rfl⟩
  | setReorder q enable count offset => exact ⟨_, rfl⟩
  | setDrop q enable dropCount => exact ⟨_, rfl⟩
  | setDedup q enable => exact ⟨_, rfl⟩
  | solUpdate q mark => exact absurd trivial ha
  | setRwnd q rwnd => exact absurd trivial ha
  | setBurst q enable => exact absurd trivial ha
  | setAdapt q enable => exact absurd trivial ha
  | initTcpSched q args => exact absurd trivial ha
  | _ => cases h

/-! One queue alone. -/

/-- One step of a queue: the object it is open with, and its verdicts. -/
def soloStep (csum : List UInt8 → UInt16) (v : Option QueueObj) : NetInput → C (Option QueueObj × List Verdict)
  | .action lib (.initNfqueue q) => if lib.nfqInit then .ok (some (freshObj lib q), []) else .error .exited
  | .action lib (.teardownNfqueue _) =>
    match v with
    | none => .error .nullDeref
    | some o => .ok (if lib.nfqTeardown then none else some (tornObj lib o), [])
  | .action _ a =>
    match v with
    | none => .error .nullDeref
    | some o => .ok (some ⟨a.onNfq o.nfq, (a.onWorker?.getD id) o.worker, o.destroyed⟩, [])
  | .tick => .ok (v, [])
  | .packet _ nfa =>
    match v with
    | none => .ok (none, [])
    | some o => do
      let (w, vs) ← workerCallback csum o.worker nfa
      return (some { o with worker := w }, vs)

/-- The sampler is linked to no worker of queue `q`. -/
def SamplerOff (q : UInt16) (e : Emulator) : Prop :=
  ∀ p, e.tcp.wkctx = some p → ∃ o, e.action.heap[p]? = some o ∧ o.nfq.queueNum ≠ q

/-- The emulator as queue `q` sees it. -/
structure Solo (q : UInt16) (e : Emulator) (v : Option QueueObj) : Prop where
  tagged : Tagged e.action
  off : SamplerOff q e
  seen : view e.action q = v

/-- The verdicts on queue `q`. -/
def onQueue? (q : UInt16) (x : UInt16 × Verdict) : Option Verdict := if x.1 = q then some x.2 else none

def verdictsOn (q : UInt16) (o : List (UInt16 × Verdict)) : List Verdict := o.filterMap (onQueue? q)

theorem verdictsOn_own (q : UInt16) (vs : List Verdict) : verdictsOn q (vs.map (q, ·)) = vs := by
  induction vs with
  | nil => rfl
  | cons v vs ih => simpa [verdictsOn, onQueue?] using ih

theorem verdictsOn_other {q r : UInt16} (h : r ≠ q) (vs : List Verdict) : verdictsOn q (vs.map (r, ·)) = [] := by
  induction vs with
  | nil => rfl
  | cons v vs ih => simp [verdictsOn, onQueue?, h]

/-! The sampler stays off. -/

theorem Effect.keeps {lib : LibCalls} {a : Action} {x x' : ActionCtx} (h : Effect lib a x x') {p : Nat}
    {o : QueueObj} (hp : x.heap[p]? = some o) :
    ∃ o', x'.heap[p]? = some o' ∧ o'.nfq.queueNum = o.nfq.queueNum := by
  have hlt := (List.getElem?_eq_some_iff.mp hp).1
  have hset : ∀ (r : Nat) (v v' : QueueObj), x.heap[r]? = some v → v'.nfq.queueNum = v.nfq.queueNum →
      ∃ o', (x.heap.set r v')[p]? = some o' ∧ o'.nfq.queueNum = o.nfq.queueNum := by
    intro r v v' hv hnum
    by_cases hrp : r = p
    · subst hrp
      cases hp.symm.trans hv
      exact ⟨v', List.getElem?_set_self hlt, hnum⟩
    · exact ⟨o, by simpa [List.getElem?_set_ne hrp] using hp, rfl⟩
  cases h with
  | none ha => exact ⟨o, hp, rfl⟩
  | write q r v w ha hinit hkept hr hv => exact hset r v _ hv (Action.onNfq_queueNum a v.nfq)
  | opened q tab ha htab => exact ⟨o, by simpa [List.getElem?_append_left hlt] using hp, rfl⟩
  | closed q r v tab ha hlib hr hv htab => exact hset r v _ hv rfl

theorem action_samplerOff {lib : LibCalls} {e e' : Emulator} {a : Action} {q : UInt16} (ht : Tagged e.action)
    (hoff : SamplerOff q e) (ha : a.queue? = some q → ¬ a.OfController) (h : runAction lib e a = .ok e') :
    SamplerOff q e' := by
  have heff := runAction_effect ht.same h
  intro p hp
  by_cases hinit : ∃ r args, a = .initTcpSched r args
  · -- the sampler is linked to the worker of the queue named
    obtain ⟨r, args, rfl⟩ := hinit
    have hr : r ≠ q := fun hrq => ha (by rw [hrq]; rfl) trivial
    rw [runAction_body lib e rfl, onWorker_ok ht.same] at h
    obtain ⟨s, o, w, t, hs, ho, hf, rfl⟩ := h
    have hlink : t.wkctx = some s := (initTcpSched_link s).value _ hf
    have hps : s = p := Option.some.inj (hlink.symm.trans hp)
    subst hps
    obtain ⟨v, hv, htag⟩ := ht.tag r s hs
    cases ho.symm.trans hv
    obtain ⟨o', ho', hnum⟩ := heff.keeps ho
    exact ⟨o', ho', by rw [hnum, htag]; exact hr⟩
  · have hlink : e'.tcp.wkctx = e.tcp.wkctx := by
      refine (action_returns (Q := fun t => t.wkctx = e.tcp.wkctx) rfl ?_).value e' h
      intro r f hb pos w
      exact Returns.mono (body_link hb (fun r args h => hinit ⟨r, args, h⟩) pos) fun _ hr => hr.2
    obtain ⟨o, ho, hne⟩ := hoff p (hlink ▸ hp)
    obtain ⟨o', ho', hnum⟩ := heff.keeps ho
    exact ⟨o', ho', by rw [hnum]; exact hne⟩

theorem Solo.setWorker {q : UInt16} {e : Emulator} {v : Option QueueObj} (h : Solo q e v) {p : Nat} {o : QueueObj}
    (hp : e.action.heap[p]? = some o) (w : WorkerCtx) (hq : o.nfq.queueNum ≠ q) :
    Solo q { e with action.heap := e.action.heap.set p { o with worker := w } } v where
  tagged := h.tagged.set hp rfl
  off := by
    intro r hr
    obtain ⟨x, hx, hne⟩ := h.off r hr
    by_cases hrp : p = r
    · subst hrp
      exact ⟨_, List.getElem?_set_self (List.getElem?_eq_some_iff.mp hp).1, hq⟩
    · exact ⟨x, by simpa [List.getElem?_set_ne hrp] using hx, hne⟩
  seen := (view_set_other h.tagged hp hq).trans h.seen

/-! One step of the emulator. -/

section Step
variable {csum : List UInt8 → UInt16} {q : UInt16} {e e' : Emulator} {v : Option QueueObj}
  {o : List (UInt16 × Verdict)}

theorem solo_unseen {i : NetInput} (h : Solo q e v) (hi : i.Plain q) (hv : i.on q = false)
    (hs : netStep csum e i = .ok (e', o)) : Solo q e' v ∧ verdictsOn q o = [] := by
  cases i with
  | action lib a =>
    simp only [netStep, C.bind_ok, C.pure_eq_ok, Except.ok.injEq, Prod.mk.injEq] at hs
    obtain ⟨e₁, he, rfl, rfl⟩ := hs
    have hne : a.queue? ≠ some q := by simpa [NetInput.on] using hv
    have heff := runAction_effect h.tagged.same he
    exact ⟨⟨heff.tagged h.tagged, action_samplerOff h.tagged h.off hi he,
      (heff.view_other h.tagged hne).trans h.seen⟩, rfl⟩
  | tick =>
    simp only [netStep, C.bind_ok, C.pure_eq_ok, Except.ok.injEq, Prod.mk.injEq] at hs
    obtain ⟨x, hx, rfl, rfl⟩ := hs
    obtain ⟨p, ob, w, hlink, hp, -, rfl⟩ := tick_ok.mp hx
    obtain ⟨ob', hp', hne⟩ := h.off p hlink
    cases hp.symm.trans hp'
    exact ⟨h.setWorker hp w hne, rfl⟩
  | packet r nfa =>
    have hne : r ≠ q := by simpa [NetInput.on] using hv
    simp only [netStep] at hs
    rcases hr : entry e.action.queues r with _ | p
    · rw [hr] at hs
      cases hs
      exact ⟨h, rfl⟩
    · obtain ⟨ob, hp, htag⟩ := h.tagged.tag r p hr
      simp only [hr, emuStep, hp, C.bind_ok, C.pure_eq_ok, Except.ok.injEq, Prod.exists, Prod.mk.injEq] at hs
      obtain ⟨e₁, vs, ⟨w, us, -, rfl, rfl⟩, rfl, rfl⟩ := hs
      rw [List.map_map]
      exact ⟨h.setWorker hp w (by rw [htag]; exact hne), verdictsOn_other hne us⟩

theorem solo_action {lib : LibCalls} {a : Action} (h : Solo q e v) (ha : ¬ a.OfController)
    (hq : a.queue? = some q) (hs : runAction lib e a = .ok e') :
    ∃ v', soloStep csum v (.action lib a) = .ok (v', []) ∧ view e'.action q = v' := by
  have hseen := h.seen
  rcases hb : a.body? with _ | ⟨r, f⟩
  · cases a with
    | command c => cases hq
    | initNfqueue r =>
      cases hq
      obtain ⟨hlib, tab, htab, rfl⟩ := (actionInit_ok h.tagged.same).mp hs
      refine ⟨some (freshObj lib q), by simp [soloStep, hlib], ?_⟩
      simp [view, entry_writeAt htab]
    | startNfqueue r =>
      cases hq
      obtain ⟨p, ob, hp, ho, rfl⟩ := onQueue_ok.mp hs
      rw [view_eq hp ho] at hseen
      subst hseen
      exact ⟨_, rfl, view_set_own hp ho⟩
    | stopNfqueue r =>
      cases hq
      obtain ⟨p, ob, hp, ho, rfl⟩ := onQueue_ok.mp hs
      rw [view_eq hp ho] at hseen
      subst hseen
      exact ⟨_, rfl, view_set_own hp ho⟩
    | teardownNfqueue r =>
      cases hq
      obtain ⟨p, ob, hp, ho, tab, htab, rfl⟩ := (actionTeardown_ok h.tagged.same).mp hs
      rw [view_eq hp ho] at hseen
      subst hseen
      refine ⟨_, rfl, ?_⟩
      rcases hlib : lib.nfqTeardown with _ | _
      · simp only [hlib, Bool.false_eq_true, if_false, Except.ok.injEq] at htab
        subst htab
        exact view_set_own hp ho
      · simp only [hlib, if_true] at htab
        simp [view, entry_writeAt htab]
    | _ => cases hb
  · obtain rfl : r = q := Option.some.inj ((Action.queue_of_body hb).symm.trans hq)
    rw [runAction_body lib e hb, onWorker_ok h.tagged.same] at hs
    obtain ⟨p, ob, w, t, hp, ho, hf, rfl⟩ := hs
    rw [view_eq hp ho] at hseen
    subst hseen
    obtain ⟨g, hw⟩ := Action.onWorker_of_body hb ha
    obtain ⟨r', -, hb'⟩ := Action.body_of_onWorker hw
    cases hb.symm.trans hb'
    cases hf
    refine ⟨some { ob with worker := g ob.worker }, ?_, view_set_own hp ho⟩
    cases a <;> cases hw <;> rfl

theorem solo_seen {i : NetInput} (h : Solo q e v) (hi : i.Plain q) (hv : i.on q = true)
    (hs : netStep csum e i = .ok (e', o)) :
    ∃ v', soloStep csum v i = .ok (v', verdictsOn q o) ∧ Solo q e' v' := by
  cases i with
  | action lib a =>
    simp only [netStep, C.bind_ok, C.pure_eq_ok, Except.ok.injEq, Prod.mk.injEq] at hs
    obtain ⟨e₁, he, rfl, rfl⟩ := hs
    have hq : a.queue? = some q := by simpa [NetInput.on] using hv
    obtain ⟨v', hv', hseen⟩ : ∃ v', soloStep csum v (.action lib a) = .ok (v', []) ∧ view e₁.action q = v' :=
      solo_action h (hi hq) hq he
    exact ⟨v', hv', (runAction_effect h.tagged.same he).tagged h.tagged,
      action_samplerOff h.tagged h.off hi he, hseen⟩
  | tick => cases hv
  | packet r nfa =>
    obtain rfl : r = q := by simpa [NetInput.on] using hv
    simp only [netStep] at hs
    have hseen := h.seen
    rcases hr : entry e.action.queues r with _ | p
    · rw [hr] at hs
      cases hs
      have hnone : v = none := by rw [← hseen, view, hr]; rfl
      subst hnone
      exact ⟨none, rfl, h⟩
    · obtain ⟨ob, hp, htag⟩ := h.tagged.tag r p hr
      simp only [hr, emuStep, hp, C.bind_ok, C.pure_eq_ok, Except.ok.injEq, Prod.exists, Prod.mk.injEq] at hs
      obtain ⟨e₁, vs, ⟨w, us, hcb, rfl, rfl⟩, rfl, rfl⟩ := hs
      rw [view_eq hr hp] at hseen
      subst hseen
      refine ⟨some { ob with worker := w }, ?_, h.tagged.set hp rfl, ?_, view_set_own hr hp⟩
      · rw [List.map_map]
        have hown : verdictsOn r (us.map ((fun x => (r, x.2)) ∘ (p, ·))) = us := verdictsOn_own r us
        simp only [soloStep, hcb, C.ok_bind, C.pure_eq_ok, hown]
      · intro s hs
        obtain ⟨x, hx, hne⟩ := h.off s hs
        by_cases hps : p = s
        · subst hps
          cases hp.symm.trans hx
          exact absurd htag hne
        · exact ⟨x, by simpa [List.getElem?_set_ne hps] using hx, hne⟩

end Step

/-! Runs. -/

/-- **Seen from one queue**, a run of the emulator is a run of that queue on the inputs addressed to it. -/
theorem run_solo (csum : List UInt8 → UInt16) (q : UInt16) (mem : TcpCtx) {is : List NetInput} {e : Emulator}
    {o : List (UInt16 × Verdict)} (hi : ∀ i ∈ is, i.Plain q)
    (hr : run (netStep csum) (mainStart mem) is = .ok (e, o)) :
    run (soloStep csum) none (is.filter (·.on q)) = .ok (view e.action q, verdictsOn q o) := by
  have hstart : Solo q (mainStart mem) none := by
    refine ⟨actionInitCtx_tagged, ?_, ?_⟩
    · intro p hp
      cases hp
    · rcases hv : view (mainStart mem).action q with _ | ob
      · rfl
      · obtain ⟨p, hp, ho⟩ := Option.bind_eq_some_iff.mp hv
        cases ho
  obtain ⟨v, hrun, hsolo⟩ := @run_project _ _ _ _ _ _ (netStep csum) (soloStep csum) (Solo q) (·.Plain q) (·.on q)
    (onQueue? q) (fun _ _ _ _ _ h hf hv hs => solo_seen h hf hv hs)
    (fun _ _ _ _ _ h hf hv hs => solo_unseen h hf hv hs) is (mainStart mem) none e o hi hstart hr
  rw [hsolo.seen]
  exact hrun

/-- **Queues are isolated.** Two runs with the same inputs on a queue that no `SOL_INIT_SCHED` and no
    `SOL_HO` event names give the same verdicts on it and leave it with the same status, whatever else
    they do. -/
theorem queues_isolated (csum : List UInt8 → UInt16) (q : UInt16) {mem mem' : TcpCtx} {is js : List NetInput}
    {e e' : Emulator} {o o' : List (UInt16 × Verdict)} (hi : ∀ i ∈ is, i.Plain q) (hj : ∀ j ∈ js, j.Plain q)
    (same : is.filter (·.on q) = js.filter (·.on q))
    (hr : run (netStep csum) (mainStart mem) is = .ok (e, o))
    (hr' : run (netStep csum) (mainStart mem') js = .ok (e', o')) :
    verdictsOn q o = verdictsOn q o' ∧ statusOf e.action q = statusOf e'.action q := by
  have h := run_solo csum q mem hi hr
  have h' := run_solo csum q mem' hj hr'
  rw [same, h', Except.ok.injEq, Prod.mk.injEq] at h
  exact ⟨h.2.symm, by rw [statusOf, statusOf, h.1]⟩

/-! Queue 0 on its own, and beside a queue with the controller on it. -/

/-- Open, mark, one packet. -/
def aloneInputs : List NetInput :=
  [.action quietLib (.initNfqueue 0), .action quietLib (.startNfqueue 0), .action quietLib (.setMark 0 1),
   .packet 0 ⟨1, some (ackSegment 5 100)⟩]

/-- The same with the other queue's actions, its packet and a tick in between. -/
def busyInputs : List NetInput :=
  [.action quietLib (.initNfqueue 1), .action quietLib (.initNfqueue 0), .action quietLib (.initTcpSched 1 schedArgs),
   .action quietLib (.startNfqueue 0), .packet 1 ⟨7, some (ackSegment 9 50)⟩, .tick, .action quietLib (.setMark 0 1),
   .packet 0 ⟨1, some (ackSegment 5 100)⟩]

theorem queues_isolated_busy :
    ∃ e e' o o', run (netStep zeroCsum) (mainStart zeroTcp) aloneInputs = .ok (e, o) ∧
      run (netStep zeroCsum) (mainStart zeroTcp) busyInputs = .ok (e', o') ∧
      verdictsOn 0 o = verdictsOn 0 o' ∧ statusOf e.action 0 = statusOf e'.action 0 := by
  have halone : ∀ i ∈ aloneInputs, i.Plain 0 := by
    intro i hi
    simp only [aloneInputs, List.mem_cons, List.not_mem_nil, or_false] at hi
    obtain rfl | rfl | rfl | rfl := hi
    all_goals first | exact trivial | exact fun _ => id
  have hbusy : ∀ i ∈ busyInputs, i.Plain 0 := by
    intro i hi
    simp only [busyInputs, List.mem_cons, List.not_mem_nil, or_false] at hi
    obtain rfl | rfl | rfl | rfl | rfl | rfl | rfl | rfl := hi
    case inr.inr.inl => exact fun h => absurd h (by decide)
    all_goals first | exact trivial | exact fun _ => id
  have same : aloneInputs.filter (·.on 0) = busyInputs.filter (·.on 0) := rfl
  refine ⟨_, _, _, _, rfl, rfl, ?_⟩
  exact queues_isolated zeroCsum 0 halone hbusy same
    (rfl : run (netStep zeroCsum) (mainStart zeroTcp) aloneInputs = .ok (_, _))
    (rfl : run (netStep zeroCsum) (mainStart zeroTcp) busyInputs = .ok (_, _))

end Handoff
