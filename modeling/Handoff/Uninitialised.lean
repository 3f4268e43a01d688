import Handoff.Written
import Handoff.SamplerPeriod

/- Two runs of the emulator in different memory.

   The memory `malloc` returns for the n-th worker is `malloc n`, and the `tcp_ctx` of `main` starts with what
   was on its stack. `Written` records along a run which of the fields that are never
   initialised the program has written, on the sampler and on each worker, and
   `Written.Covers` says of a step that it reads no others. A run whose steps all do that does
   the same in any memory (`verdicts_written`): it fails on the same inputs, and every packet gets the same
   verdicts, with the same bytes and the same return value of the callback. It
   is `last_ack` that breaks this. The first packet that the dedup stage compares, or the
   first tick after the first measured packet, reads what was in the memory (`first_ack_differs`). -/
namespace Handoff

open Machine

/-- What has been written: all of the sampler's configuration, and the fields of each worker in the heap. -/
structure Written where
  sampler : Bool
  workers : List Fields

def Written.start : Written := ⟨false, []⟩

/-- The worker an action allocates. -/
def Action.allocates : Action → List Fields
  | .initNfqueue _ => [⟨false, false, false⟩]
  | _ => []

/-- What has been written after an input. -/
def Written.after (g : Written) (e : Emulator) : EmuInput → Written
  | .action _ a =>
    match a.body? with
    | none => { g with workers := g.workers ++ a.allocates }
    | some (q, _) =>
      match deref e.action.workers e.action.heap q with
      | .error _ => g
      | .ok (p, _) => ⟨a.config g.sampler, g.workers.modify p a.writes⟩
  | .tick =>
    match e.tcp.wkctx with
    | none => g
    | some p => { g with workers := g.workers.modify p fun f => { f with received := true } }
  | .packet p nfa =>
    match e.action.heap[p]? with
    | none => g
    | some o => { g with workers := g.workers.modify p (·.packet o.worker nfa) }

/-- The input reads what has been written. -/
def Written.Covers (g : Written) (e : Emulator) : EmuInput → Prop
  | .action _ a => ∀ q b p o f, a.body? = some (q, b) → deref e.action.workers e.action.heap q = .ok (p, o) →
      g.workers[p]? = some f → a.ReadsWritten g.sampler f
  | .tick => ∀ p o f, e.tcp.wkctx = some p → e.action.heap[p]? = some o → g.workers[p]? = some f →
      Estimates o.worker → f.received = true
  | .packet p nfa => ∀ o f bs, e.action.heap[p]? = some o → g.workers[p]? = some f → nfa.payload = some bs →
      Compares o.worker bs → f.ack = true

/-! Heaps and emulators that agree on what has been written. -/

inductive HeapSame : List Fields → List QueueObj → List QueueObj → Prop
  | nil : HeapSame [] [] []
  | cons {f : Fields} {o o' : QueueObj} {fs : List Fields} {h h' : List QueueObj} (ho : ObjAlike (Same f) o o')
      (hh : HeapSame fs h h') : HeapSame (f :: fs) (o :: h) (o' :: h')

section Heap
variable {fs gs : List Fields} {h h' k k' : List QueueObj}

theorem HeapSame.length (H : HeapSame fs h h') : h.length = h'.length := by
  induction H with
  | nil => rfl
  | cons ho hh ih => rw [List.length_cons, List.length_cons, ih]

theorem HeapSame.get (H : HeapSame fs h h') (p : Nat) :
    (h[p]? = none ∧ h'[p]? = none) ∨
      ∃ f o o', fs[p]? = some f ∧ h[p]? = some o ∧ h'[p]? = some o' ∧ ObjAlike (Same f) o o' := by
  induction H generalizing p with
  | nil => exact .inl ⟨rfl, rfl⟩
  | cons ho hh ih =>
    cases p with
    | zero => exact .inr ⟨_, _, _, rfl, rfl, rfl, ho⟩
    | succ p => exact ih p

theorem HeapSame.set (H : HeapSame fs h h') {p : Nat} {f : Fields} (hf : fs[p]? = some f) {w : Fields → Fields}
    {o o' : QueueObj} (ho : ObjAlike (Same (w f)) o o') : HeapSame (fs.modify p w) (h.set p o) (h'.set p o') := by
  induction H generalizing p with
  | nil => cases hf
  | cons hd tl ih =>
    cases p with
    | zero =>
      cases hf
      exact .cons ho tl
    | succ p => exact .cons hd (ih hf)

theorem HeapSame.put (H : HeapSame fs h h') {p : Nat} {f : Fields} (hf : fs[p]? = some f) {o o' : QueueObj}
    (ho : ObjAlike (Same f) o o') : HeapSame fs (h.set p o) (h'.set p o') := by
  have hset := H.set (w := id) hf ho
  rwa [List.modify_id] at hset

theorem HeapSame.append (H : HeapSame fs h h') (K : HeapSame gs k k') :
    HeapSame (fs ++ gs) (h ++ k) (h' ++ k') := by
  induction H with
  | nil => exact K
  | cons ho hh ih => exact .cons ho ih

theorem deref_same (H : HeapSame fs h h') {tab : Vector (Option Nat) actionMaxNfqueue} {q : UInt16} {α β : Type}
    {R : α → β → Prop} {k : Nat × QueueObj → C α} {k' : Nat × QueueObj → C β}
    (hk : ∀ p f o o', fs[p]? = some f → deref tab h q = .ok (p, o) → ObjAlike (Same f) o o' →
      Agree R (k (p, o)) (k' (p, o'))) :
    Agree R (deref tab h q >>= k) (deref tab h' q >>= k') := by
  rcases ht : readAt tab q.toNat with e | entry
  · simp only [deref, ht]
    trivial
  · rcases entry with _ | p
    · simp only [deref, ht, C.ok_bind]
      trivial
    · obtain ⟨h₁, h₂⟩ | ⟨f, o, o', hf, h₁, h₂, ho⟩ := H.get p
      · simp only [deref, ht, C.ok_bind, h₁, h₂]
        trivial
      · have hd : deref tab h q = .ok (p, o) := by simp only [deref, ht, C.ok_bind, h₁]
        have hd' : deref tab h' q = .ok (p, o') := by simp only [deref, ht, C.ok_bind, h₂]
        rw [hd, hd']
        exact hk p f o o' hf hd ho

end Heap

/-- The window of the worker at `p` has been written. -/
def Written.Windowed (g : Written) (p : Nat) : Prop := ∃ f, g.workers[p]? = some f ∧ f.window = true

structure SameEmu (g : Written) (e e' : Emulator) : Prop where
  tcp : SameSampler g.sampler e.tcp e'.tcp
  queues : e.action.queues = e'.action.queues
  workers : e.action.workers = e'.action.workers
  heap : HeapSame g.workers e.action.heap e'.action.heap
  linked : ∀ p, e.tcp.wkctx = some p → g.sampler = true ∧ g.Windowed p

theorem same_start (mem mem' : TcpCtx) : SameEmu .start (mainStart mem) (mainStart mem') where
  tcp := ⟨rfl, rfl, nofun⟩
  queues := rfl
  workers := rfl
  heap := .nil
  linked := nofun

section Records
variable {g : Written} {p s : Nat} {w : Fields → Fields} {sampler : Bool}

theorem Written.Windowed.modify (h : g.Windowed s) (hw : ∀ f, f.window = true → (w f).window = true) :
    Written.Windowed ⟨sampler, g.workers.modify p w⟩ s := by
  obtain ⟨f, hf, hwin⟩ := h
  by_cases hps : p = s
  · exact ⟨w f, by simp [hps, hf], hw f hwin⟩
  · exact ⟨f, by simp [hps, hf], hwin⟩

theorem Action.writes_window (a : Action) (f : Fields) (h : f.window = true) : (a.writes f).window = true := by
  cases a with
  | setBurst q enable =>
    simp only [Action.writes]
    split
    · rfl
    · exact h
  | setAdapt q enable =>
    simp only [Action.writes]
    split
    · rfl
    · exact h
  | solUpdate q mark => rfl
  | setRwnd q rwnd => rfl
  | initTcpSched q args => rfl
  | _ => exact h

theorem Fields.packet_window (f : Fields) (w : WorkerCtx) (nfa : NfqData) : (f.packet w nfa).window = f.window := by
  unfold Fields.packet
  split
  · rfl
  · split <;> rfl

theorem linked_body {a : Action} {q : UInt16} {b : Body} (hb : a.body? = some (q, b)) {w : WorkerCtx}
    {t : TcpCtx} {x : WorkerCtx × TcpCtx} (hx : b p w t = .ok x) {f : Fields} (hf : g.workers[p]? = some f)
    (hl : ∀ s, t.wkctx = some s → g.sampler = true ∧ g.Windowed s) :
    ∀ s, x.2.wkctx = some s → a.config g.sampler = true ∧
      Written.Windowed ⟨a.config g.sampler, g.workers.modify p a.writes⟩ s := by
  intro s hs
  by_cases hinit : ∃ r args, a = .initTcpSched r args
  · obtain ⟨r, args, rfl⟩ := hinit
    cases hb
    have hlink : x.2.wkctx = some p := (initTcpSched_link p).value x hx
    cases hlink.symm.trans hs
    exact ⟨rfl, (Action.initTcpSched q args).writes f, by simp [hf], rfl⟩
  · have hkept : x.2.wkctx = t.wkctx := by
      refine ((body_link hb ?_ p).value x hx).2
      intro r args ha
      exact hinit ⟨r, args, ha⟩
    obtain ⟨hsampler, hwin⟩ := hl s (hkept ▸ hs)
    have hconfig : a.config g.sampler = true := by
      cases a with
      | initTcpSched r args => rfl
      | _ => exact hsampler
    exact ⟨hconfig, hwin.modify a.writes_window⟩

end Records

/-! One step. -/

section Steps
variable {g : Written} {e e' : Emulator}

theorem onQueue_same (h : SameEmu g e e') (q : UInt16) (k : NfqCtx → NfqCtx) :
    Agree (SameEmu g) (onQueue e q k) (onQueue e' q k) := by
  unfold onQueue
  rw [h.queues]
  apply deref_same h.heap
  intro p f o o' hf _ ho
  exact ⟨h.tcp, h.queues, h.workers, h.heap.put hf ⟨by rw [ho.nfq], ho.worker, ho.destroyed⟩, h.linked⟩

theorem queueAction_same (h : SameEmu g e e') (lib : LibCalls) (mem mem' : WorkerCtx) {a : Action}
    (ha : a.body? = none) :
    Agree (SameEmu { g with workers := g.workers ++ a.allocates }) (runAction { lib with mem } e a)
      (runAction { lib with mem := mem' } e' a) := by
  have hnone : a.allocates = [] → { g with workers := g.workers ++ a.allocates } = g := by
    intro hb
    rw [hb, List.append_nil]
  cases a with
  | command c =>
    rw [hnone rfl]
    exact h
  | initNfqueue q =>
    simp only [runAction, actionInitNfqueue]
    split
    · rw [h.queues, h.workers, h.heap.length]
      apply Agree.bind_same
      intro queues
      apply Agree.bind_same
      intro workers
      refine ⟨h.tcp, rfl, rfl, h.heap.append (.cons ⟨rfl, same_init mem mem', rfl⟩ .nil), ?_⟩
      intro p hp
      obtain ⟨hs, f, hf, hwin⟩ := h.linked p hp
      exact ⟨hs, f, List.getElem?_append_left (List.getElem?_eq_some_iff.mp hf).1 ▸ hf, hwin⟩
    · trivial
  | startNfqueue q =>
    rw [hnone rfl]
    exact onQueue_same h q nfqStart
  | stopNfqueue q =>
    rw [hnone rfl]
    exact onQueue_same h q nfqStop
  | teardownNfqueue q =>
    rw [hnone rfl]
    simp only [runAction, actionTeardownNfqueue]
    rw [h.queues]
    apply deref_same h.heap
    intro p f o o' hf _ ho
    have hset : HeapSame g.workers (e.action.heap.set p { o with nfq := (nfqTeardown o.nfq lib.nfqTeardown).1 })
        (e'.action.heap.set p { o' with nfq := (nfqTeardown o'.nfq lib.nfqTeardown).1 }) :=
      h.heap.put hf ⟨by rw [ho.nfq], ho.worker, ho.destroyed⟩
    have hret : (nfqTeardown o.nfq lib.nfqTeardown).2 = (nfqTeardown o'.nfq lib.nfqTeardown).2 := rfl
    simp only [hret]
    split
    · exact ⟨h.tcp, rfl, h.workers, hset, h.linked⟩
    · rw [h.workers]
      apply deref_same hset
      intro w k v v' hk _ hv
      apply Agree.bind_same
      intro queues
      apply Agree.bind_same
      intro workers
      exact ⟨h.tcp, rfl, rfl, hset.put hk ⟨hv.nfq, hv.worker, rfl⟩, h.linked⟩
  | _ => cases ha

theorem bodyAction_same (h : SameEmu g e e') (lib lib' : LibCalls) {a : Action} {q : UInt16} {b : Body}
    (hb : a.body? = some (q, b)) (hr : g.Covers e (.action lib a)) :
    Agree (SameEmu (g.after e (.action lib a))) (runAction lib e a) (runAction lib' e' a) := by
  rw [runAction_body lib e hb, runAction_body lib' e' hb]
  unfold onWorker
  rw [← h.workers]
  apply deref_same h.heap
  intro p f o o' hf hd ho
  simp only [Written.after, hb, hd]
  have hbody := body_same hb ho.worker h.tcp (hr q b p o f hb hd hf) p
  rcases hx : b p o.worker e.tcp with err | x <;> rcases hx' : b p o'.worker e'.tcp with err' | x' <;> rw [hx, hx'] at hbody
  · trivial
  · exact hbody.elim
  · exact hbody.elim
  · have hset : HeapSame (g.workers.modify p a.writes) (e.action.heap.set p { o with worker := x.1 })
        (e'.action.heap.set p { o' with worker := x'.1 }) := h.heap.set hf ⟨ho.nfq, hbody.1, ho.destroyed⟩
    exact ⟨hbody.2, h.queues, rfl, hset, linked_body hb hx hf h.linked⟩

theorem tick_same (h : SameEmu g e e') (hr : g.Covers e .tick) :
    Agree (fun x x' => SameEmu (g.after e .tick) { e with action := x } { e' with action := x' })
      (tick e.tcp e.action) (tick e'.tcp e'.action) := by
  have hlinked := h.linked
  unfold tick
  rw [← h.tcp.wkctx]
  rcases hwk : e.tcp.wkctx with _ | p
  · trivial
  · obtain ⟨hs, f, hf, hwin⟩ := hlinked p hwk
    obtain ⟨h₁, h₂⟩ | ⟨f', o, o', hf', h₁, h₂, ho⟩ := h.heap.get p
    · simp only [h₁, h₂]
      trivial
    · cases hf.symm.trans hf'
      simp only [h₁, h₂]
      apply Agree.bind (tcpSchedule_same ho.worker h.tcp hs hwin (hr p o f hwk h₁ hf))
      intro w w' hw
      have hafter : g.after e .tick = { g with workers := g.workers.modify p fun f => { f with received := true } } := by
        simp only [Written.after, hwk]
      rw [hafter]
      refine ⟨h.tcp, h.queues, h.workers, h.heap.set hf ⟨ho.nfq, hw, ho.destroyed⟩, ?_⟩
      intro s hs'
      exact ⟨(hlinked s hs').1, (hlinked s hs').2.modify fun _ hwin => hwin⟩

theorem packet_same (csum : List UInt8 → UInt16) (h : SameEmu g e e') {p : Nat} {nfa : NfqData}
    (hr : g.Covers e (.packet p nfa)) :
    Agree (fun a b => SameEmu (g.after e (.packet p nfa)) a.1 b.1 ∧ a.2 = b.2) (emuStep csum e (.packet p nfa))
      (emuStep csum e' (.packet p nfa)) := by
  simp only [emuStep, Written.after]
  obtain ⟨h₁, h₂⟩ | ⟨f, o, o', hf, h₁, h₂, ho⟩ := h.heap.get p
  · simp only [h₁, h₂]
    exact ⟨h, rfl⟩
  · simp only [h₁, h₂]
    apply Agree.bind (callback_same csum ho.worker nfa fun bs => hr o f bs h₁ hf)
    rintro ⟨w, vs⟩ ⟨w', vs'⟩ ⟨(hw : Same (f.packet o.worker nfa) w w'), (hvs : vs = vs')⟩
    refine ⟨⟨h.tcp, h.queues, h.workers, h.heap.set hf ⟨ho.nfq, hw, ho.destroyed⟩, ?_⟩, by rw [hvs]⟩
    intro s hs
    obtain ⟨hsampler, hwin⟩ := h.linked s hs
    exact ⟨hsampler, hwin.modify fun k hk => (k.packet_window o.worker nfa).trans hk⟩

end Steps

/-! Runs. -/

/-- The input with the memory `malloc` returns for a worker. -/
def EmuInput.withMem (mem : WorkerCtx) : EmuInput → EmuInput
  | .action lib a => .action { lib with mem } a
  | i => i

/-- What a packet gets: the verdict calls of the callback, and the call whose value it returns. -/
structure Reply where
  verdicts : List (Nat × Verdict)
  ret : Option Verdict
  deriving DecidableEq

def EmuInput.replies (vs : List (Nat × Verdict)) : EmuInput → List Reply
  | .packet _ _ => [⟨vs, callbackRet (vs.map Prod.snd)⟩]
  | _ => []

/-- The emulator with the memory of its workers, the n-th of them in `malloc n`. -/
def memStep (csum : List UInt8 → UInt16) (malloc : Nat → WorkerCtx) (e : Emulator) (i : EmuInput) :
    C (Emulator × List Reply) := do
  let (e₁, vs) ← emuStep csum e (i.withMem (malloc e.action.heap.length))
  return (e₁, i.replies vs)

section Runs
variable {csum : List UInt8 → UInt16} {malloc malloc' : Nat → WorkerCtx}

/-- **One step in two memories**, when it reads what has been written. -/
theorem step_same {g : Written} {e e' : Emulator} (h : SameEmu g e e') {i : EmuInput} (hr : g.Covers e i) :
    Agree (fun a b => SameEmu (g.after e i) a.1 b.1 ∧ a.2 = b.2) (memStep csum malloc e i)
      (memStep csum malloc' e' i) := by
  unfold memStep
  cases i with
  | action lib a =>
    simp only [EmuInput.withMem, emuStep, bind_assoc, C.pure_eq_ok, C.ok_bind]
    rcases hb : a.body? with _ | ⟨q, b⟩
    · have hafter : g.after e (.action lib a) = { g with workers := g.workers ++ a.allocates } := by
        simp only [Written.after, hb]
      rw [hafter]
      exact Agree.bind (queueAction_same h lib _ _ hb) fun x y hxy => ⟨hxy, rfl⟩
    · exact Agree.bind (bodyAction_same h _ _ hb hr) fun x y hxy => ⟨hxy, rfl⟩
  | tick =>
    simp only [EmuInput.withMem, emuStep, bind_assoc, C.pure_eq_ok, C.ok_bind]
    exact Agree.bind (tick_same h hr) fun x y hxy => ⟨hxy, rfl⟩
  | packet p nfa =>
    apply Agree.bind (packet_same csum h hr)
    rintro ⟨e₁, vs⟩ ⟨e₁', vs'⟩ ⟨hsame, (hvs : vs = vs')⟩
    exact ⟨hsame, by rw [hvs]⟩

/-- **Uninitialised memory shows in no verdict** of a run in which every input reads what the program has
    written: in any two memories the run fails on the same inputs, and gives every packet the same
    verdicts, with the same bytes, and the same return value of the callback. -/
theorem verdicts_written {mem mem' : TcpCtx} {is : List EmuInput}
    (h : EveryTry (ghost (memStep csum malloc) Written.after) (mainStart mem, .start) is
      (fun s i => s.2.Covers s.1 i)) (pre : List EmuInput) (hp : pre <+: is) :
    Agree (fun a b => a.2 = b.2) (run (memStep csum malloc) (mainStart mem) pre)
      (run (memStep csum malloc') (mainStart mem') pre) := by
  have hstep : ∀ (s : Emulator × Written) e i, SameEmu s.2 s.1 e → s.2.Covers s.1 i →
      Agree (fun a b => SameEmu a.1.2 a.1.1 b.1 ∧ a.2 = b.2) (ghost (memStep csum malloc) Written.after s i)
        (memStep csum malloc' e i) :=
    fun s e i hse hc => agree_ghost (R := fun s e => SameEmu s.2 s.1 e) (step_same hse hc)
  have hsame := run_agree (R := fun s e => SameEmu s.2 s.1 e) hstep pre _ (mainStart mem') (same_start mem mem')
    (h.shorten hp)
  have hplain : Agree (fun a b => a.1.1 = b.1 ∧ a.2 = b.2)
      (run (ghost (memStep csum malloc) Written.after) (mainStart mem, Written.start) pre)
      (run (memStep csum malloc) (mainStart mem) pre) := run_ghost pre (mainStart mem, Written.start)
  exact hplain.via hsame fun _ _ _ hab hac => hab.2.symm.trans hac.2

end Runs

/-! A packet the window stage measures, and its repetition, which the dedup stage drops. -/

def repeatedAck : List EmuInput :=
  [.action quietLib (.initNfqueue 0), .action quietLib (.initTcpSched 0 schedArgs),
   .packet 0 ⟨1, some (ackSegment 5 4000)⟩, .action quietLib (.setDedup 0 1),
   .packet 0 ⟨2, some (ackSegment 5 4000)⟩]

theorem verdicts_written_repeated :
    EveryTry (ghost (memStep zeroCsum fun _ => zeroWorker) Written.after) (mainStart zeroTcp, .start) repeatedAck
      (fun s i => s.2.Covers s.1 i) ∧
    Agree (fun a b => a.2 = b.2) (run (memStep zeroCsum fun _ => zeroWorker) (mainStart zeroTcp) repeatedAck)
      (run (memStep zeroCsum fun _ => { zeroWorker with lastAck := 5 }) (mainStart zeroTcp) repeatedAck) := by
  have hcovers : EveryTry (ghost (memStep zeroCsum fun _ => zeroWorker) Written.after) (mainStart zeroTcp, .start)
      repeatedAck (fun s i => s.2.Covers s.1 i) := by
    refine .cons ?init rfl (.cons ?sched rfl (.cons ?first rfl (.cons ?dedup rfl (.cons ?again rfl .nil))))
    case init =>
      intro q b p o f hb
      cases hb
    case sched =>
      intro q b p o f hb hd hf
      exact Int.one_ne_zero
    case first =>
      intro o f bs ho hf hp hc
      cases ho
      exact absurd rfl hc.2.2.1
    case dedup =>
      intro q b p o f hb hd hf
      trivial
    case again =>
      intro o f bs ho hf hp hc
      cases hf
      rfl
  exact ⟨hcovers, verdicts_written hcovers repeatedAck (List.prefix_refl _)⟩

/-! The first acknowledgement, under `SOL_HANDLEDUP` alone. -/

def firstAck : List EmuInput :=
  [.action quietLib (.initNfqueue 0), .action quietLib (.startNfqueue 0), .action quietLib (.setDedup 0 1),
   .packet 0 ⟨1, some (ackSegment 5 100)⟩]

theorem first_ack_differs :
    ¬ Agree (fun a b => a.2 = b.2) (run (memStep zeroCsum fun _ => zeroWorker) (mainStart zeroTcp) firstAck)
      (run (memStep zeroCsum fun _ => { zeroWorker with lastAck := 5 }) (mainStart zeroTcp) firstAck) := by
  intro h
  have hreplies := h.ok_both rfl rfl
  revert hreplies
  decide

end Handoff
