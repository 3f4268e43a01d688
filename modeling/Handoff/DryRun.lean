import Handoff.EmulatorRun

/- The dry run: the same inputs with `enable_rw` 1 and with `enable_rw` 0.

   With the flag 0 the window stage returns before it reads the acknowledgement number, so
   neither `last_ack` nor `data_rcvd` follows the packets. The two runs agree exactly as
   long as every packet the window stage measures repeats the number it already has
   (`dry_run_iff`); the first one that does not tells the runs apart at once
   (`measures_breaks`). -/
namespace Handoff

open Machine

/-- The input with the `enable_rw` field of a `SOL_INIT_SCHED` action replaced. -/
def EmuInput.withEnable (x : Int) : EmuInput → EmuInput
  | .action lib (.initTcpSched q args) => .action lib (.initTcpSched q { args with enable := x })
  | i => i

/-- The emulator with every `enable_rw` set to `x`. -/
def dryStep (csum : List UInt8 → UInt16) (x : Int) (e : Emulator) (i : EmuInput) :
    C (Emulator × List (Nat × Verdict)) :=
  emuStep csum e (i.withEnable x)

/-- The state of `main` before the first event. -/
def mainStart (mem : TcpCtx) : Emulator := ⟨initTcpScheduler mem, actionInitCtx⟩

/-- What the controller has computed for a worker. -/
def estimate (w : WorkerCtx) : UInt16 × UInt64 × UInt32 := (w.tuneRwnd, w.dataRcvd, w.lastAck)

/-- What the controller has computed is the same: on every worker `tune_rwnd`, `data_rcvd` and
    `last_ack`, the remembered windows, and the current link. -/
structure SameController (e e' : Emulator) : Prop where
  workers : e.action.heap.map (fun o => estimate o.worker) = e'.action.heap.map (fun o => estimate o.worker)
  histRw : e.tcp.histParam.map LinkParameter.histRw = e'.tcp.histParam.map LinkParameter.histRw
  mark : e.tcp.mark = e'.tcp.mark

/-- A verdict without the bytes it emits. -/
def Verdict.kind : Verdict → Verdict
  | .drop id => .drop id
  | .accept id mark _ => .accept id mark none

/-- The window stage reads the acknowledgement number of the packet. -/
def Measures (w : WorkerCtx) (bs : List UInt8) : Prop :=
  ¬ Drops w ∧ w.doReorder = 0 ∧ w.doRwnd ≠ 0 ∧ Readable bs

/-- A packet the window stage measures repeats the last acknowledgement number. -/
def Unmoved (e : Emulator) : EmuInput → Prop
  | .packet p nfa => ∀ o bs, e.action.heap[p]? = some o → nfa.payload = some bs → Measures o.worker bs →
      Bytes.ack bs = o.worker.lastAck
  | _ => True

/-! The relation between the runs. -/

def DryTcp (t t' : TcpCtx) : Prop := ∃ x, t' = { t with enable := x }
def DryWorker (w w' : WorkerCtx) : Prop := w' = { w with doRwnd := 0 }

theorem dry_reflags : Reflags DryTcp DryWorker where
  worker := fun _ _ h => ⟨fun _ => 0, fun d => d, h, fun _ => rfl⟩
  tcp := fun _ _ ⟨x, h⟩ => ⟨fun _ => x, h, fun _ => ⟨x, rfl⟩⟩

theorem Alike.sameController {e e' : Emulator} (h : Alike DryTcp DryWorker e e') : SameController e e' := by
  obtain ⟨x, hx⟩ := h.tcp
  refine ⟨?_, by rw [hx], by rw [hx]⟩
  have hheap := h.heap
  generalize e.action.heap = heap, e'.action.heap = heap' at hheap
  induction hheap with
  | nil => rfl
  | cons ho _ ih =>
    have hw := ho.worker
    unfold DryWorker at hw
    rw [List.map_cons, List.map_cons, ih, hw]
    rfl

theorem initTcpSched_dry (args : InitTcpSchedArgs) :
    BodyAlike DryTcp DryWorker (initTcpSched { args with enable := 1 }) (initTcpSched { args with enable := 0 }) := by
  rintro pos w w' t t' rfl ⟨x, rfl⟩
  simp only [initTcpSched]
  apply Agree.bind_same
  intro p
  apply Agree.bind_same
  intro q
  exact ⟨rfl, 0, rfl⟩

theorem setDedup_dry (enable : Int) :
    BodyAlike DryTcp DryWorker (fun _ w t => .ok (workerSetDedup w enable, t))
      (fun _ w t => .ok (workerSetDedup w enable, t)) := by
  rintro pos w w' t t' rfl ht
  exact ⟨rfl, ht⟩

section Runs
variable (csum : List UInt8 → UInt16)

theorem finish_dry {w : WorkerCtx} (id : UInt32) {bs : List UInt8}
    (h : Readable bs → w.doRwnd ≠ 0 → Bytes.ack bs = w.lastAck) :
    DryWorker (finish csum w id bs).1 (finish csum { w with doRwnd := 0 } id bs).1 ∧
      (finish csum w id bs).2.map Verdict.kind = (finish csum { w with doRwnd := 0 } id bs).2.map Verdict.kind := by
  have hiff : Dedups { w with doRwnd := 0 } bs ↔ Dedups w bs := Iff.rfl
  have hoff : afterRwnd { w with doRwnd := 0 } bs = { w with doRwnd := 0 } :=
    afterRwnd_unmoved fun _ hne => absurd rfl hne
  simp only [finish, hiff]
  split
  · exact ⟨rfl, rfl⟩
  · rw [afterRwnd_unmoved h, hoff]
    exact ⟨rfl, rfl⟩

theorem dry_packet {e e' : Emulator} (h : Alike DryTcp DryWorker e e') {p : Nat} {nfa : NfqData}
    (hu : Unmoved e (.packet p nfa)) :
    Agree (fun a b => Alike DryTcp DryWorker a.1 b.1 ∧
        a.2.map (Prod.map id Verdict.kind) = b.2.map (Prod.map id Verdict.kind))
      (emuStep csum e (.packet p nfa)) (emuStep csum e' (.packet p nfa)) := by
  refine packet_alike h p nfa fun o o' ho _ hw => callback_alike dry_reflags csum Verdict.kind nfa hw ?_
  intro bs hp hdr h0
  unfold DryWorker at hw
  have hafter : afterDrop o'.worker = { afterDrop o.worker with doRwnd := 0 } := by
    rw [hw]
    exact afterDrop_flags (fun _ => 0) (fun d => d) o.worker
  rw [hafter]
  refine finish_dry csum nfa.packetId ?_
  intro hr hne
  rw [afterDrop_lastAck]
  exact hu o bs ho hp ⟨hdr, h0, by simpa using hne, hr⟩

theorem dry_step {e e' : Emulator} (h : Alike DryTcp DryWorker e e') {i : EmuInput} (hu : Unmoved e i) :
    Agree (fun a b => Alike DryTcp DryWorker a.1 b.1 ∧
        a.2.map (Prod.map id Verdict.kind) = b.2.map (Prod.map id Verdict.kind))
      (dryStep csum 1 e i) (dryStep csum 0 e' i) := by
  have body : ∀ {lib lib' q a a' f f'}, a.body? = some (q, f) → a'.body? = some (q, f') →
      BodyAlike DryTcp DryWorker f f' →
      Agree (fun a b => Alike DryTcp DryWorker a.1 b.1 ∧
          a.2.map (Prod.map id Verdict.kind) = b.2.map (Prod.map id Verdict.kind))
        (emuStep csum e (.action lib a)) (emuStep csum e' (.action lib' a')) := by
    intro lib lib' q a a' f f' ha ha' hf
    simp only [emuStep, runAction_body lib e ha, runAction_body lib' e' ha']
    exact Agree.bind (onWorker_alike h q hf) fun _ _ hab => ⟨hab, rfl⟩
  have neutral : ∀ {j : EmuInput}, j.Neutral → _ := fun hj =>
    emuStep_alike dry_reflags (fun _ => rfl) csum h hj (Prod.map id Verdict.kind)
  cases i with
  | packet p nfa => exact dry_packet csum h hu
  | tick => exact neutral trivial
  | action lib a =>
    cases a with
    | initTcpSched q args => exact body rfl rfl (initTcpSched_dry args)
    | setDedup q enable => exact body rfl rfl (setDedup_dry enable)
    | _ => exact neutral trivial

/-- A packet that moves the acknowledgement number moves it in one run only. -/
theorem measures_breaks {e e' : Emulator} (h : Alike DryTcp DryWorker e e') {i : EmuInput} (hu : ¬ Unmoved e i)
    {e₁ : Emulator} {o : List (Nat × Verdict)} (hs : dryStep csum 1 e i = .ok (e₁, o)) :
    ∃ e₂ o', dryStep csum 0 e' i = .ok (e₂, o') ∧ ¬ SameController e₁ e₂ := by
  cases i with
  | packet p nfa =>
    simp only [Unmoved, not_forall] at hu
    obtain ⟨ob, bs, hob, hp, ⟨hdr, h0, hne, hr⟩, hack⟩ := hu
    rcases heap_get h.heap p with ⟨h₁, -⟩ | ⟨o₁, o₂, h₁, h₂, ho⟩
    · rw [h₁] at hob
      cases hob
    rw [h₁] at hob
    cases hob
    have hw := ho.worker
    unfold DryWorker at hw
    have hd : DropDefined ob.worker := by
      simp only [dryStep, EmuInput.withEnable, emuStep, h₁, C.bind_ok] at hs
      obtain ⟨r, hr, -⟩ := hs
      exact (workerCallback_ok csum hr).2
    have hd₂ : DropDefined o₂.worker := by rw [hw]; exact hd
    -- both packets reach the last stages, the second one without a window stage
    have hcb := workerCallback_some csum hp hd
    rw [if_neg hdr, if_pos h0] at hcb
    have hcb₂ := workerCallback_some csum hp hd₂
    rw [if_neg (by rw [hw]; exact hdr), if_pos (by rw [hw]; exact h0)] at hcb₂
    have hack₁ : (finish csum (afterDrop ob.worker) nfa.packetId bs).1.lastAck = Bytes.ack bs := by
      rw [finish_fst, afterRwnd_lastAck, if_pos ⟨hr, by simpa using hne⟩]
    have hack₂ : (finish csum (afterDrop o₂.worker) nfa.packetId bs).1.lastAck = ob.worker.lastAck := by
      have hz : (afterDrop o₂.worker).doRwnd = 0 := by rw [hw]; simp
      have hl : (afterDrop o₂.worker).lastAck = ob.worker.lastAck := by rw [hw]; simp
      rw [finish_fst, afterRwnd_unmoved fun _ hne => absurd hz hne]
      exact hl
    simp only [dryStep, EmuInput.withEnable, emuStep, h₁, h₂, hcb, hcb₂, C.ok_bind] at hs ⊢
    cases hs
    refine ⟨_, _, rfl, fun hsame => hack ?_⟩
    have hp₁ : p < e.action.heap.length := (List.getElem?_eq_some_iff.mp h₁).1
    have hp₂ : p < e'.action.heap.length := (List.getElem?_eq_some_iff.mp h₂).1
    have hat := congrArg (fun l => l[p]?) hsame.workers
    simp only [List.getElem?_map, List.getElem?_set_self hp₁, List.getElem?_set_self hp₂, Option.map_some,
      Option.some.injEq, estimate, Prod.mk.injEq, hack₁, hack₂] at hat
    exact hat.2.2
  | _ => exact absurd trivial hu

/-- **The dry run computes the same, exactly when no measured packet moves the acknowledgement
    number**: the controller's state after every step is the same in both runs, and the verdicts are
    the same but for the bytes they emit. -/
theorem dry_run_iff (mem : TcpCtx) (is : List EmuInput) :
    (∀ pre e o e' o', pre <+: is → run (dryStep csum 1) (mainStart mem) pre = .ok (e, o) →
      run (dryStep csum 0) (mainStart mem) pre = .ok (e', o') →
      SameController e e' ∧ o.map (Prod.map id Verdict.kind) = o'.map (Prod.map id Verdict.kind)) ↔
    EveryStep (dryStep csum 1) (mainStart mem) is (fun _ e i => Unmoved e i) := by
  have init : Alike DryTcp DryWorker (mainStart mem) (mainStart mem) := ⟨⟨_, rfl⟩, rfl, rfl, .nil⟩
  exact lockstep_iff init (fun _ _ _ h hu => dry_step csum h hu)
    (fun _ _ _ _ _ h hu hs => measures_breaks csum h hu hs) (fun _ _ h => h.sameController)

end Runs

/-! One acknowledgement after `SOL_INIT_SCHED`. -/

def oneAck : List EmuInput :=
  [.action quietLib (.initNfqueue 0), .action quietLib (.initTcpSched 0 schedArgs),
   .packet 0 ⟨1, some (ackSegment 5 100)⟩]

theorem dry_run_differs :
    ¬ ∀ pre e o e' o', pre <+: oneAck → run (dryStep zeroCsum 1) (mainStart zeroTcp) pre = .ok (e, o) →
      run (dryStep zeroCsum 0) (mainStart zeroTcp) pre = .ok (e', o') →
      SameController e e' ∧ o.map (Prod.map id Verdict.kind) = o'.map (Prod.map id Verdict.kind) := by
  intro h
  have hw := (h oneAck _ _ _ _ (List.prefix_refl _) rfl rfl).1.workers
  revert hw
  decide

end Handoff
