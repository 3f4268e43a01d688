import Handoff.QueueTable
import Handoff.SamplerPeriod

/- The window controller as a machine of its own: the sampler and the worker it is linked to.

   What reaches the two is the actions addressed to that worker, the ticks and the worker's
   packets (`controlStep`). A run of the emulator that does nothing else is a run of this
   machine (`control_run`), so what is proved about it here and in the modules below holds
   of the emulator.

   The first such result is about the mode of the controller. `do_burst` and `do_adapt` are
   in the worker, the period and the current link in the sampler, and no operation sets
   both sides alone. They agree all the same: each action that sets a flag sets the period
   with it, and the one that changes the current link clears both flags (`mode_kept`). -/
namespace Handoff

open Machine

/-- What reaches the controller. -/
inductive ControlInput
  | action (a : Action)
  | tick
  | packet (nfa : NfqData)

/-- The linked worker and the sampler. -/
structure Controller where
  worker : WorkerCtx
  tcp : TcpCtx

section Step
variable (csum : List UInt8 → UInt16) (pos : Nat)

/-- One step of the controller whose worker is at position `pos`. -/
def controlStep (s : Controller) : ControlInput → C (Controller × List Verdict)
  | .action a =>
    match a.body? with
    | none => .ok (s, [])
    | some (_, f) => do
      let (w, t) ← f pos s.worker s.tcp
      return (⟨w, t⟩, [])
  | .tick => do
    let w ← tcpSchedule s.tcp s.worker
    return (⟨w, s.tcp⟩, [])
  | .packet nfa => do
    let (w, vs) ← workerCallback csum s.worker nfa
    return (⟨w, s.tcp⟩, vs)

/-- The input as the emulator has it, for the worker of queue `q`. -/
def ControlInput.At (q : UInt16) : ControlInput → EmuInput → Prop
  | .action a, .action _ b => b = a ∧ ∃ f, a.body? = some (q, f)
  | .tick, .tick => True
  | .packet nfa, .packet p nfa' => p = pos ∧ nfa' = nfa
  | _, _ => False

/-- The emulator has the controller's worker at `pos`, open as queue `q`. -/
structure Holds (q : UInt16) (e : Emulator) (s : Controller) : Prop where
  entry : entry e.action.workers q = some pos
  worker : (e.action.heap[pos]?).map QueueObj.worker = some s.worker
  tcp : e.tcp = s.tcp

variable {csum pos} {q : UInt16} {e e' : Emulator} {s s' : Controller}

theorem Holds.write {o : QueueObj} (h : Holds pos q e s) (ho : e.action.heap[pos]? = some o) (w : WorkerCtx) (t : TcpCtx) :
    Holds pos q ⟨t, { e.action with heap := e.action.heap.set pos { o with worker := w } }⟩ ⟨w, t⟩ := by
  have hlt := (List.getElem?_eq_some_iff.mp ho).1
  refine ⟨h.entry, ?_, rfl⟩
  simp only [List.getElem?_set_self hlt, Option.map_some]

/-- One step of the emulator on the controller. A tick is one of the controller once it is linked. -/
theorem control_step {c : ControlInput} {i : EmuInput} {o : List (Nat × Verdict)} (h : Holds pos q e s)
    (hci : c.At pos q i) (hlink : c = .tick → e.tcp.wkctx = some pos) (hs : emuStep csum e i = .ok (e', o)) :
    ∃ s', controlStep csum pos s c = .ok (s', o.map Prod.snd) ∧ Holds pos q e' s' := by
  obtain ⟨ob, ho, hw⟩ := Option.map_eq_some_iff.mp h.worker
  cases c with
  | action a =>
    cases i with
    | action lib b =>
      obtain ⟨rfl, f, hb⟩ := hci
      simp only [emuStep, runAction_body lib e hb, C.bind_ok, C.pure_eq_ok, Except.ok.injEq, Prod.mk.injEq] at hs
      obtain ⟨e₁, he, rfl, rfl⟩ := hs
      simp only [onWorker, C.bind_ok, C.pure_eq_ok, Except.ok.injEq, Prod.exists, deref_eq_ok] at he
      obtain ⟨p, o, ⟨hp, hpo⟩, w, t, hf, rfl⟩ := he
      cases h.entry.symm.trans hp
      cases ho.symm.trans hpo
      rw [hw, h.tcp] at hf
      exact ⟨⟨w, t⟩, by simp [controlStep, hb, hf], h.write ho w t⟩
    | _ => exact hci.elim
  | tick =>
    cases i with
    | tick =>
      simp only [emuStep, C.bind_ok, C.pure_eq_ok, Except.ok.injEq, Prod.mk.injEq] at hs
      obtain ⟨x, hx, rfl, rfl⟩ := hs
      obtain ⟨p, o, w, hp, hpo, hf, rfl⟩ := tick_ok.mp hx
      cases (hlink rfl).symm.trans hp
      cases ho.symm.trans hpo
      rw [hw, h.tcp] at hf
      exact ⟨⟨w, s.tcp⟩, by simp [controlStep, hf], h.tcp ▸ h.write ho w e.tcp⟩
    | _ => exact hci.elim
  | packet nfa =>
    cases i with
    | packet p nfa' =>
      obtain ⟨rfl, rfl⟩ := hci
      simp only [emuStep, ho, C.bind_ok, C.pure_eq_ok, Except.ok.injEq, Prod.exists, Prod.mk.injEq] at hs
      obtain ⟨w, vs, hcb, rfl, rfl⟩ := hs
      rw [hw] at hcb
      have hvs : (vs.map (p, ·)).map Prod.snd = vs := by simp [Function.comp_def]
      exact ⟨⟨w, s.tcp⟩, by simp [controlStep, hcb], h.tcp ▸ h.write ho w e.tcp⟩
    | _ => exact hci.elim

theorem link_kept {c : ControlInput} {i : EmuInput} {o : List (Nat × Verdict)} (h : Holds pos q e s)
    (hci : c.At pos q i) (hlink : e.tcp.wkctx = some pos) (hs : emuStep csum e i = .ok (e', o)) :
    e'.tcp.wkctx = some pos := by
  obtain ⟨s', hs', h'⟩ := control_step h hci (fun _ => hlink) hs
  rw [h'.tcp]
  have hlink' : s.tcp.wkctx = some pos := by rw [← h.tcp, hlink]
  cases c with
  | action a =>
    cases i with
    | action lib b =>
      obtain ⟨rfl, f, hb⟩ := hci
      simp only [controlStep, hb, C.bind_ok, C.pure_eq_ok, Except.ok.injEq, Prod.exists, Prod.mk.injEq] at hs'
      obtain ⟨w, t, hf, rfl, -⟩ := hs'
      by_cases hinit : ∃ r args, b = .initTcpSched r args
      · obtain ⟨r, args, rfl⟩ := hinit
        cases hb
        exact (initTcpSched_link pos).value _ hf
      · exact ((body_link hb (fun r args h => hinit ⟨r, args, h⟩) pos).value _ hf).2.trans hlink'
    | _ => exact hci.elim
  | tick =>
    simp only [controlStep, C.bind_ok, C.pure_eq_ok, Except.ok.injEq, Prod.mk.injEq] at hs'
    obtain ⟨w, -, rfl, -⟩ := hs'
    exact hlink'
  | packet nfa =>
    simp only [controlStep, C.bind_ok, C.pure_eq_ok, Except.ok.injEq, Prod.exists, Prod.mk.injEq] at hs'
    obtain ⟨w, vs, -, rfl, -⟩ := hs'
    exact hlink'

/-- **Every run of the emulator on the controller alone is a run of the controller.** -/
theorem control_run {cs : List ControlInput} {is : List EmuInput} (hcs : List.Forall₂ (ControlInput.At pos q) cs is) :
    ∀ {e s e' o}, Holds pos q e s → e.tcp.wkctx = some pos → run (emuStep csum) e is = .ok (e', o) →
      ∃ s', run (controlStep csum pos) s cs = .ok (s', o.map Prod.snd) ∧ Holds pos q e' s' := by
  induction hcs with
  | nil =>
    intro e s e' o h _ hr
    cases hr
    exact ⟨s, rfl, h⟩
  | cons hci _ ih =>
    intro e s e' o h hlink hr
    obtain ⟨e₁, o₁, o₂, h₁, h₂, rfl⟩ := run_cons_ok.mp hr
    obtain ⟨s₁, k₁, hh⟩ := control_step h hci (fun _ => hlink) h₁
    obtain ⟨s', k₂, hh'⟩ := ih hh (link_kept h hci hlink h₁) h₂
    rw [List.map_append]
    exact ⟨s', run_cons_ok.mpr ⟨s₁, _, _, k₁, k₂, rfl⟩, hh'⟩

theorem control_run_linked {lib : LibCalls} {args : InitTcpSchedArgs} {cs : List ControlInput} {is : List EmuInput}
    (hcs : List.Forall₂ (ControlInput.At pos q) cs is) {o : List (Nat × Verdict)} (h : Holds pos q e s)
    (hr : run (emuStep csum) e (.action lib (.initTcpSched q args) :: is) = .ok (e', o)) :
    ∃ s', run (controlStep csum pos) s (.action (.initTcpSched q args) :: cs) = .ok (s', o.map Prod.snd) ∧
      Holds pos q e' s' := by
  obtain ⟨e₁, o₁, o₂, h₁, h₂, rfl⟩ := run_cons_ok.mp hr
  have hat : ControlInput.At pos q (.action (.initTcpSched q args)) (.action lib (.initTcpSched q args)) :=
    ⟨rfl, _, rfl⟩
  obtain ⟨s₁, k₁, hh⟩ := control_step h hat (fun hc => by cases hc) h₁
  have hlink : e₁.tcp.wkctx = some pos := by
    rw [hh.tcp]
    simp only [controlStep, Action.body?, C.bind_ok, C.pure_eq_ok, Except.ok.injEq, Prod.exists,
      Prod.mk.injEq] at k₁
    obtain ⟨w, t, hf, rfl, -⟩ := k₁
    exact (initTcpSched_link pos).value _ hf
  obtain ⟨s', k₂, hh'⟩ := control_run hcs hh hlink h₂
  rw [List.map_append]
  exact ⟨s', run_cons_ok.mpr ⟨s₁, _, _, k₁, k₂, rfl⟩, hh'⟩

end Step

/-! What a packet leaves alone. -/

/-- What the controller and its actions set on a worker. -/
def settings (w : WorkerCtx) : UInt16 × Int × Int × Int × Int × UInt32 :=
  (w.tuneRwnd, w.doBurst, w.doAdapt, w.doRwnd, w.doDedup, w.mark)

theorem callback_settings {csum : List UInt8 → UInt16} {w w' : WorkerCtx} {nfa : NfqData} {vs : List Verdict}
    (h : workerCallback csum w nfa = .ok (w', vs)) : settings w' = settings w := by
  obtain ⟨⟨bs, hp⟩, hd⟩ := workerCallback_ok csum h
  have hdrop : settings (afterDrop w) = settings w := by simp [settings]
  rw [workerCallback_some csum hp hd] at h
  split at h
  · cases h
    exact hdrop
  · split at h
    · next hre =>
      have hfin : w' = (finish csum (afterDrop w) nfa.packetId bs).1 := by
        rw [Except.ok.injEq] at h
        rw [h]
      have hrwnd : settings (afterRwnd (afterDrop w) bs) = settings (afterDrop w) := by
        unfold afterRwnd
        split <;> rfl
      rw [hfin, finish_fst, hrwnd, hdrop]
    · next hre =>
      obtain ⟨w₁, vs₁, hadmit, hend⟩ := reorderStep_ok (by simpa using hre) h
      have hsame : settings w₁ = settings (afterDrop w) := by
        obtain ⟨-, -, -, ids, rfl⟩ | ⟨-, -, -, rfl⟩ := reorderAdmit_ok hadmit <;> rfl
      obtain ⟨-, rfl, -⟩ | ⟨-, rfl, -⟩ := hend
      · exact hsame.trans hdrop
      · exact hsame.trans hdrop

theorem settings_setReorder (w : WorkerCtx) (enable : Int) (count offset : UInt16) :
    settings (workerSetReorder w enable count offset) = settings w := by
  simp only [workerSetReorder]
  by_cases h : enable ≠ 0
  · rw [if_pos h]
    rfl
  · rw [if_neg h]
    rfl

theorem settings_setDrop (w : WorkerCtx) (enable dropCount : Int) :
    settings (workerSetDrop w enable dropCount) = settings w := by
  unfold workerSetDrop
  split <;> rfl

/-! The mode of the controller. -/

/-- **The mode and the period agree.** At most one of the two phases is on; the period is the one of the
    phase that is. -/
structure ModeTied (s : Controller) : Prop where
  one : s.worker.doBurst = 0 ∨ s.worker.doAdapt = 0
  burst : s.worker.doBurst ≠ 0 → s.tcp.sampleInterval = s.tcp.burstSampleInterval
  adapt : s.worker.doAdapt ≠ 0 →
    ∃ p, readAt s.tcp.histParam s.tcp.mark = .ok p ∧ s.tcp.sampleInterval = p.rtt

/-- The actions on the worker after `SOL_INIT_SCHED`. -/
def Action.InPhase : Action → Prop
  | .setBurst _ enable => enable = 0 ∨ enable = 1
  | .setAdapt _ enable => 0 < enable
  | .initTcpSched _ _ => False
  | _ => True

def ControlInput.InPhase : ControlInput → Prop
  | .action a => a.InPhase
  | _ => True

section Mode
variable {w : WorkerCtx} {t : TcpCtx}

theorem ModeTied.same {w' : WorkerCtx} (h : ModeTied ⟨w, t⟩) (hset : settings w' = settings w) :
    ModeTied ⟨w', t⟩ := by
  simp only [settings, Prod.mk.injEq] at hset
  obtain ⟨-, hb, ha, -⟩ := hset
  exact ⟨by rw [hb, ha]; exact h.one, by rw [hb]; exact h.burst, by rw [ha]; exact h.adapt⟩

theorem solUpdate_mode {mark : UInt32} : Returns (fun r => ModeTied ⟨r.1, r.2⟩) (solUpdate mark w t) := by
  have hlast : ∀ t' : TcpCtx, Returns (fun r => ModeTied ⟨r.1, r.2⟩) (do
      let p ← readAt t'.histParam mark.toNat
      return (workerSolUpdate w p.histRw, t') : C (WorkerCtx × TcpCtx)) := by
    intro t'
    apply Returns.bind_any
    intro p
    exact .ok ⟨.inl rfl, fun h => absurd rfl h, fun h => absurd rfl h⟩
  apply Returns.ite
  · intro _
    apply Returns.bind_any
    intro p
    apply Returns.bind_any
    intro hist
    exact Returns.bind_any hlast
  · exact fun _ => hlast t

theorem setBurst_mode {enable : Int} (h : ModeTied ⟨w, t⟩) (he : enable = 0 ∨ enable = 1) :
    Returns (fun r => ModeTied ⟨r.1, r.2⟩) (setBurst enable w t) := by
  apply Returns.bind_eq
  intro p hp
  obtain rfl | rfl := he
  · have hoff : ∀ t', (w.doAdapt ≠ 0 → ∃ p, readAt t'.histParam t'.mark = .ok p ∧ t'.sampleInterval = p.rtt) →
        ModeTied ⟨workerSetBurst w 0 p.histRw, t'⟩ := by
      intro t' ht'
      exact ⟨.inl rfl, fun hb => absurd rfl hb, ht'⟩
    apply Returns.ite
    · exact fun h0 => absurd h0 (by decide)
    · intro _
      apply Returns.ite
      · intro _
        apply Returns.bind_eq
        intro hist hw
        apply Returns.ok
        apply hoff
        intro ha
        obtain ⟨p', hp', hsi⟩ := h.adapt ha
        cases hp.symm.trans hp'
        obtain ⟨hin, rfl⟩ := writeAt_ok.mp hw
        exact ⟨_, readAt_ok.mpr ⟨hin, rfl⟩, by simpa using hsi⟩
      · exact fun _ => .ok (hoff t h.adapt)
  · apply Returns.ite
    · exact fun _ => .ok ⟨.inr rfl, fun _ => rfl, fun ha => absurd rfl ha⟩
    · exact fun h0 => absurd (by decide) h0

theorem setAdapt_mode {enable : Int} (he : 0 < enable) :
    Returns (fun r => ModeTied ⟨r.1, r.2⟩) (setAdapt enable w t) := by
  apply Returns.bind_eq
  intro p hp
  apply Returns.ok
  simp only [if_pos he, workerSetAdapt]
  exact ⟨.inl rfl, fun hb => absurd rfl hb, fun _ => ⟨p, hp, rfl⟩⟩

theorem initTcpSched_mode {args : InitTcpSchedArgs} {pos : Nat} (hb : w.doBurst = 0) (hmark : IsLink args.mark) :
    Returns (fun r => ModeTied ⟨r.1, r.2⟩) (initTcpSched args pos w t) := by
  apply Returns.bind_eq
  intro p hp
  apply Returns.bind_eq
  intro r hr
  apply Returns.ok
  refine ⟨.inl hb, fun h => absurd hb h, fun _ => ⟨r, hr, ?_⟩⟩
  obtain ⟨_, hpe⟩ := readAt_ok.mp hp
  obtain ⟨_, hre⟩ := readAt_ok.mp hr
  obtain hm | hm := hmark <;> simp [hpe, hre, hm]

/-- **One step keeps the mode and the period tied.** -/
theorem mode_kept {csum : List UInt8 → UInt16} {pos : Nat} {s s' : Controller} {i : ControlInput} {o : List Verdict}
    (h : ModeTied s) (hi : i.InPhase) (hs : controlStep csum pos s i = .ok (s', o)) : ModeTied s' := by
  cases i with
  | action a =>
    rcases hb : a.body? with _ | ⟨q, f⟩
    · simp only [controlStep, hb, Except.ok.injEq, Prod.mk.injEq] at hs
      exact hs.1 ▸ h
    · simp only [controlStep, hb, C.bind_ok, C.pure_eq_ok, Except.ok.injEq, Prod.exists, Prod.mk.injEq] at hs
      obtain ⟨w, t, hf, rfl, -⟩ := hs
      cases a with
      | solUpdate q mark => cases hb; exact solUpdate_mode.value _ hf
      | setBurst q enable => cases hb; exact (setBurst_mode h hi).value _ hf
      | setAdapt q enable => cases hb; exact (setAdapt_mode hi).value _ hf
      | initTcpSched q args => exact hi.elim
      | setMark q mark => cases hb; cases hf; exact ⟨h.one, h.burst, h.adapt⟩
      | setReorder q enable count offset => cases hb; cases hf; exact h.same (settings_setReorder _ _ _ _)
      | setDrop q enable dropCount => cases hb; cases hf; exact h.same (settings_setDrop _ _ _)
      | setDedup q enable => cases hb; cases hf; exact ⟨h.one, h.burst, h.adapt⟩
      | setRwnd q rwnd => cases hb; cases hf; exact ⟨h.one, h.burst, h.adapt⟩
      | _ => cases hb
  | tick =>
    simp only [controlStep, C.bind_ok, C.pure_eq_ok, Except.ok.injEq, Prod.mk.injEq] at hs
    obtain ⟨w, hw, rfl, -⟩ := hs
    obtain ⟨r, rfl⟩ := tcpSchedule_ok hw
    exact ⟨h.one, h.burst, h.adapt⟩
  | packet nfa =>
    simp only [controlStep, C.bind_ok, C.pure_eq_ok, Except.ok.injEq, Prod.exists, Prod.mk.injEq] at hs
    obtain ⟨w, vs, hcb, rfl, -⟩ := hs
    exact h.same (callback_settings hcb)

end Mode

/-- **The controller's mode and its period agree** in every state a run reaches that links the sampler to a
    fresh worker first. -/
theorem mode_and_period_agree (csum : List UInt8 → UInt16) {pos : Nat} {q : UInt16} {e e' : Emulator} {mem : WorkerCtx}
    (hq : entry e.action.workers q = some pos)
    (hw : (e.action.heap[pos]?).map QueueObj.worker = some (workerInitCtx mem)) {lib : LibCalls}
    {args : InitTcpSchedArgs} (hmark : IsLink args.mark) {cs : List ControlInput} {is : List EmuInput}
    (hcs : List.Forall₂ (ControlInput.At pos q) cs is) (hin : ∀ c ∈ cs, c.InPhase) {o : List (Nat × Verdict)}
    (hr : run (emuStep csum) e (.action lib (.initTcpSched q args) :: is) = .ok (e', o)) :
    ∃ w, (e'.action.heap[pos]?).map QueueObj.worker = some w ∧ ModeTied ⟨w, e'.tcp⟩ := by
  have hstart : Holds pos q e ⟨workerInitCtx mem, e.tcp⟩ := ⟨hq, hw, rfl⟩
  obtain ⟨s', hs', h'⟩ := control_run_linked hcs hstart hr
  obtain ⟨s₁, o₁, o₂, h₁, h₂, -⟩ := run_cons_ok.mp hs'
  have hinit : ModeTied s₁ := by
    simp only [controlStep, Action.body?, C.bind_ok, C.pure_eq_ok, Except.ok.injEq, Prod.exists,
      Prod.mk.injEq] at h₁
    obtain ⟨w, t, hf, rfl, -⟩ := h₁
    exact (initTcpSched_mode rfl hmark).value _ hf
  have hall : EveryState (controlStep csum pos) s₁ cs (fun _ s _ => ModeTied s) := by
    refine everyState_of_step (P := fun _ _ (i : ControlInput) => i.InPhase) hinit ?_ ?_
    · exact fun _ s _ i s' _ h hi hs => mode_kept h hi hs
    · apply EveryStep.of_inputs
      intro pre i hp
      exact hin i (hp.subset (by simp))
  exact ⟨s'.worker, h'.worker, h'.tcp ▸ hall cs s' o₂ (List.prefix_refl _) h₂⟩

/-! A burst, adaptation after it, a packet and a tick. -/

/-- Queue 0 is open with a fresh worker. -/
def openedQueue : Emulator :=
  let tab := (Vector.replicate actionMaxNfqueue none).set 0 (some 0)
  ⟨zeroTcp, ⟨tab, tab, [freshObj quietLib 0]⟩⟩

def phaseInputs : List ControlInput :=
  [.action (.solUpdate 0 2), .action (.setRwnd 0 2), .action (.setBurst 0 1), .packet ⟨1, some (ackSegment 5 100)⟩,
   .action (.setBurst 0 0), .action (.setAdapt 0 1), .tick]

def phaseEmuInputs : List EmuInput :=
  [.action quietLib (.solUpdate 0 2), .action quietLib (.setRwnd 0 2), .action quietLib (.setBurst 0 1),
   .packet 0 ⟨1, some (ackSegment 5 100)⟩, .action quietLib (.setBurst 0 0), .action quietLib (.setAdapt 0 1), .tick]

theorem mode_and_period_agree_phases :
    ∃ e' o w, run (emuStep zeroCsum) openedQueue (.action quietLib (.initTcpSched 0 schedArgs) :: phaseEmuInputs) =
        .ok (e', o) ∧
      (e'.action.heap[0]?).map QueueObj.worker = some w ∧ ModeTied ⟨w, e'.tcp⟩ := by
  have hat : List.Forall₂ (ControlInput.At 0 0) phaseInputs phaseEmuInputs := by
    exact .cons ⟨rfl, _, rfl⟩ (.cons ⟨rfl, _, rfl⟩ (.cons ⟨rfl, _, rfl⟩ (.cons ⟨rfl, rfl⟩ (.cons ⟨rfl, _, rfl⟩
      (.cons ⟨rfl, _, rfl⟩ (.cons trivial .nil))))))
  have hin : ∀ c ∈ phaseInputs, c.InPhase := by
    intro c hc
    simp only [phaseInputs, List.mem_cons, List.not_mem_nil, or_false] at hc
    obtain rfl | rfl | rfl | rfl | rfl | rfl | rfl := hc
    case inr.inr.inl => exact .inr rfl
    case inr.inr.inr.inr.inl => exact .inl rfl
    case inr.inr.inr.inr.inr.inl => exact Int.one_pos
    all_goals exact trivial
  have hrun : ∃ e' o, run (emuStep zeroCsum) openedQueue
      (.action quietLib (.initTcpSched 0 schedArgs) :: phaseEmuInputs) = .ok (e', o) := ⟨_, _, rfl⟩
  obtain ⟨e', o, hr⟩ := hrun
  obtain ⟨w, hw, hmode⟩ := mode_and_period_agree zeroCsum rfl rfl (.inl rfl) hat hin hr
  exact ⟨e', o, w, hr, hw, hmode⟩

end Handoff
