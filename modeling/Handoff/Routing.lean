import Handoff.Clamp
import Handoff.EventTable
import Handoff.QueueThread
import Handoff.Settings
import Mathlib.Logic.Function.Basic

/- The link an accepted packet is routed by.

   An `INIT` line opens the queue with mark 0, starts it, and sets its mark, by three events due
   at the same time, in this order; the queue's thread may look at its status word between any
   two of them. The emulator runs here together with these threads (`routeStep`). A packet that
   reaches the callback only after a mark has been set carries the mark of an `INIT` or `HO`
   line executed before (`accepted_routed`); one that slips in between the start and the mark is
   accepted with mark 0 (`accepted_unrouted`). -/
namespace Handoff

open Machine

/-! The emulator with the threads of its queues. -/

/-- The thread of the queue object at a position is at `pc` of that position. -/
structure Routed where
  emu : Emulator
  pc : Nat → ThreadPc

/-- What happens next: an action, a tick, or a step of the thread of the object at position `p`. -/
inductive RouteInput
  | action (lib : LibCalls) (a : Action)
  | tick
  | load (p : Nat)
  | recv (p : Nat) (msg : Option NfqData)
  | handle (p : Nat)

@[simp] def RouteInput.action? : RouteInput → Option Action
  | .action _ a => some a
  | _ => none

def Routed.goto (s : Routed) (p : Nat) (pc : ThreadPc) : Routed := { s with pc := Function.update s.pc p pc }

/-- One step. A step of a thread that is elsewhere does nothing. -/
def routeStep (csum : List UInt8 → UInt16) (s : Routed) : RouteInput → C (Routed × List (Nat × Verdict))
  | .action lib a => do
    let (emu, vs) ← emuStep csum s.emu (.action lib a)
    return ({ s with emu }, vs)
  | .tick => do
    let (emu, vs) ← emuStep csum s.emu .tick
    return ({ s with emu }, vs)
  | .load p =>
    match s.pc p, s.emu.action.heap[p]? with
    | .load, some o => .ok (s.goto p (nfqRunSwitch o.nfq.status), [])
    | _, _ => .ok (s, [])
  | .recv p msg =>
    if s.pc p = .recv then
      .ok (s.goto p (match msg with | none => .load | some nfa => .handle nfa), [])
    else .ok (s, [])
  | .handle p =>
    match s.pc p with
    | .handle nfa => do
      let (emu, vs) ← emuStep csum s.emu (.packet p nfa)
      return ({ s with emu }.goto p .load, vs)
    | _ => .ok (s, [])

/-- Every thread starts at the top of its loop, once its object is there. -/
def routeStart (tcp : TcpCtx) : Routed := ⟨⟨tcp, actionInitCtx⟩, fun _ => .load⟩

/-- The actions executed. -/
def actionsOf (is : List RouteInput) : List Action := is.filterMap RouteInput.action?

/-- The objects whose mark has been set. -/
def markedAfter (marked : List Nat) (s : Routed) : RouteInput → List Nat
  | .action _ (.setMark q _) => (entry s.emu.action.queues q).toList ++ marked
  | _ => marked

/-- A packet is handed to an object of queue `q` only once its mark has been set. -/
def MarkedFirst (q : UInt16) (marked : List Nat) (s : Routed) : RouteInput → Prop
  | .handle p => ∀ nfa o, s.pc p = .handle nfa → s.emu.action.heap[p]? = some o → o.nfq.queueNum = q → p ∈ marked
  | _ => True

/-! What is accepted. -/

section Accept
variable {csum : List UInt8 → UInt16} {ctx ctx' : WorkerCtx} {nfa : NfqData} {vs : List Verdict}

/-- **The callback accepts with the worker's mark.** -/
theorem callback_mark (h : workerCallback csum ctx nfa = .ok (ctx', vs)) {id mark : UInt32} {data : Option (List UInt8)}
    (hv : .accept id mark data ∈ vs) : mark = ctx.mark := by
  obtain ⟨⟨bs, hp⟩, hd⟩ := workerCallback_ok csum h
  have hsame : (afterDrop ctx).mark = ctx.mark := by
    unfold afterDrop
    split <;> rfl
  rw [workerCallback_some csum hp hd] at h
  split at h
  · cases h
    simp at hv
  · split at h
    · have hvs : (finish csum (afterDrop ctx) nfa.packetId bs).2 = vs := congrArg Prod.snd (Except.ok.inj h)
      rw [← hvs, finish] at hv
      split at hv
      · simp at hv
      · simp only [List.mem_singleton, Verdict.accept.injEq] at hv
        exact hv.2.1.trans hsame
    · next hre =>
      have hre' : (afterDrop ctx).doReorder ≠ 0 := by simpa using hre
      obtain ⟨ids, rfl, -⟩ := reorderStep_lets hre' h
      obtain ⟨i, -, hi⟩ := List.mem_map.mp hv
      cases hi
      exact hsame

end Accept

/-! The runs. -/

/-- What holds after the inputs `pre`: an object whose mark has been set holds one that an executed action has set
    on its queue, and so does every packet accepted on `q`. -/
structure Provenance (q : UInt16) (pre : List RouteInput) (s : Routed) (marked : List Nat)
    (o : List (Nat × Verdict)) : Prop where
  tagged : Tagged s.emu.action
  known : ∀ p ∈ marked, p < s.emu.action.heap.length
  marks : ∀ p ∈ marked, ∀ obj, s.emu.action.heap[p]? = some obj →
    .setMark obj.nfq.queueNum obj.worker.mark ∈ actionsOf pre
  heard : ∀ p v, (p, v) ∈ o → p < s.emu.action.heap.length
  accepted : ∀ p id mark data, (p, .accept id mark data) ∈ o → ∀ obj, s.emu.action.heap[p]? = some obj →
    obj.nfq.queueNum = q → .setMark q mark ∈ actionsOf pre

/-- The objects keep their queues and their marks. -/
structure SameMarks (x x' : ActionCtx) : Prop where
  length : x'.heap.length = x.heap.length
  object : ∀ (p : Nat) (o' : QueueObj), x'.heap[p]? = some o' →
    ∃ o : QueueObj, x.heap[p]? = some o ∧ o'.nfq.queueNum = o.nfq.queueNum ∧ o'.worker.mark = o.worker.mark

theorem SameMarks.refl (x : ActionCtx) : SameMarks x x := ⟨rfl, fun _ o' ho' => ⟨o', ho', rfl, rfl⟩⟩

theorem SameMarks.set {x : ActionCtx} {p : Nat} {o : QueueObj} {w : WorkerCtx} (ho : x.heap[p]? = some o)
    (hw : w.mark = o.worker.mark) : SameMarks x { x with heap := x.heap.set p { o with worker := w } } := by
  refine ⟨List.length_set, fun r o' ho' => ?_⟩
  by_cases hpr : p = r
  · subst hpr
    cases (List.getElem?_set_self (List.getElem?_eq_some_iff.mp ho).1).symm.trans ho'
    exact ⟨o, ho, rfl, hw⟩
  · rw [List.getElem?_set_ne hpr] at ho'
    exact ⟨o', ho', rfl, rfl⟩

section Step
variable {q : UInt16} {pre : List RouteInput} {s s' : Routed} {marked : List Nat} {o vs : List (Nat × Verdict)}
  {i : RouteInput} {csum : List UInt8 → UInt16}

theorem actionsOf_snoc (pre : List RouteInput) (i : RouteInput) :
    actionsOf (pre ++ [i]) = actionsOf pre ++ i.action?.toList := by
  cases i <;> simp [actionsOf]

theorem Provenance.frame (h : Provenance q pre s marked o) (hi : i.action? = none) (ht : Tagged s'.emu.action)
    (hsame : SameMarks s.emu.action s'.emu.action)
    (hvs : ∀ p id mark data, (p, .accept id mark data) ∈ vs → ∀ obj, s.emu.action.heap[p]? = some obj →
      obj.nfq.queueNum = q → p ∈ marked ∧ mark = obj.worker.mark)
    (hheard : ∀ p v, (p, v) ∈ vs → p < s.emu.action.heap.length) :
    Provenance q (pre ++ [i]) s' marked (o ++ vs) := by
  have hacts : actionsOf (pre ++ [i]) = actionsOf pre := by
    rw [actionsOf_snoc, hi, Option.toList_none, List.append_nil]
  refine ⟨ht, fun p hp => by rw [hsame.length]; exact h.known p hp, ?_, ?_, ?_⟩
  · intro p hp obj' hobj'
    obtain ⟨obj, hobj, hnum, hmark⟩ := hsame.object p obj' hobj'
    rw [hacts, hnum, hmark]
    exact h.marks p hp obj hobj
  · intro p v hv
    rw [hsame.length]
    exact (List.mem_append.mp hv).elim (h.heard p v) (hheard p v)
  · intro p id mark data hv obj' hobj' hq
    obtain ⟨obj, hobj, hnum, -⟩ := hsame.object p obj' hobj'
    rw [hnum] at hq
    rw [hacts]
    obtain hv | hv := List.mem_append.mp hv
    · exact h.accepted p id mark data hv obj hobj hq
    · obtain ⟨hp, rfl⟩ := hvs p id mark data hv obj hobj hq
      rw [← hq]
      exact h.marks p hp obj hobj

theorem Effect.length_le {lib : LibCalls} {a : Action} {x x' : ActionCtx} (h : Effect lib a x x') :
    x.heap.length ≤ x'.heap.length := by
  cases h <;> simp

theorem Provenance.act (h : Provenance q pre s marked o) {lib : LibCalls} {a : Action} {emu : Emulator}
    (hrun : runAction lib s.emu a = .ok emu) :
    Provenance q (pre ++ [.action lib a]) { s with emu } (markedAfter marked s (.action lib a)) o := by
  have hgrow : ∀ b, b ∈ actionsOf pre → b ∈ actionsOf (pre ++ [.action lib a]) := by
    intro b hb
    rw [actionsOf_snoc]
    exact List.mem_append_left _ hb
  have hnow : a ∈ actionsOf (pre ++ [.action lib a]) := by
    rw [actionsOf_snoc]
    exact List.mem_append_right _ (List.mem_singleton.mpr rfl)
  have hold := fun {p o'} => @Setting.object _ markSetting lib a s.emu emu h.tagged hrun p o'
  -- what the record holds beyond the old one
  have hnew : ∀ p ∈ markedAfter marked s (.action lib a), p ∈ marked ∨
      ∃ r mark, a = .setMark r mark ∧ entry s.emu.action.queues r = some p := by
    intro p hp
    cases a with
    | setMark r mark =>
      obtain hp | hp := List.mem_append.mp hp
      · exact .inr ⟨r, mark, rfl, Option.mem_toList.mp hp⟩
      · exact .inl hp
    | _ => exact .inl hp
  have hknown : ∀ p ∈ markedAfter marked s (.action lib a), p < s.emu.action.heap.length := by
    intro p hp
    obtain hp | ⟨r, mark, -, hentry⟩ := hnew p hp
    · exact h.known p hp
    · obtain ⟨obj, hobj, -⟩ := h.tagged.tag r p hentry
      exact (List.getElem?_eq_some_iff.mp hobj).1
  have hlength := (runAction_effect h.tagged.same hrun).length_le
  refine ⟨(runAction_effect h.tagged.same hrun).tagged h.tagged, fun p hp => ?_, ?_, fun p v hv => ?_, ?_⟩
  · exact Nat.lt_of_lt_of_le (hknown p hp) hlength
  · intro p hp obj' hobj'
    obtain ⟨hfresh, -⟩ | ⟨obj, hobj, hnum, hreach, hkept⟩ := hold hobj'
    · have hlt := hknown p hp
      omega
    · rw [hnum]
      by_cases hr : a.Reaches s.emu.action p
      · have hmark : obj'.worker.mark = a.mark?.getD obj.worker.mark := hreach hr
        rw [hmark]
        obtain ⟨r, f, hb, hentry⟩ := hr
        obtain ⟨obj₁, hobj₁, htag⟩ := h.tagged.tag r p hentry
        cases hobj.symm.trans hobj₁
        obtain hp | ⟨r', mark, rfl, hentry'⟩ := hnew p hp
        · cases a with
          | setMark r' mark =>
            cases hb
            rw [htag]
            exact hnow
          | initNfqueue r' => cases hb
          | _ => exact hgrow _ (h.marks p hp obj hobj)
        · cases hb
          rw [htag]
          exact hnow
      · have hmark : obj'.worker.mark = obj.worker.mark := hkept hr
        rw [hmark]
        obtain hp | ⟨r, mark, rfl, hentry⟩ := hnew p hp
        · exact hgrow _ (h.marks p hp obj hobj)
        · exact absurd ⟨r, _, rfl, hentry⟩ hr
  · exact Nat.lt_of_lt_of_le (h.heard p v hv) hlength
  · intro p id mark data hv obj' hobj' hq
    obtain ⟨hfresh, -⟩ | ⟨obj, hobj, hnum, -⟩ := hold hobj'
    · have hlt := h.heard p _ hv
      omega
    · exact hgrow _ (h.accepted p id mark data hv obj hobj (hnum ▸ hq))

/-- **One step.** -/
theorem provenance_step (h : Provenance q pre s marked o) (hfirst : MarkedFirst q marked s i)
    (hs : routeStep csum s i = .ok (s', vs)) :
    Provenance q (pre ++ [i]) s' (markedAfter marked s i) (o ++ vs) := by
  have hsilent : ∀ {s' : Routed}, i.action? = none → s'.emu = s.emu → markedAfter marked s i = marked →
      Provenance q (pre ++ [i]) s' (markedAfter marked s i) (o ++ []) := by
    intro s' hi hemu hm
    rw [hm]
    refine h.frame hi (hemu ▸ h.tagged) (hemu ▸ SameMarks.refl _) ?_ ?_
    · exact fun p id mark data hv => by cases hv
    · exact fun p v hv => by cases hv
  cases i with
  | action lib a =>
    simp only [routeStep, emuStep, C.bind_ok, C.pure_eq_ok, Except.ok.injEq, Prod.exists, Prod.mk.injEq] at hs
    obtain ⟨emu, _, ⟨_, hrun, rfl, rfl⟩, rfl, rfl⟩ := hs
    rw [List.append_nil]
    exact h.act hrun
  | tick =>
    simp only [routeStep, emuStep, C.bind_ok, C.pure_eq_ok, Except.ok.injEq, Prod.exists, Prod.mk.injEq] at hs
    obtain ⟨_, _, ⟨action, htick, rfl, rfl⟩, rfl, rfl⟩ := hs
    obtain ⟨p, obj, w, -, hobj, hw, rfl⟩ := tick_ok.mp htick
    refine h.frame rfl (h.tagged.set hobj rfl) (SameMarks.set hobj (markSetting.tick hw)) ?_ ?_
    · exact fun p id mark data hv => by cases hv
    · exact fun p v hv => by cases hv
  | load p =>
    simp only [routeStep] at hs
    split at hs <;> cases hs <;> exact hsilent rfl rfl rfl
  | recv p msg =>
    simp only [routeStep] at hs
    split at hs <;> cases hs <;> exact hsilent rfl rfl rfl
  | handle p =>
    simp only [routeStep] at hs
    split at hs
    · next nfa hpc =>
      rcases hobj : s.emu.action.heap[p]? with _ | obj
      · simp only [emuStep, hobj, C.ok_bind, C.pure_eq_ok, Except.ok.injEq, Prod.mk.injEq] at hs
        obtain ⟨rfl, rfl⟩ := hs
        exact hsilent rfl rfl rfl
      · simp only [emuStep, hobj, C.bind_ok, C.pure_eq_ok, Except.ok.injEq, Prod.exists, Prod.mk.injEq] at hs
        obtain ⟨_, _, ⟨w, verdicts, hcb, rfl, rfl⟩, rfl, rfl⟩ := hs
        refine h.frame rfl (h.tagged.set hobj rfl) (SameMarks.set hobj (markSetting.packet hcb)) ?_ ?_
        · intro r id mark data hv obj' hobj' hq
          obtain ⟨v, hv, heq⟩ := List.mem_map.mp hv
          cases heq
          cases hobj.symm.trans hobj'
          exact ⟨hfirst nfa obj hpc hobj hq, callback_mark hcb hv⟩
        · intro r v hv
          obtain ⟨v', -, heq⟩ := List.mem_map.mp hv
          cases heq
          exact (List.getElem?_eq_some_iff.mp hobj).1
    · cases hs
      exact hsilent rfl rfl rfl

end Step

/-! Where the threads can be. -/

/-- The thread of queue `q` does not find its word running before the mark of its object has been set. -/
def LoadsMarked (q : UInt16) (marked : List Nat) (s : Routed) : RouteInput → Prop
  | .load p => ∀ o, s.emu.action.heap[p]? = some o → o.nfq.queueNum = q → inHand (nfqRunSwitch o.nfq.status) ≠ 0 →
      p ∈ marked
  | _ => True

/-- A thread that is past the load belongs to an object whose mark has been set. -/
structure PastLoad (q : UInt16) (s : Routed) (marked : List Nat) : Prop where
  tagged : Tagged s.emu.action
  known : ∀ p, s.pc p ≠ .load → p < s.emu.action.heap.length
  marked : ∀ p, inHand (s.pc p) ≠ 0 → ∀ o, s.emu.action.heap[p]? = some o → o.nfq.queueNum = q → p ∈ marked

section Gate
variable {q : UInt16} {s s' : Routed} {marked : List Nat} {i : RouteInput} {csum : List UInt8 → UInt16}
  {vs : List (Nat × Verdict)}

/-- Moving one thread, to a place that is past the load only if it was or the mark has been set. -/
theorem PastLoad.move (h : PastLoad q s marked) {emu : Emulator} (ht : Tagged emu.action)
    (hsame : SameMarks s.emu.action emu.action) {p : Nat} (hp : p < s.emu.action.heap.length) {pc : ThreadPc}
    (hpc : inHand pc ≠ 0 → ∀ o, s.emu.action.heap[p]? = some o → o.nfq.queueNum = q → p ∈ marked) :
    PastLoad q ({ s with emu }.goto p pc) marked := by
  refine ⟨ht, fun r hr => ?_, fun r hr o' ho' hq => ?_⟩
  · show r < emu.action.heap.length
    rw [hsame.length]
    by_cases hrp : r = p
    · rw [hrp]
      exact hp
    · simp only [Routed.goto, Function.update_of_ne hrp] at hr
      exact h.known r hr
  · obtain ⟨o, ho, hnum, -⟩ := hsame.object r o' ho'
    rw [hnum] at hq
    by_cases hrp : r = p
    · subst hrp
      simp only [Routed.goto, Function.update_self] at hr
      exact hpc hr o ho hq
    · simp only [Routed.goto, Function.update_of_ne hrp] at hr
      exact h.marked r hr o ho hq

theorem pastLoad_step (h : PastLoad q s marked) (hload : LoadsMarked q marked s i)
    (hs : routeStep csum s i = .ok (s', vs)) : PastLoad q s' (markedAfter marked s i) := by
  cases i with
  | action lib a =>
    simp only [routeStep, emuStep, C.bind_ok, C.pure_eq_ok, Except.ok.injEq, Prod.exists, Prod.mk.injEq] at hs
    obtain ⟨emu, _, ⟨_, hrun, rfl, rfl⟩, rfl, rfl⟩ := hs
    have heffect := runAction_effect h.tagged.same hrun
    have hgrow : ∀ p ∈ marked, p ∈ markedAfter marked s (.action lib a) := by
      intro p hp
      cases a with
      | setMark r mark => exact List.mem_append_right _ hp
      | _ => exact hp
    refine ⟨heffect.tagged h.tagged, fun p hp => Nat.lt_of_lt_of_le (h.known p hp) heffect.length_le, ?_⟩
    intro p hp o' ho' hq
    obtain ⟨rfl, -⟩ | ⟨o, ho, hnum, -⟩ := Setting.object markSetting h.tagged hrun ho'
    · -- the thread of a new object is at the top of its loop
      have hlt := h.known s.emu.action.heap.length fun hl => by
        rw [hl] at hp
        exact hp rfl
      omega
    · exact hgrow p (h.marked p hp o ho (hnum ▸ hq))
  | tick =>
    simp only [routeStep, emuStep, C.bind_ok, C.pure_eq_ok, Except.ok.injEq, Prod.exists, Prod.mk.injEq] at hs
    obtain ⟨_, _, ⟨action, htick, rfl, rfl⟩, rfl, rfl⟩ := hs
    obtain ⟨p, obj, w, -, hobj, hw, rfl⟩ := tick_ok.mp htick
    have hsame := SameMarks.set hobj (markSetting.tick hw)
    refine ⟨h.tagged.set hobj rfl, fun r hr => by rw [hsame.length]; exact h.known r hr, fun r hr o' ho' hq => ?_⟩
    obtain ⟨o, ho, hnum, -⟩ := hsame.object r o' ho'
    exact h.marked r hr o ho (hnum ▸ hq)
  | load p =>
    simp only [routeStep] at hs
    split at hs
    · next o hpc ho =>
      cases hs
      refine h.move h.tagged (SameMarks.refl _) (List.getElem?_eq_some_iff.mp ho).1 fun hhand o' ho' hq => ?_
      cases ho.symm.trans ho'
      exact hload o ho hq hhand
    · cases hs
      exact h
  | recv p msg =>
    simp only [routeStep] at hs
    split at hs
    · next hpc =>
      cases hs
      have hp := h.known p (by rw [hpc]; exact ThreadPc.noConfusion)
      exact h.move h.tagged (SameMarks.refl _) hp fun _ => h.marked p (by rw [hpc]; decide)
    · cases hs
      exact h
  | handle p =>
    simp only [routeStep] at hs
    split at hs
    · next nfa hpc =>
      have hp := h.known p (by rw [hpc]; exact ThreadPc.noConfusion)
      have hobj := List.getElem?_eq_getElem hp
      generalize s.emu.action.heap[p] = obj at hobj
      simp only [emuStep, hobj, C.bind_ok, C.pure_eq_ok, Except.ok.injEq, Prod.exists, Prod.mk.injEq] at hs
      obtain ⟨_, _, ⟨w, verdicts, hcb, rfl, rfl⟩, rfl, rfl⟩ := hs
      have ht : Tagged { s.emu.action with heap := s.emu.action.heap.set p { obj with worker := w } } :=
        h.tagged.set hobj rfl
      exact h.move ht (SameMarks.set hobj (markSetting.packet hcb)) hp fun hhand => absurd rfl hhand
    · cases hs
      exact h

/-- **The gate.** If no thread of queue `q` finds its word running before the mark of its object has been set,
    no packet is handed to an object of `q` before. -/
theorem marked_first_of_loads (tcp : TcpCtx) {is : List RouteInput}
    (hloads : EveryStep (ghost (routeStep csum) markedAfter) (routeStart tcp, []) is
      fun _ s i => LoadsMarked q s.2 s.1 i) :
    EveryStep (ghost (routeStep csum) markedAfter) (routeStart tcp, []) is fun _ s i => MarkedFirst q s.2 s.1 i := by
  have hruns : EveryState (ghost (routeStep csum) markedAfter) (routeStart tcp, []) is
      fun _ s _ => PastLoad q s.1 s.2 := by
    refine everyState_of_step ?_ ?_ hloads
    · exact ⟨actionInitCtx_tagged, fun p hp => absurd rfl hp, fun p hp => absurd rfl hp⟩
    · intro pre s o i s' o' h hload hs
      obtain ⟨s, marked⟩ := s
      obtain ⟨s₁, marked'⟩ := s'
      obtain ⟨hstep, rfl⟩ := ghost_ok hs
      exact pastLoad_step h hload hstep
  intro pre i s o s' o' hpre hr hs
  have hpast := hruns pre s o (prefix_of_snoc hpre) hr
  cases i with
  | handle p =>
    intro nfa obj hpc hobj hq
    exact hpast.marked p (by rw [hpc]; exact Nat.one_ne_zero) obj hobj hq
  | _ => trivial

end Gate

/-! The marks of a trace. -/

/-- The queue and the mark of an `INIT` or `HO` line. -/
def lineMark? (text : List Char) : Option (UInt16 × Int) :=
  match strtok text with
  | none => none
  | some (_, rest) =>
    match strtok rest with
    | none => none
    | some (event, rest) =>
      let (tok, rest) :=
        match strtok rest with
        | none => (none, [])
        | some (t, rest) => (some t, rest)
      match getEventType event with
      | .init =>
        match intOf tok, nextInt rest with
        | .ok queueNum, .ok (mark, _) => some (UInt16.ofInt queueNum, mark)
        | _, _ => none
      | .ho =>
        match readHo tok rest with
        | .ok f => some (UInt16.ofInt f.queueNum, f.mark)
        | .error _ => none
      | _ => none

/-- The action sets a mark only if it is the one of the line. -/
def SetsLineMark (line : Option (UInt16 × Int)) (a : Action) : Prop :=
  ∀ q mark, a = .setMark q mark → ∃ m, line = some (q, m) ∧ mark = UInt32.ofInt m

section Lines
variable {timeMs : Int} {data : Option (List Char)} {rest : List Char} {line : Option (UInt16 × Int)}

theorem readEvent_marks (text : List Char) :
    Returns (fun r => AllActions (SetsLineMark (lineMark? text)) r.1) (readEvent text) := by
  refine readEvent_rule .nil ?_ ?_ ?_ ?_ ?_ ?_
  · intro timeMs tok rest h
    refine parseInit_actions (fun _ _ _ => Action.noConfusion) (fun _ _ _ => Action.noConfusion)
      (fun _ _ _ => Action.noConfusion) ?_
    intro queueNum mark r hq hm q m hset
    cases hset
    refine ⟨mark, ?_, rfl⟩
    obtain ⟨time, fields, event, args, htime, -, hevent, htype, hthird⟩ := h
    rcases hargs : strtok args with _ | ⟨t, args⟩ <;> rw [hargs] at hthird <;> cases hthird <;>
      simp only [lineMark?, htime, hevent, htype, hargs, hq, hm]
  · exact fun _ _ _ _ => parseCmd_rule fun _ => .cons (fun _ _ => Action.noConfusion) .nil
  · intro timeMs tok rest h
    apply Returns.bind_eq
    intro f hf
    refine hoRequests_actions (fun _ _ => Action.noConfusion) (fun _ _ => Action.noConfusion) ?_
      (fun _ _ _ => Action.noConfusion) (fun _ _ _ _ => Action.noConfusion)
    intro q m hset
    cases hset
    refine ⟨f.mark, ?_, rfl⟩
    obtain ⟨time, fields, event, args, htime, -, hevent, htype, hthird⟩ := h
    rcases hargs : strtok args with _ | ⟨t, args⟩ <;> rw [hargs] at hthird <;> cases hthird <;>
      simp only [lineMark?, htime, hevent, htype, hargs, hf]
  · exact fun _ _ _ _ => Returns.bind_any fun _ => Returns.bind_any fun _ =>
      .ok (.cons (fun _ _ => Action.noConfusion) .nil)
  · exact fun _ _ _ _ => parseInitSched_action fun _ _ _ _ => Action.noConfusion
  · intro timeMs tok rest _
    apply Returns.bind_any
    intro f
    exact solHoRequests_actions (fun _ _ => Action.noConfusion) (fun _ _ => Action.noConfusion)
      (fun _ _ _ => Action.noConfusion) (fun _ _ _ => Action.noConfusion) (fun _ _ => Action.noConfusion)

/-- Every mark the events of a trace set is the one of an `INIT` or `HO` line of their queue. -/
theorem trace_marks {lines : List (List Char)} {scheduler : SchedulerCtx Action}
    (hparse : parseTrace schedulerInitCtx lines = .ok scheduler) {e : SchedulerEvent Action}
    (he : e ∈ scheduler.events) {q : UInt16} {mark : UInt32} (hact : e.action = .setMark q mark) :
    ∃ line ∈ lines, ∃ m, lineMark? line = some (q, m) ∧ mark = UInt32.ofInt m := by
  obtain ⟨rss, hread, rfl⟩ := parseTrace_readInto hparse
  rw [addRequests_table] at he
  obtain he | he := List.mem_append.mp he
  · cases he
  · obtain ⟨r, hr, -, hra⟩ := expansion_mem he
    obtain ⟨rs, hrs, hmem⟩ := List.mem_flatten.mp (List.mem_of_mem_take hr)
    obtain ⟨line, hline, ret, hevent⟩ := hread.line rs hrs
    exact ⟨line, hline, (readEvent_marks line).value _ hevent r hmem q mark (hra.symm.trans hact)⟩

end Lines

/-! Marks are `int`s. -/

theorem readHo_le (data : Option (List Char)) (rest : List Char) :
    Returns (fun f => f.mark ≤ intMax) (readHo data rest) := by
  apply Returns.bind_any
  intro queueNum
  apply Returns.bind nextInt_le
  intro mark hmark
  iterate 4 refine Returns.bind_any fun _ => ?_
  exact .ok hmark

theorem lineMark_le {text : List Char} {q : UInt16} {m : Int} (h : lineMark? text = some (q, m)) : m ≤ intMax := by
  unfold lineMark? at h
  split at h
  · cases h
  · split at h
    · cases h
    · dsimp only at h
      split at h
      · split at h
        · next hq hmark =>
          cases h
          exact nextInt_le.value _ hmark
        · cases h
      · split at h
        · next f hf =>
          cases h
          exact (readHo_le _ _).value _ hf
        · cases h
      · cases h

theorem mark_ne_zero {m : Int} (h0 : 0 < m) (hmax : m ≤ intMax) : UInt32.ofInt m ≠ 0 := by
  have hzero : (0 : UInt32).toNat = 0 := rfl
  rw [ne_eq, ← UInt32.toNat_inj, hzero]
  simp only [UInt32.ofInt, UInt32.toNat_ofNat', intMax] at *
  omega

/-- **Every accepted packet is routed by a configured link, if its queue's mark is set before the packet is handed
    over.** For every trace whose `INIT` and `HO` lines on queue `q` have positive marks, every initial
    segment of its events in the order of the scheduler, and every interleaving with ticks and with the
    steps of the queues' threads: a packet accepted on `q` carries the mark of such a line, set by an event
    executed before, and not 0. -/
theorem accepted_routed (csum : List UInt8 → UInt16) {lines : List (List Char)} {scheduler : SchedulerCtx Action}
    (hparse : parseTrace schedulerInitCtx lines = .ok scheduler) {q : UInt16}
    (hmarks : ∀ line ∈ lines, ∀ m, lineMark? line = some (q, m) → 0 < m) (tcp : TcpCtx) {is : List RouteInput}
    (hacts : actionsOf is <+: (qsortEvents scheduler.events).map SchedulerEvent.action)
    (hfirst : EveryStep (ghost (routeStep csum) markedAfter) (routeStart tcp, []) is
      fun _ s i => MarkedFirst q s.2 s.1 i) :
    EveryState (ghost (routeStep csum) markedAfter) (routeStart tcp, []) is fun pre s o =>
      ∀ p id mark data, (p, Verdict.accept id mark data) ∈ o →
        ∀ obj, s.1.emu.action.heap[p]? = some obj → obj.nfq.queueNum = q →
          mark ≠ 0 ∧ .setMark q mark ∈ actionsOf pre ∧
            ∃ line ∈ lines, ∃ m, lineMark? line = some (q, m) ∧ mark = UInt32.ofInt m := by
  have hruns : EveryState (ghost (routeStep csum) markedAfter) (routeStart tcp, []) is
      fun pre s o => Provenance q pre s.1 s.2 o := by
    refine everyState_of_step ?_ ?_ hfirst
    · refine ⟨actionInitCtx_tagged, ?_, ?_, ?_, ?_⟩
      · exact fun p hp => by cases hp
      · exact fun p hp => by cases hp
      · exact fun p v hv => by cases hv
      · exact fun p id mark data hv => by cases hv
    · intro pre s o i s' o' h hfirst hs
      obtain ⟨s, marked⟩ := s
      obtain ⟨s₁, marked'⟩ := s'
      obtain ⟨hstep, rfl⟩ := ghost_ok hs
      exact provenance_step h hfirst hstep
  intro pre s o hpre hr p id mark data hv obj hobj hq
  have hset := (hruns pre s o hpre hr).accepted p id mark data hv obj hobj hq
  -- the action is one of the trace
  have hact : .setMark q mark ∈ (qsortEvents scheduler.events).map SchedulerEvent.action :=
    hacts.subset ((hpre.filterMap RouteInput.action?).subset hset)
  obtain ⟨e, he, hea⟩ := List.mem_map.mp hact
  obtain ⟨line, hline, m, hm, hmark⟩ := trace_marks hparse ((qsortEvents_perm _).subset he) hea
  refine ⟨?_, hset, line, hline, m, hm, hmark⟩
  rw [hmark]
  exact mark_ne_zero (hmarks line hline m hm) (lineMark_le hm)

/-! A packet after the mark, and one before it. -/

def routedTrace : List (List Char) := ["0,INIT,0,1,100".toList]

def routedScheduler : SchedulerCtx Action :=
  ⟨[⟨0, .initNfqueue 0, 0⟩, ⟨100, .teardownNfqueue 0, 1⟩, ⟨0, .startNfqueue 0, 2⟩, ⟨0, .setMark 0 1, 3⟩]⟩

theorem routedScheduler_sorted : qsortEvents routedScheduler.events =
    [⟨0, .initNfqueue 0, 0⟩, ⟨0, .startNfqueue 0, 2⟩, ⟨0, .setMark 0 1, 3⟩, ⟨100, .teardownNfqueue 0, 1⟩] := by
  apply qsortEvents_unique
  · decide
  · simp [schedulerCompareEvent]

theorem routedTrace_marks : ∀ line ∈ routedTrace, ∀ m, lineMark? line = some ((0 : UInt16), m) → 0 < m := by
  intro line hline m hm
  rw [List.mem_singleton.mp hline] at hm
  cases hm
  decide

/-- The queue's thread handles one packet after the events due at 0. -/
def routedInputs : List RouteInput :=
  [.action quietLib (.initNfqueue 0), .action quietLib (.startNfqueue 0), .action quietLib (.setMark 0 1),
    .load 0, .recv 0 (some (emptyPacket 7)), .handle 0]

theorem accepted_routed_marked :
    ∃ s o, Machine.run (ghost (routeStep zeroCsum) markedAfter) (routeStart zeroTcp, []) routedInputs = .ok (s, o) ∧
      (0, Verdict.accept 7 1 none) ∈ o ∧ (1 : UInt32) ≠ 0 ∧ .setMark 0 1 ∈ actionsOf routedInputs := by
  obtain ⟨s, o, hrun, hv, hobj⟩ : ∃ s o,
      Machine.run (ghost (routeStep zeroCsum) markedAfter) (routeStart zeroTcp, []) routedInputs = .ok (s, o) ∧
        (0, Verdict.accept 7 1 none) ∈ o ∧ ∃ obj, s.1.emu.action.heap[0]? = some obj ∧ obj.nfq.queueNum = 0 :=
    ⟨_, _, rfl, List.mem_cons_self, _, rfl, rfl⟩
  obtain ⟨obj, hobj, hq⟩ := hobj
  have hacts : actionsOf routedInputs <+: (qsortEvents routedScheduler.events).map SchedulerEvent.action := by
    rw [routedScheduler_sorted]
    exact ⟨[.teardownNfqueue 0], rfl⟩
  have hparse : parseTrace schedulerInitCtx routedTrace = .ok routedScheduler := rfl
  have hrouted := accepted_routed zeroCsum hparse routedTrace_marks zeroTcp hacts ?_
  · obtain ⟨hne, hset, -⟩ := hrouted routedInputs s o List.prefix_rfl hrun 0 7 1 none hv obj hobj hq
    exact ⟨s, o, hrun, hv, hne, hset⟩
  · iterate 5
      refine .cons trivial fun s' o' hs => ?_
      cases hs
    refine .cons (fun _ _ _ _ _ => List.mem_cons_self) fun s' o' hs => .nil

/-- **A packet between the start and the mark.** The thread looks at its word right after the start; the mark
    the trace asks for is set later, and the packet is accepted with mark 0. -/
theorem accepted_unrouted :
    parseTrace schedulerInitCtx routedTrace = .ok routedScheduler ∧
      (∀ line ∈ routedTrace, ∀ m, lineMark? line = some ((0 : UInt16), m) → 0 < m) ∧ quietLib.status = nfqStopped ∧
      actionsOf [.action quietLib (.initNfqueue 0), .action quietLib (.startNfqueue 0), .load 0,
        .recv 0 (some (emptyPacket 7)), .handle 0] <+: (qsortEvents routedScheduler.events).map SchedulerEvent.action ∧
      ∃ s o, Machine.run (routeStep zeroCsum) (routeStart zeroTcp)
          [.action quietLib (.initNfqueue 0), .action quietLib (.startNfqueue 0), .load 0,
            .recv 0 (some (emptyPacket 7)), .handle 0] = .ok (s, o) ∧ o = [(0, .accept 7 0 none)] := by
  refine ⟨rfl, routedTrace_marks, rfl, ?_, _, _, rfl, rfl⟩
  rw [routedScheduler_sorted]
  exact ⟨[.setMark 0 1, .teardownNfqueue 0], rfl⟩

end Handoff
