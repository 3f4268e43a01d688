import Handoff.Lib.Sections
import Handoff.ArrivalOrder
import Handoff.QueueTeardown

/- The callback as the sections its locks make of it, and the setters that run between them.

   `worker_callback` takes and leaves one lock after the other, and the scheduler's thread may call a setter in every gap,
   `worker_set_mark` even while a lock is held. `callbackSection` has the stretches of the callback in which nothing that
   another thread writes is read twice. Every setter works on what one stage uses, so each run of the two threads does
   what a run does in which the callback is one step (`callback_uninterrupted`), up to the marks of the verdicts. What is
   proved of runs of one-step callbacks thus holds of the interleaved ones: no packet gets two verdicts, and none is
   overtaken by more than a session allows (`interleaved_verdicts`). -/
namespace Handoff

open Machine

/-- Where a callback is: before a stage, in the release loop with `n` packets to go, or after all stages. -/
inductive CallbackSection
  | drop (nfa : NfqData)
  | reorder (nfa : NfqData)
  | release (n : Nat)
  | dedup (nfa : NfqData)
  | rwnd (nfa : NfqData)
  | accept (nfa : NfqData)

/-- How many stages may still come. -/
def CallbackSection.stages : CallbackSection → Nat
  | .drop _ => 4
  | .reorder _ => 3
  | .dedup _ => 2
  | .rwnd _ => 1
  | _ => 0

/-- The section after a stage. -/
def Stage.next (s : Stage) (t : CallbackSection) : WorkerCtx × List Verdict × Option CallbackSection :=
  (s.ctx, s.verdicts, if s.handled then none else some t)

section Csum
variable (csum : List UInt8 → UInt16)

/-- One section of `worker_callback`, and where the callback is after it. The release loop loads the mark anew for each
    packet, and `reorder_lock` is held until its end. -/
def callbackSection : CallbackSection → WorkerCtx → C (WorkerCtx × List Verdict × Option CallbackSection)
  | .drop nfa, ctx => do
    let _ ← packetLogging nfa
    let s ← workerHandleDrop ctx nfa.packetId
    return s.next (.reorder nfa)
  | .reorder nfa, ctx =>
    if ctx.doReorder = 0 then .ok (ctx, [], some (.dedup nfa))
    else do
      let (ctx, vs) ← reorderAdmit ctx nfa.packetId
      return (ctx, vs, if ctx.reorderOffset ≤ 0 then some (.release ctx.reorderIdCur.toNat) else none)
  | .release 0, ctx => .ok ({ ctx with doReorder := 0, reorderIdCur := 0 }, [], none)
  | .release (n + 1), ctx => do
    let id ← readAt ctx.reorderIds n
    return (ctx, [.accept id ctx.mark none], some (.release n))
  | .dedup nfa, ctx => do
    let s ← workerHandleDedup ctx nfa.packetId nfa
    return s.next (.rwnd nfa)
  | .rwnd nfa, ctx => do
    let s ← workerHandleRwnd csum ctx nfa.packetId nfa
    return s.next (.accept nfa)
  | .accept nfa, ctx => .ok (ctx, [.accept nfa.packetId ctx.mark none], none)

/-- The callback from a section on, if it is not interrupted. -/
def resume : CallbackSection → WorkerCtx → C (WorkerCtx × List Verdict)
  | .drop nfa, ctx => workerCallback csum ctx nfa
  | .reorder nfa, ctx => do
    let s ← workerHandleReorder ctx nfa.packetId
    if s.handled then return (s.ctx, s.verdicts)
    resume (.dedup nfa) s.ctx
  | .release n, ctx => do
    let rs ← releaseQueued ctx.reorderIds ctx.mark n
    return ({ ctx with doReorder := 0, reorderIdCur := 0 }, rs)
  | .dedup nfa, ctx => do
    let s ← workerHandleDedup ctx nfa.packetId nfa
    if s.handled then return (s.ctx, s.verdicts)
    resume (.rwnd nfa) s.ctx
  | .rwnd nfa, ctx => do
    let s ← workerHandleRwnd csum ctx nfa.packetId nfa
    if s.handled then return (s.ctx, s.verdicts)
    resume (.accept nfa) s.ctx
  | .accept nfa, ctx => .ok (ctx, [.accept nfa.packetId ctx.mark none])
termination_by t => t.stages
decreasing_by all_goals simp [CallbackSection.stages]

end Csum

/-- What a worker's setters and its callback's stages work on. -/
inductive Part
  | drop
  | reorder
  | dedup
  | rwnd
  | ack
  | mark
  deriving DecidableEq

/-- The part a setter writes. -/
def WorkerOp.part : WorkerOp → Part
  | .setDrop _ _ => .drop
  | .setReorder _ _ _ => .reorder
  | .setDedup _ => .dedup
  | .setMark _ => .mark
  | .callback _ => .ack
  | _ => .rwnd

/-- The call is a setter of part `p`. -/
def WorkerOp.sets (p : Part) (op : WorkerOp) : Bool := op.packet?.isNone && op.part = p

instance : Sections.Parts Part WorkerCtx where
  graft S x y :=
    { mark := if S .mark then x.mark else y.mark
      doReorder := if S .reorder then x.doReorder else y.doReorder
      reorderCount := if S .reorder then x.reorderCount else y.reorderCount
      reorderOffset := if S .reorder then x.reorderOffset else y.reorderOffset
      reorderIdCur := if S .reorder then x.reorderIdCur else y.reorderIdCur
      reorderIds := if S .reorder then x.reorderIds else y.reorderIds
      doDrop := if S .drop then x.doDrop else y.doDrop
      dropCount := if S .drop then x.dropCount else y.dropCount
      doRwnd := if S .rwnd then x.doRwnd else y.doRwnd
      tuneRwnd := if S .rwnd then x.tuneRwnd else y.tuneRwnd
      doBurst := if S .rwnd then x.doBurst else y.doBurst
      dataRcvd := if S .rwnd then x.dataRcvd else y.dataRcvd
      doAdapt := if S .rwnd then x.doAdapt else y.doAdapt
      doDedup := if S .dedup then x.doDedup else y.doDedup
      lastAck := if S .ack then x.lastAck else y.lastAck }
  graft_self S x := by simp
  graft_left S x y z := by
    simp only [WorkerCtx.mk.injEq]
    refine ⟨?_, ?_, ?_, ?_, ?_, ?_, ?_, ?_, ?_, ?_, ?_, ?_, ?_, ?_, ?_⟩ <;> split <;> rfl
  graft_comm S T x y z hST := by
    have hpick : ∀ {α : Type} (p : Part) (a b c : α),
        (if S p then a else if T p then b else c) = if T p then b else if S p then a else c := by
      intro α p a b c
      rcases hS : S p with _ | _
      · rfl
      · rw [hST p hS]
        rfl
    simp only [WorkerCtx.mk.injEq]
    exact ⟨hpick _ _ _ _, hpick _ _ _ _, hpick _ _ _ _, hpick _ _ _ _, hpick _ _ _ _, hpick _ _ _ _, hpick _ _ _ _,
      hpick _ _ _ _, hpick _ _ _ _, hpick _ _ _ _, hpick _ _ _ _, hpick _ _ _ _, hpick _ _ _ _, hpick _ _ _ _,
      hpick _ _ _ _⟩

/-! The callback in one piece. -/

section Resume
variable {csum : List UInt8 → UInt16} {t t' : CallbackSection} {ctx ctx' : WorkerCtx} {vs : List Verdict}

theorem Stage.next_some {s : Stage} (h : s.next t = (ctx', vs, some t')) :
    s.handled = false ∧ s.ctx = ctx' ∧ s.verdicts = vs ∧ t = t' := by
  unfold Stage.next at h
  split at h
  · cases h
  · next hs =>
    cases h
    exact ⟨by simpa using hs, rfl, rfl, rfl⟩

theorem Stage.next_none {s : Stage} (h : s.next t = (ctx', vs, none)) : s.handled = true ∧ s.ctx = ctx' ∧ s.verdicts = vs := by
  unfold Stage.next at h
  split at h
  · next hs =>
    cases h
    exact ⟨hs, rfl, rfl⟩
  · cases h

theorem resume_last (h : callbackSection csum t ctx = .ok (ctx', vs, none)) : resume csum t ctx = .ok (ctx', vs) := by
  cases t with
  | drop nfa =>
    obtain ⟨l, hl, h⟩ := C.bind_ok.mp h
    obtain ⟨s, hs, h⟩ := C.bind_ok.mp h
    obtain ⟨hh, rfl, rfl⟩ := Stage.next_none (Except.ok.inj h)
    simp [resume, workerCallback, hl, hs, hh]
  | reorder nfa =>
    simp only [callbackSection] at h
    split at h
    · cases h
    · next hon =>
      obtain ⟨⟨ctx₁, vs₁⟩, ha, h⟩ := C.bind_ok.mp h
      simp only [C.pure_eq_ok] at h
      split at h
      · cases h
      · next ho =>
        cases h
        simp [resume, workerHandleReorder, hon, ha, ho]
  | release n =>
    cases n with
    | zero =>
      cases h
      simp [resume, releaseQueued]
    | succ n =>
      obtain ⟨id, -, h⟩ := C.bind_ok.mp h
      cases h
  | dedup nfa =>
    obtain ⟨s, hs, h⟩ := C.bind_ok.mp h
    obtain ⟨hh, rfl, rfl⟩ := Stage.next_none (Except.ok.inj h)
    simp [resume, hs, hh]
  | rwnd nfa =>
    obtain ⟨s, hs, h⟩ := C.bind_ok.mp h
    obtain ⟨hh, rfl, rfl⟩ := Stage.next_none (Except.ok.inj h)
    simp [resume, hs, hh]
  | accept nfa =>
    cases h
    rw [resume]

theorem resume_next {z : WorkerCtx} {ws : List Verdict} (h : callbackSection csum t ctx = .ok (ctx', vs, some t'))
    (hrest : resume csum t' ctx' = .ok (z, ws)) : resume csum t ctx = .ok (z, vs ++ ws) := by
  cases t with
  | drop nfa =>
    obtain ⟨l, hl, h⟩ := C.bind_ok.mp h
    obtain ⟨s, hs, h⟩ := C.bind_ok.mp h
    obtain ⟨hh, rfl, rfl, rfl⟩ := Stage.next_some (Except.ok.inj h)
    have hquiet := workerHandleDrop_quiet hs hh
    rw [hquiet, List.nil_append]
    simpa [resume, workerCallback, hl, hs, hh] using hrest
  | reorder nfa =>
    simp only [callbackSection] at h
    split at h
    · next hoff =>
      cases h
      simpa [resume, workerHandleReorder, hoff] using hrest
    · next hon =>
      obtain ⟨⟨ctx₁, vs₁⟩, ha, h⟩ := C.bind_ok.mp h
      simp only [C.pure_eq_ok] at h
      split at h
      · next ho =>
        cases h
        rw [resume] at hrest
        obtain ⟨rs, hr, hrest⟩ := C.bind_ok.mp hrest
        cases hrest
        simp [resume, workerHandleReorder, hon, ha, ho, hr]
      · cases h
  | release n =>
    cases n with
    | zero => cases h
    | succ n =>
      obtain ⟨id, hid, h⟩ := C.bind_ok.mp h
      cases h
      rw [resume] at hrest
      obtain ⟨rs, hr, hrest⟩ := C.bind_ok.mp hrest
      cases hrest
      simp [resume, releaseQueued, hid, hr]
  | dedup nfa =>
    obtain ⟨s, hs, h⟩ := C.bind_ok.mp h
    obtain ⟨hh, rfl, rfl, rfl⟩ := Stage.next_some (Except.ok.inj h)
    rw [workerHandleDedup_quiet.value _ hs hh, List.nil_append]
    simpa [resume, hs, hh] using hrest
  | rwnd nfa =>
    obtain ⟨s, hs, h⟩ := C.bind_ok.mp h
    obtain ⟨hh, rfl, rfl, rfl⟩ := Stage.next_some (Except.ok.inj h)
    rw [workerHandleRwnd_quiet.value _ hs hh, List.nil_append]
    simpa [resume, hs, hh] using hrest
  | accept nfa => cases h

end Resume

/-! The parts the sections and the setters work on. -/

/-- A verdict, its mark aside. -/
def Verdict.bare : Verdict → Verdict
  | .drop id => .drop id
  | .accept id _ data => .accept id 0 data

@[simp] theorem Verdict.bare_id (v : Verdict) : v.bare.id = v.id := by cases v <;> rfl

/-- What a section works on. -/
def CallbackSection.uses : CallbackSection → Part → Bool
  | .drop _, .drop => true
  | .reorder _, .reorder => true
  | .release _, .reorder => true
  | .dedup _, .dedup => true
  | .dedup _, .ack => true
  | .rwnd _, .rwnd => true
  | .rwnd _, .ack => true
  | _, _ => false

/-- What the sections before it have worked on. -/
def CallbackSection.touched : CallbackSection → Part → Bool
  | .drop _, _ => false
  | .reorder _, p => p = .drop
  | .release _, p => p = .drop || p = .reorder
  | .dedup _, p => p = .drop || p = .reorder
  | .rwnd _, p => p = .drop || p = .reorder || p = .dedup || p = .ack
  | .accept _, p => p ≠ .mark

/-- What no section works on from here. -/
def CallbackSection.closed : CallbackSection → Part → Bool
  | .drop _, _ => false
  | .reorder _, p => p = .drop
  | .release _, p => p = .drop
  | .dedup _, p => p = .drop || p = .reorder
  | .rwnd _, p => p = .drop || p = .reorder || p = .dedup
  | .accept _, p => p ≠ .mark

/-- A setter on this part need not wait for a lock: `reorder_lock` is held in the release loop. -/
def CallbackSection.free : CallbackSection → Part → Bool
  | .release _, .reorder => false
  | _, _ => true

/-- A call that is no callback. -/
abbrev Setter := { op : WorkerOp // op.packet? = none }

/-- The queue's thread and the scheduler's on one worker. -/
def workerSystem (csum : List UInt8 → UInt16) :
    Sections.System WorkerCtx Part CallbackSection NfqData Setter Verdict Fault where
  sec t ctx := (callbackSection csum t ctx).map fun r => (r.1, r.2.1.map Verdict.bare, r.2.2)
  entry := .drop
  op o ctx := (workerStep csum ctx o.1).map fun r => (r.1, ())
  part o := o.1.part

section Layout
variable (csum : List UInt8 → UInt16)

theorem dropSection_local (nfa : NfqData) :
    Sections.Local (CallbackSection.drop nfa).uses ((workerSystem csum).sec (.drop nfa)) := by
  intro x y
  simp only [workerSystem]
  have hg : Sections.graft (CallbackSection.drop nfa).uses x y =
    { y with doDrop := x.doDrop, dropCount := x.dropCount } := rfl
  rw [hg]
  simp only [callbackSection, workerHandleDrop]
  rcases packetLogging nfa with e | l
  · rfl
  · by_cases hd : x.doDrop = 0
    · simp only [if_pos hd]
      rfl
    · simp only [if_neg hd]
      rcases decInt x.dropCount with e | n <;> rfl

theorem reorderSection_local (nfa : NfqData) :
    Sections.Local (CallbackSection.reorder nfa).uses ((workerSystem csum).sec (.reorder nfa)) := by
  intro x y
  simp only [workerSystem]
  have hg : Sections.graft (CallbackSection.reorder nfa).uses x y =
    { y with
      doReorder := x.doReorder, reorderCount := x.reorderCount, reorderOffset := x.reorderOffset,
      reorderIdCur := x.reorderIdCur, reorderIds := x.reorderIds } := rfl
  rw [hg]
  simp only [callbackSection, reorderAdmit]
  by_cases hr : x.doReorder = 0
  · simp only [if_pos hr]
    rfl
  · simp only [if_neg hr]
    rcases decInt x.reorderCount with e | n
    · rfl
    · by_cases hc : 0 < x.reorderCount
      · simp only [C.ok_bind, if_pos hc]
        rcases writeAt x.reorderIds x.reorderIdCur nfa.packetId with e | ids <;> rfl
      · simp only [C.ok_bind, if_neg hc]
        rcases decInt x.reorderOffset with e | k
        · rfl
        · by_cases ho : 0 < x.reorderOffset
          · simp only [if_pos ho]
            rfl
          · simp only [if_neg ho]
            rfl

theorem releaseSection_local (n : Nat) :
    Sections.Local (CallbackSection.release n).uses ((workerSystem csum).sec (.release n)) := by
  intro x y
  simp only [workerSystem]
  cases n with
  | zero => rfl
  | succ n =>
    have hg : (Sections.graft (CallbackSection.release (n + 1)).uses x y).reorderIds = x.reorderIds := rfl
    simp only [callbackSection, hg]
    rcases readAt x.reorderIds n with e | id <;> rfl

theorem dedupSection_local (nfa : NfqData) :
    Sections.Local (CallbackSection.dedup nfa).uses ((workerSystem csum).sec (.dedup nfa)) := by
  intro x y
  simp only [workerSystem]
  have hg : Sections.graft (CallbackSection.dedup nfa).uses x y =
    { y with doDedup := x.doDedup, lastAck := x.lastAck } := rfl
  rw [hg]
  simp only [callbackSection, workerHandleDedup]
  by_cases hd : x.doDedup = 0
  · simp only [if_pos hd]
    rfl
  · simp only [if_neg hd]
    split
    · rfl
    · rcases ipIhl nfa with e | ihl
      · rfl
      · simp only [C.ok_bind]
        split
        · rfl
        · rcases tcpAckSeq nfa ihl with e | ack
          · rfl
          · simp only [C.ok_bind]
            by_cases hack : ack = x.lastAck
            · simp only [if_pos hack]
              rcases tcpDoff nfa ihl with e | doff
              · rfl
              · simp only [C.ok_bind]
                split <;> rfl
            · simp only [if_neg hack]
              rfl

theorem rwndSection_local (nfa : NfqData) :
    Sections.Local (CallbackSection.rwnd nfa).uses ((workerSystem csum).sec (.rwnd nfa)) := by
  intro x y
  simp only [workerSystem]
  have hg : Sections.graft (CallbackSection.rwnd nfa).uses x y =
    { y with
      doRwnd := x.doRwnd, tuneRwnd := x.tuneRwnd, doBurst := x.doBurst, dataRcvd := x.dataRcvd,
      doAdapt := x.doAdapt, lastAck := x.lastAck } := rfl
  rw [hg]
  simp only [callbackSection, workerHandleRwnd]
  split
  · rfl
  · rcases ipIhl nfa with e | ihl
    · rfl
    · simp only [C.ok_bind]
      split
      · rfl
      · by_cases hr : x.doRwnd = 0
        · simp only [if_pos hr]
          rfl
        · simp only [if_neg hr]
          rcases tcpAckSeq nfa ihl with e | ack
          · rfl
          · simp only [C.ok_bind]
            rcases tcpWindow nfa ihl with e | window
            · rfl
            · simp only [C.ok_bind]
              split <;> rfl

theorem section_local (t : CallbackSection) : Sections.Local t.uses ((workerSystem csum).sec t) := by
  cases t with
  | drop nfa => exact dropSection_local csum nfa
  | reorder nfa => exact reorderSection_local csum nfa
  | release n => exact releaseSection_local csum n
  | dedup nfa => exact dedupSection_local csum nfa
  | rwnd nfa => exact rwndSection_local csum nfa
  | accept nfa => exact fun _ _ => rfl

theorem setter_local {op : WorkerOp} (hop : op.packet? = none) :
    Sections.Local (fun p => p = op.part) fun ctx => (workerStep csum ctx op).map fun r => (r.1, ()) := by
  intro x y
  cases op with
  | callback nfa => cases hop
  | setReorder enable count offset =>
    simp only [workerStep, workerSetReorder]
    by_cases he : enable ≠ 0
    · simp only [if_pos he]
      rfl
    · simp only [if_neg he]
      rfl
  | setDrop enable dropCount =>
    simp only [workerStep, workerSetDrop]
    by_cases he : enable ≠ 0
    · simp only [if_pos he]
      rfl
    · simp only [if_neg he]
      rfl
  | setBurst enable rwnd =>
    simp only [workerStep, workerSetBurst]
    by_cases he : 0 < enable
    · simp only [if_pos he]
      rfl
    · simp only [if_neg he]
      rfl
  | setAdapt enable rwnd =>
    simp only [workerStep, workerSetAdapt]
    by_cases he : 0 < enable
    · simp only [if_pos he]
      rfl
    · simp only [if_neg he]
      rfl
  | tcpSchedule t =>
    have hg : Sections.graft (fun p => decide (p = (WorkerOp.tcpSchedule t).part)) x y =
      { y with
        doRwnd := x.doRwnd, tuneRwnd := x.tuneRwnd, doBurst := x.doBurst, dataRcvd := x.dataRcvd,
        doAdapt := x.doAdapt } := rfl
    rw [hg]
    simp only [workerStep, tcpSchedule]
    by_cases hb : x.doBurst ≠ 0
    · simp only [if_pos hb]
      rcases readAt t.histParam t.mark with e | p <;> rfl
    · simp only [if_neg hb]
      split <;> rfl
  | _ => rfl

/-- Where a section may lead to. -/
def CallbackSection.Follows : CallbackSection → CallbackSection → Prop
  | .drop _, .reorder _ => True
  | .reorder _, .dedup _ => True
  | .reorder _, .release _ => True
  | .release _, .release _ => True
  | .dedup _, .rwnd _ => True
  | .rwnd _, .accept _ => True
  | _, _ => False

theorem callbackSection_follows {t t' : CallbackSection} {ctx ctx' : WorkerCtx} {vs : List Verdict}
    (h : callbackSection csum t ctx = .ok (ctx', vs, some t')) : t.Follows t' := by
  cases t with
  | drop nfa =>
    obtain ⟨l, -, h⟩ := C.bind_ok.mp h
    obtain ⟨s, -, h⟩ := C.bind_ok.mp h
    obtain ⟨-, -, -, rfl⟩ := Stage.next_some (Except.ok.inj h)
    trivial
  | reorder nfa =>
    simp only [callbackSection] at h
    split at h
    · cases h
      trivial
    · obtain ⟨⟨ctx₁, vs₁⟩, -, h⟩ := C.bind_ok.mp h
      simp only [C.pure_eq_ok] at h
      split at h <;> cases h
      trivial
  | release n =>
    cases n with
    | zero => cases h
    | succ n =>
      obtain ⟨id, -, h⟩ := C.bind_ok.mp h
      cases h
      trivial
  | dedup nfa =>
    obtain ⟨s, -, h⟩ := C.bind_ok.mp h
    obtain ⟨-, -, -, rfl⟩ := Stage.next_some (Except.ok.inj h)
    trivial
  | rwnd nfa =>
    obtain ⟨s, -, h⟩ := C.bind_ok.mp h
    obtain ⟨-, -, -, rfl⟩ := Stage.next_some (Except.ok.inj h)
    trivial
  | accept nfa => cases h

theorem section_ok {t : CallbackSection} {t' : Option CallbackSection} {ctx ctx' : WorkerCtx} {o : List Verdict}
    (h : (workerSystem csum).sec t ctx = .ok (ctx', o, t')) :
    ∃ vs, callbackSection csum t ctx = .ok (ctx', vs, t') ∧ vs.map Verdict.bare = o := by
  simp only [workerSystem] at h
  rcases hsec : callbackSection csum t ctx with e | ⟨ctx₁, vs, t₁⟩
  · rw [hsec] at h
    cases h
  · rw [hsec] at h
    cases h
    exact ⟨vs, rfl, rfl⟩

/-- Between two sections a setter finds its part untouched so far, or no longer used. -/
theorem workerLayout : Sections.Layout (workerSystem csum) CallbackSection.free CallbackSection.uses
    CallbackSection.touched CallbackSection.closed where
  sec := section_local csum
  op o := setter_local csum o.2
  unused t p h := by cases t <;> cases p <;> first | rfl | cases h
  next t t' x y o h := by
    obtain ⟨vs, hsec, -⟩ := section_ok csum h
    have hfollows := callbackSection_follows csum hsec
    constructor <;>
    · intro p
      revert hfollows
      cases t <;> cases t' <;> cases p <;>
        simp [CallbackSection.Follows, CallbackSection.touched, CallbackSection.uses, CallbackSection.closed]
  apart t o h := by
    obtain ⟨op, hop⟩ := o
    have hack : op.part ≠ .ack := by
      intro hp
      cases op <;> cases hp
      cases hop
    change t.free op.part = true at h
    show t.closed op.part = true ∨ t.touched op.part = false
    revert h hack
    generalize op.part = p
    cases t <;> cases p <;> simp [CallbackSection.free, CallbackSection.touched, CallbackSection.closed]

/-! Interleaved runs. -/

theorem setter_quiet {op : WorkerOp} {ctx ctx' : WorkerCtx} {vs : List Verdict} (hop : op.packet? = none)
    (h : workerStep csum ctx op = .ok (ctx', vs)) : vs = [] := by
  cases op with
  | callback nfa => cases hop
  | tcpSchedule t =>
    obtain ⟨w, -, h⟩ := C.bind_ok.mp h
    cases h
    rfl
  | _ =>
    cases h
    rfl

theorem call_callback {nfa : NfqData} {ctx ctx' : WorkerCtx} {o : List Verdict}
    (h : Sections.Call (workerSystem csum) nfa ctx ctx' o) :
    ∃ vs, workerCallback csum ctx nfa = .ok (ctx', vs) ∧ vs.map Verdict.bare = o := by
  obtain ⟨t, y, o₁, o₂, hthrough, hlast, rfl⟩ := h
  obtain ⟨vs, hsec, rfl⟩ := section_ok csum hlast
  -- the sections before the last one, each in front of the rest
  have hrest : ∀ {t : CallbackSection} {y : WorkerCtx} {o₁ : List Verdict},
      Sections.Through (workerSystem csum) (.drop nfa) ctx t y o₁ → ∀ {vs : List Verdict}, resume csum t y = .ok (ctx', vs) →
        ∃ ws, resume csum (.drop nfa) ctx = .ok (ctx', ws) ∧ ws.map Verdict.bare = o₁ ++ vs.map Verdict.bare := by
    intro t y o₁ hthrough
    induction hthrough with
    | start => exact fun {vs} hres => ⟨vs, hres, rfl⟩
    | more _ hmore ih =>
      intro vs hres
      obtain ⟨us, hsec, rfl⟩ := section_ok csum hmore
      obtain ⟨ws, hws, hbare⟩ := ih (resume_next hsec hres)
      exact ⟨ws, hws, by rw [hbare, List.map_append, List.append_assoc]⟩
  obtain ⟨ws, hws, hbare⟩ := hrest hthrough (resume_last hsec)
  rw [resume] at hws
  exact ⟨ws, hws, hbare⟩

/-- The calls on the worker, one after the other. -/
def workerOp : NfqData ⊕ Setter → WorkerOp
  | .inl nfa => .callback nfa
  | .inr o => o.1

theorem coarse_run {ctx ctx' : WorkerCtx} {cs : List (NfqData ⊕ Setter)} {o : List Verdict}
    (h : Sections.Coarse (workerSystem csum) ctx cs ctx' o) :
    ∃ vs, run (workerStep csum) ctx (cs.map workerOp) = .ok (ctx', vs) ∧ vs.map Verdict.bare = o := by
  induction h with
  | nil => exact ⟨[], rfl, rfl⟩
  | call _ hcall ih =>
    obtain ⟨vs, hrun, rfl⟩ := ih
    obtain ⟨ws, hcb, rfl⟩ := call_callback csum hcall
    refine ⟨vs ++ ws, ?_, List.map_append⟩
    rw [List.map_append]
    exact run_snoc_ok.mpr ⟨_, vs, ws, hrun, hcb, rfl⟩
  | @op y z cs i o _ hop ih =>
    obtain ⟨vs, hrun, rfl⟩ := ih
    refine ⟨vs, ?_, rfl⟩
    rw [List.map_append]
    simp only [workerSystem] at hop
    rcases hstep : workerStep csum y i.1 with e | ⟨z', ws⟩
    · rw [hstep] at hop
      cases hop
    · rw [hstep] at hop
      cases hop
      have hquiet : ws = [] := setter_quiet csum i.2 hstep
      exact run_snoc_ok.mpr ⟨y, vs, ws, hrun, hstep, by rw [hquiet, List.append_nil]⟩

/-- The packets and the setters of each part, in order. -/
theorem workerOp_packets (cs : List (NfqData ⊕ Setter)) :
    (cs.map workerOp).filterMap WorkerOp.packet? = cs.filterMap Sum.getLeft? := by
  rw [List.filterMap_map]
  refine List.filterMap_congr fun c _ => ?_
  rcases c with nfa | o
  · rfl
  · exact o.2

theorem Setter.sets (o : Setter) (p : Part) : o.1.sets p = decide (o.1.part = p) := by
  rw [WorkerOp.sets, o.2]
  rfl

theorem workerOp_setters (cs : List (NfqData ⊕ Setter)) (p : Part) :
    (cs.map workerOp).filter (WorkerOp.sets p) = (cs.filterMap (Sections.on? (workerSystem csum).part p)).map Subtype.val := by
  induction cs with
  | nil => rfl
  | cons c cs ih =>
    rw [List.map_cons]
    rcases c with nfa | o
    · rw [List.filter_cons_of_neg (by exact Bool.false_ne_true), ih]
      rfl
    · have hsets : (workerOp (.inr o)).sets p = decide (o.1.part = p) := Setter.sets o p
      by_cases hp : o.1.part = p
      · have hon : Sections.on? (workerSystem csum).part p (.inr o : NfqData ⊕ Setter) = some o := if_pos hp
        rw [List.filter_cons_of_pos (by rw [hsets, hp]; exact decide_eq_true rfl), List.filterMap_cons, hon, ih]
        rfl
      · have hon : Sections.on? (workerSystem csum).part p (.inr o : NfqData ⊕ Setter) = none := if_neg hp
        rw [List.filter_cons_of_neg (by rw [hsets]; simpa using hp), List.filterMap_cons, hon, ih]

end Layout

/-- The two threads: the queue's thread starts a callback or runs its next section, the scheduler's calls a setter. -/
def interleave (csum : List UInt8 → UInt16) := Sections.fineStep (workerSystem csum) CallbackSection.free

/-- **A callback may be taken to be one step.** Whatever the setters called between the sections of the callbacks, once no
    callback is in progress some run of whole callbacks and setters has left the same state and made the same verdict
    calls, their marks aside. It has the packets in the same order, and so the setters of each part. -/
theorem callback_uninterrupted (csum : List UInt8 → UInt16) {ctx ctx' : WorkerCtx}
    {es : List (Sections.Event NfqData Setter)} {vs : List Verdict}
    (h : Interleaving.Runs (interleave csum) ⟨ctx, none, []⟩ es ⟨ctx', none, vs⟩) :
    ∃ ops ws, run (workerStep csum) ctx ops = .ok (ctx', ws) ∧ ws.map Verdict.bare = vs ∧
      ops.filterMap WorkerOp.packet? = es.filterMap Sections.Event.start? ∧
      ∀ p, ops.filter (WorkerOp.sets p) =
        (es.filterMap (Sections.Event.on? (fun o : Setter => o.1.part) p)).map Subtype.val := by
  obtain ⟨cs, hcoarse, hcalls, hops⟩ := Sections.uninterrupted (workerLayout csum) h
  obtain ⟨ws, hrun, hbare⟩ := coarse_run csum hcoarse
  refine ⟨cs.map workerOp, ws, hrun, hbare, (workerOp_packets cs).trans hcalls, fun p => ?_⟩
  rw [workerOp_setters csum, hops]
  rfl

/-- A session armed between two stages of packet 1, a loss armed behind the back of packet 2, and a mark set while
    packet 1 is released. -/
def interleavedRun : List (Sections.Event NfqData Setter) :=
  [.start (emptyPacket 1), .go, .op ⟨.setReorder 1 1 1, rfl⟩, .go, .start (emptyPacket 2), .go,
   .op ⟨.setDrop 1 1, rfl⟩, .go, .op ⟨.setMark 5, rfl⟩, .go, .go]

theorem interleavedRun_runs : ∃ ctx', Interleaving.Runs (interleave zeroCsum) ⟨workerInitCtx zeroWorker, none, []⟩
    interleavedRun ⟨ctx', none, [.accept 2 0 none, .accept 1 0 none]⟩ :=
  ⟨_, .cons rfl (.cons rfl (.cons rfl (.cons rfl (.cons rfl (.cons rfl (.cons rfl (.cons rfl (.cons rfl (.cons rfl
    (.cons rfl (.nil _)))))))))))⟩

theorem callback_uninterrupted_run : ∃ ops ctx' ws,
    run (workerStep zeroCsum) (workerInitCtx zeroWorker) ops = .ok (ctx', ws) ∧
      ws.map Verdict.bare = [.accept 2 0 none, .accept 1 0 none] ∧
      ops.filterMap WorkerOp.packet? = [emptyPacket 1, emptyPacket 2] := by
  obtain ⟨ctx', h⟩ := interleavedRun_runs
  obtain ⟨ops, ws, hrun, hbare, hpackets, -⟩ := callback_uninterrupted zeroCsum h
  exact ⟨ops, ctx', ws, hrun, hbare, hpackets⟩

/-- The setter of a step. -/
def setterOf : Sections.Event NfqData Setter → Option WorkerOp
  | .op o => some o.1
  | _ => none

/-- **Verdicts in every interleaving.** Whatever the setters called between the sections of the callbacks of a fresh
    worker, no packet gets two verdicts, and none is overtaken by more than the sessions allow. -/
theorem interleaved_verdicts (csum : List UInt8 → UInt16) (mem : WorkerCtx) {ctx : WorkerCtx}
    {es : List (Sections.Event NfqData Setter)} {vs : List Verdict} {B : Nat}
    (hn : ((es.filterMap Sections.Event.start?).map NfqData.packetId).Nodup)
    (hB : ∀ op ∈ es.filterMap setterOf, Arms B op)
    (h : Interleaving.Runs (interleave csum) ⟨workerInitCtx mem, none, []⟩ es ⟨ctx, none, vs⟩) :
    (vs.map Verdict.id).Nodup ∧
      Overtaking.Within ((es.filterMap Sections.Event.start?).map NfqData.packetId) (acceptedIds vs) B := by
  obtain ⟨cs, hcoarse, hcalls, hops⟩ := Sections.uninterrupted (workerLayout csum) h
  obtain ⟨ws, hrun, rfl⟩ := coarse_run csum hcoarse
  have hdel : deliveredIds (cs.map workerOp) = (es.filterMap Sections.Event.start?).map NfqData.packetId := by
    rw [deliveredIds, workerOp_packets, hcalls]
  have harms : ∀ op ∈ cs.map workerOp, Arms B op := by
    intro op hop
    by_cases hpacket : op.packet? = none
    · have hmem : op ∈ (cs.map workerOp).filter (WorkerOp.sets op.part) :=
        List.mem_filter.mpr ⟨hop, (Setter.sets ⟨op, hpacket⟩ op.part).trans (decide_eq_true rfl)⟩
      rw [workerOp_setters csum, hops] at hmem
      obtain ⟨o, ho, rfl⟩ := List.mem_map.mp hmem
      obtain ⟨e, he, hon⟩ := List.mem_filterMap.mp ho
      refine hB _ (List.mem_filterMap.mpr ⟨e, he, ?_⟩)
      cases e with
      | op o' =>
        simp only [Sections.Event.on?, Option.ite_none_right_eq_some, Option.some.injEq] at hon
        rw [setterOf, hon.2]
      | _ => cases hon
    · cases op with
      | callback nfa => trivial
      | _ => exact absurd rfl hpacket
  have hids : (ws.map Verdict.bare).map Verdict.id = ws.map Verdict.id := by
    rw [List.map_map]
    exact List.map_congr_left fun v _ => v.bare_id
  have haccepted : acceptedIds (ws.map Verdict.bare) = acceptedIds ws := by
    unfold acceptedIds
    rw [List.filter_map, List.map_map]
    have hdrop : ((fun v : Verdict => !v.isDrop) ∘ Verdict.bare) = fun v => !v.isDrop := by
      funext v
      cases v <;> rfl
    rw [hdrop]
    exact List.map_congr_left fun v _ => v.bare_id
  rw [← hdel] at hn ⊢
  rw [hids, haccepted]
  exact ⟨decided_once csum mem hn hrun, (orderInv_run csum mem hn harms hrun).within⟩

theorem interleaved_verdicts_run :
    Overtaking.Within ((interleavedRun.filterMap Sections.Event.start?).map NfqData.packetId) [2, 1] 1 := by
  obtain ⟨ctx', h⟩ := interleavedRun_runs
  have hsetters : interleavedRun.filterMap setterOf = [.setReorder 1 1 1, .setDrop 1 1, .setMark 5] := rfl
  exact (interleaved_verdicts zeroCsum zeroWorker (by decide) (by rw [hsetters]; simp [Arms]) h).2

end Handoff
