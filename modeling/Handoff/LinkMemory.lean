import Handoff.Controller
import Handoff.TraceActions

/- The windows remembered for the two links.

   `action_sol_update` saves the window in force as the one of the link it leaves, and installs
   the one remembered for the link it enters. The window in force is not always the
   controller's: a freeze replaces it by the clamp, and only a burst or an adaptation that
   the line asks for takes the clamp off again. `Tracked` adds to the controller what a
   reader would want to be remembered: the last window the controller itself had. Beside the
   clamp two more things come between a link and its window: a window of zero keeps the
   current link where it is, and a remembered window that does not fit 16 bits is not the
   one that is installed. Apart from these the memory is right, step by step
   (`link_memory_iff`). -/
namespace Handoff

open Machine

/-- The window remembered for a link. -/
def remembered (t : TcpCtx) (link : Int) : C Int := (readAt t.histParam link).map LinkParameter.histRw

/-- The controller, the last window it had itself, and whether the clamp is on in its place. -/
structure Tracked where
  ctl : Controller
  own : UInt16
  clamped : Bool

/-- The inputs with which the controller sets its window. -/
def ControlInput.installs : ControlInput → Bool
  | .action (.solUpdate _ _) => true
  | .action (.setBurst _ enable) => 0 < enable
  | .action (.setAdapt _ enable) => 0 < enable
  | .action (.initTcpSched _ _) => true
  | _ => false

/-- The freeze. -/
def ControlInput.clamps : ControlInput → Bool
  | .action (.setRwnd _ _) => true
  | _ => false

/-- What is remembered after an input that leaves the controller `ctl`. What moves the window without
    installing one is a tick. -/
def Tracked.after (s : Tracked) (i : ControlInput) (ctl : Controller) : Tracked :=
  if i.clamps then ⟨ctl, s.own, true⟩
  else if i.installs ∨ ctl.worker.tuneRwnd ≠ s.ctl.worker.tuneRwnd then ⟨ctl, ctl.worker.tuneRwnd, false⟩
  else ⟨ctl, s.own, s.clamped⟩

section Step
variable (csum : List UInt8 → UInt16) (pos : Nat)

def trackedStep (s : Tracked) (i : ControlInput) : C (Tracked × List Verdict) := do
  let (ctl, vs) ← controlStep csum pos s.ctl i
  return (s.after i ctl, vs)

variable {csum pos}

@[simp] theorem Tracked.after_ctl (s : Tracked) (i : ControlInput) (ctl : Controller) : (s.after i ctl).ctl = ctl := by
  unfold Tracked.after
  split
  · rfl
  · split <;> rfl

theorem trackedStep_ok {s s' : Tracked} {i : ControlInput} {o : List Verdict} :
    trackedStep csum pos s i = .ok (s', o) ↔ ∃ ctl, controlStep csum pos s.ctl i = .ok (ctl, o) ∧ s' = s.after i ctl := by
  simp only [trackedStep, C.bind_ok, C.pure_eq_ok, Except.ok.injEq, Prod.exists, Prod.mk.injEq]
  constructor
  · rintro ⟨ctl, vs, h, rfl, rfl⟩
    exact ⟨ctl, h, rfl⟩
  · rintro ⟨ctl, h, rfl⟩
    exact ⟨ctl, o, h, rfl, rfl⟩

theorem tracked_run {is : List ControlInput} :
    ∀ {s : Tracked} {ctl' : Controller} {o : List Verdict}, run (controlStep csum pos) s.ctl is = .ok (ctl', o) →
      ∃ s', run (trackedStep csum pos) s is = .ok (s', o) ∧ s'.ctl = ctl' := by
  induction is with
  | nil =>
    intro s ctl' o hr
    cases hr
    exact ⟨s, rfl, rfl⟩
  | cons i is ih =>
    intro s ctl' o hr
    obtain ⟨ctl₁, o₁, o₂, h₁, h₂, rfl⟩ := run_cons_ok.mp hr
    have hstep : trackedStep csum pos s i = .ok (s.after i ctl₁, o₁) := trackedStep_ok.mpr ⟨ctl₁, h₁, rfl⟩
    obtain ⟨s', hs', rfl⟩ := ih (s := s.after i ctl₁) (by rw [Tracked.after_ctl]; exact h₂)
    exact ⟨s', run_cons_ok.mpr ⟨_, _, _, hstep, hs', rfl⟩, rfl⟩

end Step

/-! What the tracked controller keeps. -/

/-- A switch goes to link 1 or 2, and the controller is not configured again. -/
def Action.OnLinks : Action → Prop
  | .solUpdate _ mark => mark = 1 ∨ mark = 2
  | .initTcpSched _ _ => False
  | _ => True

def ControlInput.OnLinks : ControlInput → Prop
  | .action a => a.OnLinks
  | _ => True

/-- Every request of a `SOL_HO` line to link 1 or 2 is of that kind. -/
theorem solHo_onLinks {timeMs : Int} {f : SolHoFields} (hmark : f.mark = 1 ∨ f.mark = 2) :
    Returns (AllActions Action.OnLinks) (solHoRequests timeMs f) := by
  apply solHoRequests_actions
  case hsol =>
    obtain hm | hm := hmark
    · exact .inl (by rw [hm]; rfl)
    · exact .inr (by rw [hm]; rfl)
  case hfreeze => trivial
  case hdedup => exact fun _ => trivial
  case hburst => exact fun _ => trivial
  case hadapt => trivial

/-- The current link is 1 or 2; the window is the controller's own, or it is the clamp. -/
structure Remembers (s : Tracked) : Prop where
  link : IsLink s.ctl.tcp.mark
  own : s.clamped = false → s.own = s.ctl.worker.tuneRwnd
  clamp : s.clamped = true → 10 ≤ s.ctl.worker.tuneRwnd

section Keeps
variable {csum : List UInt8 → UInt16} {pos : Nat} {s s' : Tracked} {i : ControlInput} {o : List Verdict}

theorem link_step {ctl ctl' : Controller} (h : IsLink ctl.tcp.mark) (hi : i.OnLinks)
    (hs : controlStep csum pos ctl i = .ok (ctl', o)) : IsLink ctl'.tcp.mark := by
  cases i with
  | action a =>
    rcases hb : a.body? with _ | ⟨q, f⟩
    · simp only [controlStep, hb, Except.ok.injEq, Prod.mk.injEq] at hs
      exact hs.1 ▸ h
    · simp only [controlStep, hb, C.bind_ok, C.pure_eq_ok, Except.ok.injEq, Prod.exists, Prod.mk.injEq] at hs
      obtain ⟨w, t, hf, rfl, -⟩ := hs
      have hgives : a.Gives (fun _ => True) IsLink := by
        cases a with
        | solUpdate q mark =>
          obtain rfl | rfl := hi
          · exact .inl (by decide)
          · exact .inr (by decide)
        | initTcpSched q args => exact hi.elim
        | _ => trivial
      have hper : Periods (fun _ => True) IsLink ctl.tcp := ⟨trivial, trivial, fun _ _ _ _ => trivial, h⟩
      exact ((body_periods hb hgives hper pos).value _ hf).link
  | tick =>
    simp only [controlStep, C.bind_ok, C.pure_eq_ok, Except.ok.injEq, Prod.mk.injEq] at hs
    obtain ⟨w, -, rfl, -⟩ := hs
    exact h
  | packet nfa =>
    simp only [controlStep, C.bind_ok, C.pure_eq_ok, Except.ok.injEq, Prod.exists, Prod.mk.injEq] at hs
    obtain ⟨w, vs, -, rfl, -⟩ := hs
    exact h

theorem clamp_step {ctl ctl' : Controller} (hi : i.clamps = true)
    (hs : controlStep csum pos ctl i = .ok (ctl', o)) : 10 ≤ ctl'.worker.tuneRwnd := by
  cases i with
  | action a =>
    cases a with
    | setRwnd q rwnd =>
      simp only [controlStep, Action.body?, setRwnd, C.ok_bind, C.pure_eq_ok, Except.ok.injEq, Prod.mk.injEq] at hs
      obtain ⟨rfl, -⟩ := hs
      simp only [workerSetRwnd]
      split
      · exact UInt16.le_refl 10
      · next h => exact UInt16.not_lt.mp h
    | _ => cases hi
  | _ => cases hi

theorem remembers_step (h : Remembers s) (hi : i.OnLinks) (hs : trackedStep csum pos s i = .ok (s', o)) :
    Remembers s' := by
  obtain ⟨ctl, hc, rfl⟩ := trackedStep_ok.mp hs
  have hlink := link_step h.link hi hc
  unfold Tracked.after
  split
  · next hclamp => exact ⟨hlink, (fun hf => by cases hf), fun _ => clamp_step hclamp hc⟩
  · split
    · exact ⟨hlink, fun _ => rfl, fun ht => by cases ht⟩
    · next hsame =>
      have htune : ctl.worker.tuneRwnd = s.ctl.worker.tuneRwnd := by
        by_contra hne
        exact hsame (.inr hne)
      exact ⟨hlink, fun hf => (h.own hf).trans htune.symm, fun ht => htune ▸ h.clamp ht⟩

end Keeps

/-! The switch. -/

/-- A switch to the link `mark` of a controller that was in the state `t` and whose last own window is `own`:
    the links are the right ones, and so are their windows. -/
structure Switched (own : UInt16) (mark : UInt32) (t : TcpCtx) (ctl' : Controller) : Prop where
  current : ctl'.tcp.mark = mark.toNat
  left : remembered ctl'.tcp t.mark = .ok own.toNat
  others : ∀ i, i ≠ t.mark → readAt ctl'.tcp.histParam i = readAt t.histParam i
  installed : remembered ctl'.tcp mark.toNat = .ok ctl'.worker.tuneRwnd.toNat

/-- What the memory needs before a switch. A window above zero must not be the clamp (unless the clamp is
    the very window the controller had), and the other link's one must fit 16 bits; a window
    of zero allows only a switch to the current link, with zero remembered for it. -/
def CanSwitch (s : Tracked) (mark : UInt32) : Prop :=
  if 0 < s.ctl.worker.tuneRwnd then
    (s.clamped = true → s.own = s.ctl.worker.tuneRwnd) ∧
      ((mark.toNat : Int) ≠ s.ctl.tcp.mark →
        ∃ r, remembered s.ctl.tcp mark.toNat = .ok r ∧ 0 ≤ r ∧ r < 65536)
  else (mark.toNat : Int) = s.ctl.tcp.mark ∧ remembered s.ctl.tcp mark.toNat = .ok 0

section Switch

theorem remembered_ok {t : TcpCtx} {i r : Int} :
    remembered t i = .ok r ↔ ∃ p, readAt t.histParam i = .ok p ∧ p.histRw = r := by
  unfold remembered
  rcases readAt t.histParam i with f | p <;> simp [Except.map]

theorem remembered_unique {t : TcpCtx} {i r r' : Int} (h : remembered t i = .ok r) (h' : remembered t i = .ok r') :
    r = r' :=
  Except.ok.inj (h.symm.trans h')

theorem readAt_writeAt {α : Type} {n : Nat} {a b : Vector α n} {i : Int} {x : α} (h : writeAt a i x = .ok b) :
    readAt b i = .ok x ∧ ∀ j, j ≠ i → readAt b j = readAt a j := by
  obtain ⟨hi, rfl⟩ := writeAt_ok.mp h
  constructor
  · exact readAt_ok.mpr ⟨hi, by simp⟩
  · intro j hj
    unfold readAt
    split
    · next hj' =>
      rw [Vector.getElem_set_ne hi.2 hj'.2 (by omega)]
    · rfl

theorem installed_iff {r : Int} : r = (UInt16.ofInt r).toNat ↔ 0 ≤ r ∧ r < 65536 := by
  simp only [UInt16.ofInt, UInt16.toNat_ofNat']
  omega

theorem solUpdate_saves {mark : UInt32} {w w' : WorkerCtx} {t t' : TcpCtx} (h0 : 0 < w.tuneRwnd)
    (h : solUpdate mark w t = .ok (w', t')) :
    t'.mark = toInt mark.toNat ∧ remembered t' t.mark = .ok w.tuneRwnd.toNat ∧
      (∀ i, i ≠ t.mark → readAt t'.histParam i = readAt t.histParam i) ∧
      ∃ r, remembered t' mark.toNat = .ok r ∧ w'.tuneRwnd = UInt16.ofInt r := by
  simp only [solUpdate, if_pos h0, C.bind_ok, C.pure_eq_ok, Except.ok.injEq, Prod.mk.injEq] at h
  obtain ⟨p, hp, hist, hw, t₁, rfl, r, hr, rfl, rfl⟩ := h
  obtain ⟨hself, hother⟩ := readAt_writeAt hw
  refine ⟨?_, remembered_ok.mpr ⟨_, hself, rfl⟩, hother, r.histRw, remembered_ok.mpr ⟨r, hr, rfl⟩, rfl⟩
  simp only

theorem solUpdate_zero {mark : UInt32} {w w' : WorkerCtx} {t t' : TcpCtx} (h0 : ¬ 0 < w.tuneRwnd)
    (h : solUpdate mark w t = .ok (w', t')) :
    t' = t ∧ ∃ r, remembered t mark.toNat = .ok r ∧ w'.tuneRwnd = UInt16.ofInt r := by
  simp only [solUpdate, if_neg h0, C.bind_ok, C.pure_eq_ok, Except.ok.injEq, Prod.mk.injEq] at h
  obtain ⟨_, rfl, r, hr, rfl, rfl⟩ := h
  exact ⟨rfl, r.histRw, remembered_ok.mpr ⟨r, hr, rfl⟩, rfl⟩

section Outcome
variable {s : Tracked} {mark : UInt32} {w' : WorkerCtx} {t' : TcpCtx}

/-- When there is a window to save, the switch is right if that window is the controller's own, and the one to
    install fits. -/
theorem saves_switched (hm : mark = 1 ∨ mark = 2) (h : Remembers s) (h0 : 0 < s.ctl.worker.tuneRwnd)
    (hs : solUpdate mark s.ctl.worker s.ctl.tcp = .ok (w', t')) :
    Switched s.own mark s.ctl.tcp ⟨w', t'⟩ ↔ CanSwitch s mark := by
  obtain ⟨hmark, hleft, hothers, r, hr, hw⟩ := solUpdate_saves h0 hs
  unfold CanSwitch
  rw [if_pos h0]
  have hlink : toInt mark.toNat = mark.toNat := by
    obtain rfl | rfl := hm <;> decide
  constructor
  · intro hsw
    have hown : s.own = s.ctl.worker.tuneRwnd := by
      have heq := remembered_unique hleft hsw.left
      exact UInt16.toNat_inj.mp (by omega)
    refine ⟨fun _ => hown, fun hne => ?_⟩
    have hin : r = (UInt16.ofInt r).toNat := by
      rw [← hw]
      exact remembered_unique hr hsw.installed
    refine ⟨r, ?_, installed_iff.mp hin⟩
    rw [remembered, ← hothers _ hne]
    exact hr
  · intro hcan
    obtain ⟨hown, hfits⟩ := hcan
    have hsame : s.own = s.ctl.worker.tuneRwnd := by
      cases hc : s.clamped
      · exact h.own hc
      · exact hown hc
    have hin : r = (UInt16.ofInt r).toNat := by
      rw [installed_iff]
      by_cases hcur : (mark.toNat : Int) = s.ctl.tcp.mark
      · rw [hcur] at hr
        have heq := remembered_unique hr hleft
        have hlt := UInt16.toNat_lt s.ctl.worker.tuneRwnd
        omega
      · obtain ⟨r', hr', hin'⟩ := hfits hcur
        rw [remembered, ← hothers _ hcur] at hr'
        rw [remembered_unique hr hr']
        exact hin'
    refine ⟨hmark.trans hlink, hsame ▸ hleft, hothers, ?_⟩
    rw [hr, hw, ← hin]

/-- With a window of zero it is right only on the current link, if zero is remembered for it. -/
theorem zero_switched (h : Remembers s) (h0 : ¬ 0 < s.ctl.worker.tuneRwnd)
    (hs : solUpdate mark s.ctl.worker s.ctl.tcp = .ok (w', t')) :
    Switched s.own mark s.ctl.tcp ⟨w', t'⟩ ↔ CanSwitch s mark := by
  obtain ⟨rfl, r, hr, hw⟩ := solUpdate_zero h0 hs
  unfold CanSwitch
  rw [if_neg h0]
  -- the clamp is not zero, so the window is the controller's own
  have hzero : s.ctl.worker.tuneRwnd = 0 := by
    rw [UInt16.lt_iff_toNat_lt] at h0
    exact UInt16.toNat_inj.mp (by simpa using h0)
  have hown : s.own = 0 := by
    cases hc : s.clamped
    · exact (h.own hc).trans hzero
    · have hclamp := h.clamp hc
      rw [hzero] at hclamp
      exact absurd hclamp (by decide)
  constructor
  · intro hsw
    have hleft := hsw.left
    rw [hown, hsw.current] at hleft
    exact ⟨hsw.current.symm, hleft⟩
  · intro hcan
    obtain ⟨hcur, h0r⟩ := hcan
    refine ⟨hcur.symm, ?_, fun _ _ => rfl, ?_⟩
    · rw [← hcur, hown]
      exact h0r
    · rw [hw, remembered_unique hr h0r]
      exact h0r

/-- **One switch is right iff the memory is as it needs it.** -/
theorem solUpdate_switched (hm : mark = 1 ∨ mark = 2) (h : Remembers s)
    (hs : solUpdate mark s.ctl.worker s.ctl.tcp = .ok (w', t')) :
    Switched s.own mark s.ctl.tcp ⟨w', t'⟩ ↔ CanSwitch s mark := by
  by_cases h0 : 0 < s.ctl.worker.tuneRwnd
  · exact saves_switched hm h h0 hs
  · exact zero_switched h h0 hs

end Outcome

end Switch

/-! Runs. -/

section Run
variable {csum : List UInt8 → UInt16} {pos : Nat} {q : UInt16}

theorem initTcpSched_link_mark {args : InitTcpSchedArgs} {w : WorkerCtx} {t : TcpCtx} :
    Returns (fun r => r.2.mark = args.mark) (initTcpSched args pos w t) :=
  Returns.bind_any fun _ => Returns.bind_any fun _ => .ok rfl

theorem remembers_init {s s' : Tracked} {args : InitTcpSchedArgs} (hmark : IsLink args.mark) {o : List Verdict}
    (hs : trackedStep csum pos s (.action (.initTcpSched q args)) = .ok (s', o)) : Remembers s' := by
  obtain ⟨ctl, hc, rfl⟩ := trackedStep_ok.mp hs
  simp only [controlStep, Action.body?, C.bind_ok, C.pure_eq_ok, Except.ok.injEq, Prod.exists, Prod.mk.injEq] at hc
  obtain ⟨w, t, hf, rfl, -⟩ := hc
  have hlink : IsLink t.mark := initTcpSched_link_mark.value _ hf ▸ hmark
  exact ⟨hlink, fun _ => rfl, fun hclamp => by cases hclamp⟩

theorem remembers_run {s s' : Tracked} {cs : List ControlInput} {o : List Verdict} (h : Remembers s)
    (hin : ∀ c ∈ cs, c.OnLinks) (hr : run (trackedStep csum pos) s cs = .ok (s', o)) : Remembers s' := by
  refine everyState_of_step (P := fun _ _ (i : ControlInput) => i.OnLinks) (I := fun _ s _ => Remembers s) h ?_ ?_ cs
    s' o (List.prefix_refl _) hr
  · exact fun _ s _ i s' _ h hi hs => remembers_step h hi hs
  · apply EveryStep.of_inputs
    intro pre i hp
    exact hin i (hp.subset (by simp))

/-- **The memory of the links.** In every run of the emulator that configures the controller of a queue and goes on
    with any actions on that worker that switch between links 1 and 2, packets and ticks: each switch
    leaves the right link current, the last own window remembered for the link it leaves,
    the other windows as they were and the remembered window installed, if and only if the
    memory allowed it. -/
theorem link_memory_iff {e e' : Emulator} {w : WorkerCtx} (hq : entry e.action.workers q = some pos)
    (hw : (e.action.heap[pos]?).map QueueObj.worker = some w) {lib : LibCalls} {args : InitTcpSchedArgs}
    (hmark : IsLink args.mark) {cs : List ControlInput} {is : List EmuInput}
    (hcs : List.Forall₂ (ControlInput.At pos q) cs is) (hin : ∀ c ∈ cs, c.OnLinks) {o : List (Nat × Verdict)}
    (hr : run (emuStep csum) e (.action lib (.initTcpSched q args) :: is) = .ok (e', o)) :
    ∃ s', run (trackedStep csum pos) ⟨⟨w, e.tcp⟩, 0, false⟩ (.action (.initTcpSched q args) :: cs) =
        .ok (s', o.map Prod.snd) ∧
      Holds pos q e' s'.ctl ∧
      ∀ pre mark s₁ o₁ s₂ o₂, pre ++ [.action (.solUpdate q mark)] <+: cs →
        run (trackedStep csum pos) ⟨⟨w, e.tcp⟩, 0, false⟩ (.action (.initTcpSched q args) :: pre) = .ok (s₁, o₁) →
        trackedStep csum pos s₁ (.action (.solUpdate q mark)) = .ok (s₂, o₂) →
        (Switched s₁.own mark s₁.ctl.tcp s₂.ctl ↔ CanSwitch s₁ mark) := by
  have hstart : Holds pos q e ⟨w, e.tcp⟩ := ⟨hq, hw, rfl⟩
  obtain ⟨ctl', hctl, hholds⟩ := control_run_linked hcs hstart hr
  obtain ⟨s', hs', rfl⟩ := tracked_run (s := ⟨⟨w, e.tcp⟩, 0, false⟩) hctl
  refine ⟨s', hs', hholds, ?_⟩
  intro pre mark s₁ o₁ s₂ o₂ hpre hrun hstep
  have hlines : ∀ c ∈ pre ++ [.action (.solUpdate q mark)], c.OnLinks := fun c hc => hin c (hpre.subset hc)
  have hrem : Remembers s₁ := by
    obtain ⟨s₀, _, _, h₀, h₁, -⟩ := run_cons_ok.mp hrun
    exact remembers_run (remembers_init hmark h₀) (fun c hc => hlines c (List.mem_append_left _ hc)) h₁
  obtain ⟨ctl, hc, rfl⟩ := trackedStep_ok.mp hstep
  simp only [controlStep, Action.body?, C.bind_ok, C.pure_eq_ok, Except.ok.injEq, Prod.exists, Prod.mk.injEq] at hc
  obtain ⟨w', t', hf, rfl, -⟩ := hc
  rw [Tracked.after_ctl]
  have hto : ControlInput.OnLinks (.action (.solUpdate q mark)) := hlines _ (by simp)
  exact solUpdate_switched hto hrem hf

end Run

/-! A freeze that nothing ends, and a burst that does. -/

/-- A line that switches to link 2 with a freeze and nothing after it. -/
def frozenLine : SolHoFields := ⟨0, 2, 1, 50, 0, 0, 0, 0⟩

/-- The inputs of a line, in order of their times. -/
def lineInputs (rs : List Request) : List ControlInput := rs.map fun r => .action r.2

/-- Two lines, the first frozen: the clamp is remembered for link 2. -/
theorem clamp_remembered :
    ∃ rs, solHoRequests 100 frozenLine = .ok rs ∧ ∃ s₁ o₁ s₂ o₂,
      run (trackedStep zeroCsum 0) ⟨⟨workerInitCtx zeroWorker, zeroTcp⟩, 0, false⟩
        (.action (.initTcpSched 0 schedArgs) :: lineInputs rs) = .ok (s₁, o₁) ∧
      trackedStep zeroCsum 0 s₁ (.action (.solUpdate 0 1)) = .ok (s₂, o₂) ∧
      ¬ Switched s₁.own 1 s₁.ctl.tcp s₂.ctl := by
  refine ⟨_, rfl, _, _, _, _, rfl, rfl, ?_⟩
  intro h
  exact absurd h.left (by decide)

def memoryInputs : List ControlInput :=
  [.action (.solUpdate 0 2), .action (.setRwnd 0 2), .action (.setBurst 0 1), .packet ⟨1, some (ackSegment 5 100)⟩,
   .action (.setBurst 0 0), .action (.solUpdate 0 1)]

def memoryEmuInputs : List EmuInput :=
  [.action quietLib (.solUpdate 0 2), .action quietLib (.setRwnd 0 2), .action quietLib (.setBurst 0 1),
   .packet 0 ⟨1, some (ackSegment 5 100)⟩, .action quietLib (.setBurst 0 0), .action quietLib (.solUpdate 0 1)]

theorem link_memory_iff_burst :
    ∃ e' o s₁ o₁ s₂ o₂, run (emuStep zeroCsum) openedQueue (.action quietLib (.initTcpSched 0 schedArgs) :: memoryEmuInputs) =
        .ok (e', o) ∧
      trackedStep zeroCsum 0 s₁ (.action (.solUpdate 0 1)) = .ok (s₂, o₂) ∧
      run (trackedStep zeroCsum 0) ⟨⟨workerInitCtx zeroWorker, zeroTcp⟩, 0, false⟩
        (.action (.initTcpSched 0 schedArgs) :: memoryInputs.dropLast) = .ok (s₁, o₁) ∧
      Switched s₁.own 1 s₁.ctl.tcp s₂.ctl := by
  have hat : List.Forall₂ (ControlInput.At 0 0) memoryInputs memoryEmuInputs := by
    exact .cons ⟨rfl, _, rfl⟩ (.cons ⟨rfl, _, rfl⟩ (.cons ⟨rfl, _, rfl⟩ (.cons ⟨rfl, rfl⟩ (.cons ⟨rfl, _, rfl⟩
      (.cons ⟨rfl, _, rfl⟩ .nil)))))
  have hin : ∀ c ∈ memoryInputs, c.OnLinks := by
    intro c hc
    simp only [memoryInputs, List.mem_cons, List.not_mem_nil, or_false] at hc
    obtain rfl | rfl | rfl | rfl | rfl | rfl := hc
    case inl => exact .inr rfl
    case inr.inr.inr.inr.inr => exact .inl rfl
    all_goals exact trivial
  have hrun : ∃ e' o, run (emuStep zeroCsum) openedQueue
      (.action quietLib (.initTcpSched 0 schedArgs) :: memoryEmuInputs) = .ok (e', o) := ⟨_, _, rfl⟩
  obtain ⟨e', o, hr⟩ := hrun
  obtain ⟨-, -, -, hswitch⟩ := link_memory_iff rfl rfl (.inl rfl) hat hin hr
  refine ⟨e', o, _, _, _, _, hr, rfl, rfl, ?_⟩
  refine (hswitch memoryInputs.dropLast 1 _ _ _ _ (List.prefix_refl _) rfl rfl).mpr ⟨fun hc => ?_, fun _ => ⟨2000, rfl, ?_⟩⟩
  · cases hc
  · decide

end Handoff
