import Handoff.BurstPhase

/- The freeze of a `SOL_HO` line.

   The line switches the link, which ends both phases, and then clamps the window: until one of its
   later events runs, no tick moves the clamp. What takes it off again is not an event of its
   own. It is the side effect of the two optional phases, each of which installs the window
   remembered for the new link when it starts. A line that asks for neither leaves the window
   clamped (`freeze_lifted_iff`). -/
namespace Handoff

open Machine

/-! The line. -/

/-- The two events at `time_ms`. -/
def freezeInputs (q : UInt16) (f : SolHoFields) : List ControlInput :=
  [.action (.solUpdate q (UInt32.ofInt f.mark)), .action (.setRwnd q (UInt16.ofInt f.mark))]

/-- The events of the two optional phases. -/
def phaseInputsOf (q : UInt16) (f : SolHoFields) : List ControlInput :=
  (if 0 < f.burstDuration then [.action (.setBurst q 1), .action (.setBurst q 0)] else []) ++
    (if 0 < f.enableAdapt then [.action (.setAdapt q f.enableAdapt)] else [])

section Line
variable {timeMs : Int} {f : SolHoFields} {rs : List Request}

theorem line_steers (hfreeze : 0 < f.enableFreeze) (h : solHoRequests timeMs f = .ok rs) :
    (lineInputs rs).filter ControlInput.steers =
      freezeInputs (UInt16.ofInt f.queueNum) f ++ phaseInputsOf (UInt16.ofInt f.queueNum) f := by
  rw [(solHoRequests_ok h).1]
  unfold lineInputs solHoExpansion phaseInputsOf
  simp only [if_pos hfreeze, List.map_append, List.filter_append, List.append_assoc]
  by_cases hd : 0 < f.enableDedup <;> by_cases hb : 0 < f.burstDuration <;> by_cases ha : 0 < f.enableAdapt <;>
    simp only [hd, hb, ha, if_true, if_false] <;> rfl

/-- They are listed in the order of their times. -/
theorem line_sorted (hms : 0 < f.freezeMs) (hburst : 0 ≤ f.burstDuration) (h : solHoRequests timeMs f = .ok rs) :
    (rs.filter fun r => (ControlInput.action r.2).steers).Pairwise fun a b => a.1 ≤ b.1 := by
  rw [(solHoRequests_ok h).1]
  unfold solHoExpansion
  simp only [List.filter_append]
  split <;> split <;> split <;> split <;> simp [ControlInput.steers] <;> omega

end Line

/-! Between two events of the line. -/

/-- A tick of a burst estimates a window that 16 bits hold. -/
def EstimateFits (s : Controller) : ControlInput → Prop
  | .tick => s.worker.doBurst ≠ 0 → ∀ p, readAt s.tcp.histParam s.tcp.mark = .ok p →
      (burstRwEst s.worker.dataRcvd p.rtt s.tcp.sampleInterval).toNat ≤ 65535
  | _ => True

section Quiet
variable {csum : List UInt8 → UInt16} {pos : Nat} {s s' : Controller} {i : ControlInput} {o : List Verdict}

theorem burst_tick_ok {tctx : TcpCtx} {ctx ctx' : WorkerCtx} (hb : ctx.doBurst ≠ 0)
    (h : tcpSchedule tctx ctx = .ok ctx') :
    ∃ p, readAt tctx.histParam tctx.mark = .ok p ∧
      ctx'.tuneRwnd =
        if ctx.tuneRwnd.toNat < (burstRwEst ctx.dataRcvd p.rtt tctx.sampleInterval).toNat then
          (burstRwEst ctx.dataRcvd p.rtt tctx.sampleInterval).toUInt16
        else ctx.tuneRwnd := by
  rcases hp : readAt tctx.histParam tctx.mark with e | p
  · rw [tcpSchedule, if_pos hb, hp] at h
    cases h
  · rw [burst_tick hp hb] at h
    cases h
    exact ⟨p, rfl, rfl⟩

/-- **What an input that is not the controller's can do**: without adaptation it leaves the window, or raises it. -/
theorem quiet_step (hi : i.steers = false) (hs : controlStep csum pos s i = .ok (s', o)) :
    s'.tcp = s.tcp ∧ s'.worker.doBurst = s.worker.doBurst ∧ s'.worker.doAdapt = s.worker.doAdapt ∧
      (s.worker.doAdapt = 0 → s.worker.doBurst = 0 → s'.worker.tuneRwnd = s.worker.tuneRwnd) ∧
      (s.worker.doAdapt = 0 → EstimateFits s i → s.worker.tuneRwnd ≤ s'.worker.tuneRwnd) := by
  cases i with
  | packet nfa =>
    simp only [controlStep, C.bind_ok, C.pure_eq_ok, Except.ok.injEq, Prod.exists, Prod.mk.injEq] at hs
    obtain ⟨w, vs, hcb, rfl, -⟩ := hs
    have hset := callback_settings hcb
    simp only [settings, Prod.mk.injEq] at hset
    obtain ⟨htune, hburst, hadapt, -⟩ := hset
    exact ⟨rfl, hburst, hadapt, fun _ _ => htune, fun _ _ => UInt16.le_of_eq htune.symm⟩
  | action a =>
    rcases hb : a.body? with _ | ⟨q, f⟩
    · simp only [controlStep, hb, Except.ok.injEq, Prod.mk.injEq] at hs
      obtain ⟨rfl, -⟩ := hs
      exact ⟨rfl, rfl, rfl, fun _ _ => rfl, fun _ _ => UInt16.le_refl _⟩
    · simp only [controlStep, hb, C.bind_ok, C.pure_eq_ok, Except.ok.injEq, Prod.exists, Prod.mk.injEq] at hs
      obtain ⟨w, t', hf, rfl, -⟩ := hs
      obtain ⟨htcp, hburst, hadapt, -, htune⟩ := inside_action hb hi hf
      exact ⟨htcp, hburst, hadapt, fun _ _ => htune, fun _ _ => UInt16.le_of_eq htune.symm⟩
  | tick =>
    simp only [controlStep, C.bind_ok, C.pure_eq_ok, Except.ok.injEq, Prod.mk.injEq] at hs
    obtain ⟨w, hw, rfl, -⟩ := hs
    obtain ⟨r, hr⟩ := tcpSchedule_ok hw
    have hstill : s.worker.doAdapt = 0 → s.worker.doBurst = 0 → w.tuneRwnd = s.worker.tuneRwnd := by
      intro ha hb
      rw [still_tick hb (.inl ha)] at hw
      cases hw
      rfl
    refine ⟨rfl, by rw [hr], by rw [hr], hstill, ?_⟩
    intro ha hfits
    by_cases hb : s.worker.doBurst = 0
    · exact UInt16.le_of_eq (hstill ha hb).symm
    · obtain ⟨p, hp, htune⟩ := burst_tick_ok hb hw
      have hle := hfits hb p hp
      simp only
      rw [htune, UInt16.le_iff_toNat_le]
      split
      · rw [UInt64.toNat_toUInt16, Nat.mod_eq_of_lt (by omega)]
        omega
      · exact Nat.le_refl _

end Quiet

/-! The stages of the line. -/

/-- The switch has been made and both phases are off, with the sampler in the state `t`. -/
structure SwitchedOff (t : TcpCtx) (s : Tracked) : Prop where
  tcp : s.ctl.tcp = t
  burst : s.ctl.worker.doBurst = 0
  adapt : s.ctl.worker.doAdapt = 0

/-- The window is clamped. -/
structure Frozen (t : TcpCtx) (s : Tracked) : Prop extends SwitchedOff t s where
  window : s.ctl.worker.tuneRwnd = 10
  clamped : s.clamped = true

/-- The clamp is off, and the window is at least the remembered one `r`. -/
structure Restored (r : Int) (s : Tracked) : Prop where
  lifted : s.clamped = false
  window : r ≤ s.ctl.worker.tuneRwnd.toNat

/-- The current link is `m`, remembered with a window of 16 bits that is at least `r`. -/
def Remembered (r m : Int) (t : TcpCtx) : Prop :=
  t.mark = m ∧ ∃ v, remembered t m = .ok v ∧ r ≤ v ∧ v < 65536

/-- From the start of the burst to the start of the adaptation, on link `m`. -/
structure Lifted (r m : Int) (s : Tracked) : Prop extends Restored r s where
  adapt : s.ctl.worker.doAdapt = 0
  kept : Remembered r m s.ctl.tcp

theorem le_installed {v : Int} (h : v < 65536) : v ≤ (UInt16.ofInt v).toNat := by
  simp only [UInt16.ofInt, UInt16.toNat_ofNat']
  omega

section Stages
variable {csum : List UInt8 → UInt16} {pos : Nat} {s s' : Tracked} {t : TcpCtx} {r m : Int} {q : UInt16}
  {i : ControlInput} {o : List Verdict}

theorem after_installs (ctl : Controller) (hclamps : i.clamps = false) (hinstalls : i.installs = true) :
    s.after i ctl = ⟨ctl, ctl.worker.tuneRwnd, false⟩ := by
  simp [Tracked.after, hclamps, hinstalls]

theorem after_same {ctl : Controller} (hclamps : i.clamps = false) (hinstalls : i.installs = false)
    (hsame : ctl.worker.tuneRwnd = s.ctl.worker.tuneRwnd) : s.after i ctl = ⟨ctl, s.own, s.clamped⟩ := by
  simp [Tracked.after, hclamps, hinstalls, hsame]

theorem quiet_clamp {ctl : Controller} (hi : i.steers = false) :
    (ctl.worker.tuneRwnd = s.ctl.worker.tuneRwnd → (s.after i ctl).clamped = s.clamped) ∧
      (s.clamped = false → (s.after i ctl).clamped = false) := by
  have hclamps : i.clamps = false := by
    cases i with
    | action a => cases a <;> first | rfl | cases hi
    | _ => rfl
  have hinstalls : i.installs = false := by
    cases i with
    | action a => cases a <;> first | rfl | cases hi
    | _ => rfl
  refine ⟨fun hsame => by rw [after_same hclamps hinstalls hsame], fun hc => ?_⟩
  unfold Tracked.after
  simp only [hclamps, Bool.false_eq_true, if_false]
  split
  · rfl
  · exact hc

theorem SwitchedOff.quiet (h : SwitchedOff t s) (hi : i.steers = false) (hs : trackedStep csum pos s i = .ok (s', o)) :
    SwitchedOff t s' := by
  obtain ⟨ctl, hc, rfl⟩ := trackedStep_ok.mp hs
  obtain ⟨htcp, hburst, hadapt, -⟩ := quiet_step hi hc
  refine ⟨?_, ?_, ?_⟩ <;> rw [Tracked.after_ctl]
  · exact htcp.trans h.tcp
  · exact hburst.trans h.burst
  · exact hadapt.trans h.adapt

/-- **No input of another kind moves the clamp.** -/
theorem Frozen.quiet (h : Frozen t s) (hi : i.steers = false) (hs : trackedStep csum pos s i = .ok (s', o)) :
    Frozen t s' := by
  have hoff := h.toSwitchedOff.quiet hi hs
  obtain ⟨ctl, hc, rfl⟩ := trackedStep_ok.mp hs
  obtain ⟨-, -, -, hsame, -⟩ := quiet_step hi hc
  have htune := hsame h.adapt h.burst
  refine ⟨hoff, ?_, ((quiet_clamp hi).1 htune).trans h.clamped⟩
  rw [Tracked.after_ctl, htune]
  exact h.window

theorem Lifted.quiet (h : Lifted r m s) (hi : i.steers = false) (hfits : EstimateFits s.ctl i)
    (hs : trackedStep csum pos s i = .ok (s', o)) : Lifted r m s' := by
  obtain ⟨ctl, hc, rfl⟩ := trackedStep_ok.mp hs
  obtain ⟨htcp, -, hadapt, -, hraise⟩ := quiet_step hi hc
  have hle := UInt16.le_iff_toNat_le.mp (hraise h.adapt hfits)
  have hwin := h.window
  refine ⟨⟨(quiet_clamp hi).2 h.lifted, ?_⟩, ?_, ?_⟩ <;> rw [Tracked.after_ctl]
  · omega
  · exact hadapt.trans h.adapt
  · rw [htcp]
    exact h.kept

theorem freeze_begins {rwnd : UInt16} (h : SwitchedOff t s) (hr : rwnd < 10)
    (hs : trackedStep csum pos s (.action (.setRwnd q rwnd)) = .ok (s', o)) : Frozen t s' := by
  obtain ⟨ctl, hc, rfl⟩ := trackedStep_ok.mp hs
  simp only [controlStep, Action.body?, setRwnd, if_pos hr, C.ok_bind, C.pure_eq_ok, Except.ok.injEq,
    Prod.mk.injEq] at hc
  obtain ⟨rfl, -⟩ := hc
  exact ⟨⟨h.tcp, h.burst, h.adapt⟩, rfl, rfl⟩

theorem burst_lifts (hm : s.ctl.tcp.mark = m) (hr : remembered s.ctl.tcp m = .ok r) (hlt : r < 65536)
    (hs : trackedStep csum pos s (.action (.setBurst q 1)) = .ok (s', o)) : Lifted r m s' := by
  obtain ⟨ctl, hc, rfl⟩ := trackedStep_ok.mp hs
  obtain ⟨p, hp, rfl⟩ := remembered_ok.mp hr
  simp only [controlStep, Action.body?, setBurst, hm, hp, C.ok_bind, Int.one_pos, if_true, C.pure_eq_ok,
    Except.ok.injEq, Prod.mk.injEq] at hc
  obtain ⟨rfl, -⟩ := hc
  rw [after_installs _ rfl rfl]
  exact ⟨⟨rfl, le_installed hlt⟩, rfl, rfl, p.histRw, hr, Int.le_refl _, hlt⟩

theorem burst_end_lifted (h : Lifted r m s) (hs : trackedStep csum pos s (.action (.setBurst q 0)) = .ok (s', o)) :
    Lifted r m s' := by
  obtain ⟨ctl, hc, rfl⟩ := trackedStep_ok.mp hs
  obtain ⟨hlink, v, hv, hrv, hlt⟩ := h.kept
  obtain ⟨p, hp, rfl⟩ := remembered_ok.mp hv
  have hwin := h.window
  have hmax : (s.ctl.worker.tuneRwnd.toNat : Int) < 65536 := by exact_mod_cast UInt16.toNat_lt s.ctl.worker.tuneRwnd
  have hafter : ∀ t', s.after (.action (.setBurst q 0)) ⟨workerSetBurst s.ctl.worker 0 p.histRw, t'⟩ =
      ⟨⟨workerSetBurst s.ctl.worker 0 p.histRw, t'⟩, s.own, s.clamped⟩ := fun t' => after_same rfl rfl rfl
  simp only [controlStep, Action.body?, setBurst, hlink, hp, C.ok_bind, lt_irrefl, if_false] at hc
  split at hc
  · next hgrown =>
    simp only [C.bind_ok, C.pure_eq_ok, Except.ok.injEq, Prod.exists, Prod.mk.injEq] at hc
    obtain ⟨w, t', ⟨hist, hw, rfl, rfl⟩, rfl, -⟩ := hc
    obtain ⟨hself, -⟩ := readAt_writeAt hw
    rw [hafter]
    exact ⟨⟨h.lifted, hwin⟩, h.adapt, rfl, _, remembered_ok.mpr ⟨_, hself, rfl⟩, hwin, hmax⟩
  · simp only [C.pure_eq_ok, C.ok_bind, Except.ok.injEq, Prod.mk.injEq] at hc
    obtain ⟨rfl, -⟩ := hc
    rw [hafter]
    exact ⟨⟨h.lifted, hwin⟩, h.adapt, hlink, _, hv, hrv, hlt⟩

theorem adapt_restores {enable : Int} (h : Remembered r m s.ctl.tcp) (he : 0 < enable)
    (hs : trackedStep csum pos s (.action (.setAdapt q enable)) = .ok (s', o)) :
    Restored r s' := by
  obtain ⟨ctl, hc, rfl⟩ := trackedStep_ok.mp hs
  obtain ⟨hm, v, hv, hrv, hlt⟩ := h
  obtain ⟨p, hp, rfl⟩ := remembered_ok.mp hv
  simp only [controlStep, Action.body?, setAdapt, hm, hp, C.ok_bind, workerSetAdapt, if_pos he, C.pure_eq_ok,
    Except.ok.injEq, Prod.mk.injEq] at hc
  obtain ⟨rfl, -⟩ := hc
  rw [after_installs _ rfl (by simpa [ControlInput.installs] using he)]
  exact ⟨rfl, hrv.trans (le_installed hlt)⟩

theorem solUpdate_off {mark : UInt32} {w : WorkerCtx} {t : TcpCtx} :
    Returns (fun r => r.1.doBurst = 0 ∧ r.1.doAdapt = 0) (solUpdate mark w t) := by
  have hlast : ∀ t' : TcpCtx, Returns (fun r => r.1.doBurst = 0 ∧ r.1.doAdapt = 0) (do
      let p ← readAt t'.histParam mark.toNat
      return (workerSolUpdate w p.histRw, t') : C (WorkerCtx × TcpCtx)) :=
    fun t' => Returns.bind_any fun p => .ok ⟨rfl, rfl⟩
  apply Returns.ite
  · intro _
    apply Returns.bind_any
    intro p
    apply Returns.bind_any
    intro hist
    exact Returns.bind_any hlast
  · exact fun _ => hlast t

end Stages

/-! A whole line. -/

section Run
variable {csum : List UInt8 → UInt16} {pos : Nat} {s s' : Tracked} {o : List Verdict}

theorem steer_split {a : ControlInput} {as cs : List ControlInput} (hf : cs.filter ControlInput.steers = a :: as)
    (hr : run (trackedStep csum pos) s cs = .ok (s', o)) :
    ∃ pre post s₁ o₁ s₂ o₂ o₃, cs = pre ++ [a] ++ post ∧ (∀ i ∈ pre, i.steers = false) ∧
      post.filter ControlInput.steers = as ∧ run (trackedStep csum pos) s pre = .ok (s₁, o₁) ∧
      trackedStep csum pos s₁ a = .ok (s₂, o₂) ∧ run (trackedStep csum pos) s (pre ++ [a]) = .ok (s₂, o₁ ++ o₂) ∧
      run (trackedStep csum pos) s₂ post = .ok (s', o₃) := by
  obtain ⟨pre, post, rfl, hpre, -, hpost⟩ := List.filter_eq_cons_iff.mp hf
  have hsplit : pre ++ a :: post = pre ++ [a] ++ post := by simp
  rw [hsplit] at hr
  obtain ⟨s₂, o₁₂, o₃, hhead, htail, -⟩ := run_append_ok.mp hr
  obtain ⟨s₁, o₁, o₂, h₁, h₂, rfl⟩ := run_snoc_ok.mp hhead
  exact ⟨pre, post, s₁, o₁, s₂, o₂, o₃, hsplit, fun i hi => by simpa using hpre i hi, hpost, h₁, h₂, hhead, htail⟩

theorem quiet_run {P : Tracked → Prop} {C : Controller → ControlInput → Prop}
    (hstep : ∀ s i s' o, P s → i.steers = false → C s.ctl i → trackedStep csum pos s i = .ok (s', o) → P s') (h : P s)
    {is : List ControlInput} (hquiet : ∀ i ∈ is, i.steers = false)
    (hC : EveryStep (trackedStep csum pos) s is (fun _ s i => C s.ctl i))
    (hr : run (trackedStep csum pos) s is = .ok (s', o)) : P s' := by
  have hsteers : EveryStep (trackedStep csum pos) s is (fun _ _ i => i.steers = false) := by
    apply EveryStep.of_inputs
    intro pre i hp
    exact hquiet i (hp.subset (by simp))
  refine everyState_of_step (I := fun _ s _ => P s) h ?_ (hsteers.and hC) is s' o (List.prefix_refl _) hr
  exact fun _ s _ i s' o h hi hs => hstep s i s' o h hi.1 hi.2 hs

theorem SwitchedOff.run {t : TcpCtx} {is : List ControlInput} (h : SwitchedOff t s) (hquiet : ∀ i ∈ is, i.steers = false)
    (hr : run (trackedStep csum pos) s is = .ok (s', o)) : SwitchedOff t s' :=
  quiet_run (C := fun _ _ => True) (fun _ _ _ _ h hi _ hs => h.quiet hi hs) h hquiet
    (fun _ _ _ _ _ _ _ _ _ => trivial) hr

theorem Frozen.run {t : TcpCtx} {is : List ControlInput} (h : Frozen t s) (hquiet : ∀ i ∈ is, i.steers = false)
    (hr : run (trackedStep csum pos) s is = .ok (s', o)) : Frozen t s' :=
  quiet_run (C := fun _ _ => True) (fun _ _ _ _ h hi _ hs => h.quiet hi hs) h hquiet
    (fun _ _ _ _ _ _ _ _ _ => trivial) hr

/-- At some point with no event of the controller after it the window is restored. -/
def HasRestored (csum : List UInt8 → UInt16) (pos : Nat) (r : Int) (s : Tracked) (cs : List ControlInput) : Prop :=
  ∃ pre post s' o, cs = pre ++ post ∧ (∀ i ∈ post, i.steers = false) ∧
    run (trackedStep csum pos) s pre = .ok (s', o) ∧ Restored r s'

theorem HasRestored.behind {r : Int} {as cs : List ControlInput} (hr : run (trackedStep csum pos) s as = .ok (s', o))
    (h : HasRestored csum pos r s' cs) : HasRestored csum pos r s (as ++ cs) := by
  obtain ⟨pre, post, s₁, o₁, rfl, hpost, hpre, hres⟩ := h
  exact ⟨as ++ pre, post, s₁, o ++ o₁, by simp, hpost, run_append_ok.mpr ⟨s', o, o₁, hr, hpre, rfl⟩, hres⟩

theorem quiet_tcp {is : List ControlInput} (hquiet : ∀ i ∈ is, i.steers = false)
    (hr : run (trackedStep csum pos) s is = .ok (s', o)) : s'.ctl.tcp = s.ctl.tcp := by
  refine quiet_run (P := fun s' => s'.ctl.tcp = s.ctl.tcp) (C := fun _ _ => True) ?_ rfl hquiet
    (fun _ _ _ _ _ _ _ _ _ => trivial) hr
  intro s₁ i s₂ o₁ h hi _ hs
  obtain ⟨ctl, hc, rfl⟩ := trackedStep_ok.mp hs
  rw [Tracked.after_ctl]
  exact (quiet_step hi hc).1.trans h

theorem Lifted.run {r m : Int} {is : List ControlInput} (h : Lifted r m s) (hquiet : ∀ i ∈ is, i.steers = false)
    (hfits : EveryStep (trackedStep csum pos) s is (fun _ s i => EstimateFits s.ctl i))
    (hr : run (trackedStep csum pos) s is = .ok (s', o)) : Lifted r m s' :=
  quiet_run (fun _ _ _ _ h hi hC hs => h.quiet hi hC hs) h hquiet hfits hr

variable {t : TcpCtx} {r m : Int} {q : UInt16} {f : SolHoFields} {cs : List ControlInput}

theorem adapt_phase (h : Remembered r m s.ctl.tcp) (he : 0 < f.enableAdapt)
    (hf : cs.filter ControlInput.steers = [.action (.setAdapt q f.enableAdapt)])
    (hr : run (trackedStep csum pos) s cs = .ok (s', o)) : HasRestored csum pos r s cs := by
  obtain ⟨pre, post, s₁, o₁, s₂, o₂, o₃, rfl, hpre, hpost, h₁, h₂, hhead, -⟩ := steer_split hf hr
  rw [← quiet_tcp hpre h₁] at h
  refine ⟨pre ++ [_], post, s₂, _, rfl, ?_, hhead, adapt_restores h he h₂⟩
  intro i hi
  simpa using List.filter_eq_nil_iff.mp hpost i hi

theorem burst_phase (h : Frozen t s) (hm : t.mark = m) (hv : remembered t m = .ok r) (hlt : r < 65536)
    (hf : cs.filter ControlInput.steers = [.action (.setBurst q 1), .action (.setBurst q 0)] ++
      if 0 < f.enableAdapt then [.action (.setAdapt q f.enableAdapt)] else [])
    (hfits : EveryStep (trackedStep csum pos) s cs (fun _ s i => EstimateFits s.ctl i))
    (hr : run (trackedStep csum pos) s cs = .ok (s', o)) : HasRestored csum pos r s cs := by
  obtain ⟨pre, post, s₁, o₁, s₂, o₂, o₃, rfl, hpre, hpost, h₁, h₂, hhead, htail⟩ := steer_split hf hr
  have hfrozen := h.run hpre h₁
  have hlifted : Lifted r m s₂ := by
    refine burst_lifts ?_ ?_ hlt h₂ <;> rw [hfrozen.tcp]
    · exact hm
    · exact hv
  have hfits₂ := hfits.later hhead
  obtain ⟨pre', post', s₃, o₄, s₄, o₅, o₆, rfl, hpre', hpost', h₃, h₄, hhead', htail'⟩ := steer_split hpost htail
  have hend : Lifted r m s₄ := by
    have hbefore : Lifted r m s₃ := hlifted.run hpre' (hfits₂.shorten (by simp [List.append_assoc])) h₃
    exact burst_end_lifted hbefore h₄
  refine HasRestored.behind hhead (HasRestored.behind hhead' ?_)
  split at hpost'
  · next he => exact adapt_phase hend.kept he hpost' htail'
  · refine ⟨[], post', s₄, [], rfl, ?_, rfl, hend.toRestored⟩
    intro i hi
    simpa using List.filter_eq_nil_iff.mp hpost' i hi

/-- Without a phase the clamp stays. -/
theorem never_lifted (h : Frozen t s) (hquiet : ∀ i ∈ cs, i.steers = false) : ¬ HasRestored csum pos r s cs := by
  intro hres
  obtain ⟨pre, post, s₁, o₁, rfl, -, hr, hres⟩ := hres
  have hfrozen := h.run (fun i hi => hquiet i (List.mem_append_left _ hi)) hr
  have hc := hfrozen.clamped
  rw [hres.lifted] at hc
  cases hc

/-- **What lifts the freeze.** -/
theorem phases_lift_iff (h : Frozen t s) (hm : t.mark = m) (hv : remembered t m = .ok r)
    (hf : cs.filter ControlInput.steers = phaseInputsOf q f)
    (hfits : EveryStep (trackedStep csum pos) s cs (fun _ s i => EstimateFits s.ctl i))
    (hr : run (trackedStep csum pos) s cs = .ok (s', o)) :
    HasRestored csum pos r s cs ↔ (0 < f.burstDuration ∨ 0 < f.enableAdapt) ∧ r < 65536 := by
  refine ⟨?_, ?_⟩
  · intro hres
    refine ⟨?_, ?_⟩
    · by_contra hnone
      refine never_lifted h ?_ hres
      intro i hi
      rw [phaseInputsOf, if_neg fun hb => hnone (.inl hb), if_neg fun ha => hnone (.inr ha)] at hf
      simpa using List.filter_eq_nil_iff.mp hf i hi
    · obtain ⟨-, -, s₁, -, -, -, -, hres⟩ := hres
      have hmax := UInt16.toNat_lt s₁.ctl.worker.tuneRwnd
      have hwin := hres.window
      omega
  · intro hcond
    obtain ⟨hphase, hlt⟩ := hcond
    unfold phaseInputsOf at hf
    by_cases hb : 0 < f.burstDuration
    · rw [if_pos hb] at hf
      exact burst_phase h hm hv hlt hf hfits hr
    · have he := hphase.resolve_left hb
      rw [if_neg hb, if_pos he, List.nil_append] at hf
      have hkept : Remembered r m s.ctl.tcp := by
        rw [h.tcp]
        exact ⟨hm, r, hv, Int.le_refl r, hlt⟩
      exact adapt_phase hkept he hf hr

theorem HasRestored.front {as bs : List ControlInput} {a : ControlInput} (ha : a.steers = true)
    (hr : Machine.run (trackedStep csum pos) s (as ++ [a]) = .ok (s', o)) (h : HasRestored csum pos r s (as ++ [a] ++ bs)) :
    HasRestored csum pos r s' bs := by
  obtain ⟨pre, post, s₁, o₁, heq, hpost, hpre, hres⟩ := h
  obtain ⟨x, rfl, rfl⟩ | ⟨x, hx, rfl⟩ := List.append_eq_append_iff.mp heq
  · obtain ⟨s₂, o₂, o₃, h₂, h₃, -⟩ := run_append_ok.mp hpre
    cases hr.symm.trans h₂
    exact ⟨x, post, s₁, o₃, rfl, hpost, h₃, hres⟩
  · -- only if nothing is left of the front
    obtain rfl | ⟨y, b, rfl⟩ := x.eq_nil_or_concat'
    · rw [List.append_nil] at hx
      rw [hx] at hr
      cases hr.symm.trans hpre
      exact ⟨[], bs, s', [], rfl, fun i hi => hpost i (by simpa using hi), rfl, hres⟩
    · rw [← List.append_assoc] at hx
      have hb : a = b := List.append_singleton_inj.mp hx |>.2
      have hquiet := hpost b (by simp)
      rw [← hb, ha] at hquiet
      cases hquiet

theorem switch_step {s₀ : Tracked} (hmark : f.mark = 1 ∨ f.mark = 2)
    (hs : trackedStep csum pos s (.action (.solUpdate q (UInt32.ofInt f.mark))) = .ok (s₀, o)) :
    SwitchedOff s₀.ctl.tcp s₀ ∧
      (0 < s.ctl.worker.tuneRwnd ∨ s.ctl.tcp.mark = f.mark → s₀.ctl.tcp.mark = f.mark) := by
  obtain ⟨ctl, hc, rfl⟩ := trackedStep_ok.mp hs
  simp only [controlStep, Action.body?, C.bind_ok, C.pure_eq_ok, Except.ok.injEq, Prod.exists, Prod.mk.injEq] at hc
  obtain ⟨w, t', hf, rfl, -⟩ := hc
  have hoff := solUpdate_off.value _ hf
  refine ⟨⟨rfl, ?_, ?_⟩, fun hopen => ?_⟩ <;> rw [Tracked.after_ctl]
  · exact hoff.1
  · exact hoff.2
  · have hto : toInt (UInt32.ofInt f.mark).toNat = f.mark := by
      obtain hm | hm := hmark <;> rw [hm] <;> decide
    by_cases h0 : 0 < s.ctl.worker.tuneRwnd
    · exact (solUpdate_saves h0 hf).1.trans hto
    · rw [(solUpdate_zero h0 hf).1]
      exact hopen.resolve_left h0

/-- **The freeze of a line.** In every run of the emulator that begins with the switch of a `SOL_HO` line that freezes
    and goes on with packets, ticks and the line's own events (`line_sorted`: they come in the order of the line), the
    window is the clamp from the freeze to the next event of the controller. If the switch found an open
    window or the link already current, and every burst estimate fits 16 bits, the window
    `r` remembered for the new link is restored iff the line asks for a burst or for adaptation, and
    `r` fits 16 bits. -/
theorem freeze_lifted_iff {e e' : Emulator} {ctl : Controller} {timeMs : Int} {rs : List Request}
    {rest : List ControlInput} {is : List EmuInput} {o : List (Nat × Verdict)} (h : Holds pos q e ctl)
    (hlink : e.tcp.wkctx = some pos) (hq : q = UInt16.ofInt f.queueNum) (hrs : solHoRequests timeMs f = .ok rs)
    (hfreeze : 0 < f.enableFreeze) (hms : 0 < f.freezeMs) (hburst : 0 ≤ f.burstDuration)
    (hmark : f.mark = 1 ∨ f.mark = 2)
    (hline : (.action (.solUpdate q (UInt32.ofInt f.mark)) :: rest).filter ControlInput.steers =
      (lineInputs rs).filter ControlInput.steers)
    (hcs : List.Forall₂ (ControlInput.At pos q) (.action (.solUpdate q (UInt32.ofInt f.mark)) :: rest) is)
    (hr : Machine.run (emuStep csum) e is = .ok (e', o)) :
    (rs.filter fun r => (ControlInput.action r.2).steers).Pairwise (fun a b => a.1 ≤ b.1) ∧
    ∃ s₀ s' o₀ o₁, trackedStep csum pos ⟨ctl, ctl.worker.tuneRwnd, false⟩ (.action (.solUpdate q (UInt32.ofInt f.mark))) =
        .ok (s₀, o₀) ∧
      Machine.run (trackedStep csum pos) s₀ rest = .ok (s', o₁) ∧ o.map Prod.snd = o₀ ++ o₁ ∧ Holds pos q e' s'.ctl ∧
      (∀ pre s₁ o₂, pre <+: rest → Machine.run (trackedStep csum pos) s₀ pre = .ok (s₁, o₂) →
        pre.filter ControlInput.steers = [.action (.setRwnd q (UInt16.ofInt f.mark))] →
        s₁.ctl.worker.tuneRwnd = 10) ∧
      ∀ r, remembered s₀.ctl.tcp f.mark = .ok r → (0 < ctl.worker.tuneRwnd ∨ ctl.tcp.mark = f.mark) →
        EveryStep (trackedStep csum pos) s₀ rest (fun _ s i => EstimateFits s.ctl i) →
        (HasRestored csum pos r s₀ rest ↔ (0 < f.burstDuration ∨ 0 < f.enableAdapt) ∧ r < 65536) := by
  refine ⟨line_sorted hms hburst hrs, ?_⟩
  obtain ⟨ctl', hctl, hholds⟩ := control_run hcs h hlink hr
  obtain ⟨s', hs', rfl⟩ := tracked_run (s := ⟨ctl, ctl.worker.tuneRwnd, false⟩) hctl
  obtain ⟨s₀, o₀, o₁, h₀, h₁, ho⟩ := run_cons_ok.mp hs'
  refine ⟨s₀, s', o₀, o₁, h₀, h₁, ho, hholds, ?_, ?_⟩
  all_goals
    have hsmall : UInt16.ofInt f.mark < 10 := by
      obtain hm | hm := hmark <;> rw [hm] <;> decide
    obtain ⟨hoff, hcur⟩ := switch_step hmark h₀
  · intro pre s₁ o₂ _ hpre hsteers
    obtain ⟨pre', post, s₂, o₃, s₃, o₄, o₅, rfl, hquiet, hpost, h₂, h₃, -, h₄⟩ := steer_split hsteers hpre
    have hfrozen := freeze_begins (hoff.run hquiet h₂) hsmall h₃
    have hend := hfrozen.run (fun i hi => by simpa using List.filter_eq_nil_iff.mp hpost i hi) h₄
    exact hend.window
  · intro r hrem hopen hfits
    have hrest : rest.filter ControlInput.steers =
        .action (.setRwnd q (UInt16.ofInt f.mark)) :: phaseInputsOf q f := by
      rw [line_steers hfreeze hrs, ← hq] at hline
      exact (List.cons.inj hline).2
    obtain ⟨pre', post, s₂, o₃, s₃, o₄, o₅, rfl, hquiet, hpost, h₂, h₃, hhead, h₄⟩ := steer_split hrest h₁
    have hfrozen := freeze_begins (hoff.run hquiet h₂) hsmall h₃
    have hiff := phases_lift_iff (r := r) hfrozen (hcur hopen) hrem hpost (hfits.later hhead) h₄
    exact ⟨fun hres => hiff.mp (hres.front rfl hhead), fun hc => (hiff.mpr hc).behind hhead⟩

end Run

/-! A freeze that adaptation lifts, and one that nothing lifts. -/

/-- A line that switches to link 2 with a freeze and adaptation after it. -/
def adaptedLine : SolHoFields := ⟨0, 2, 1, 50, 0, 0, 0, 1⟩

/-- The controller is on link 1 with a window of 2000, and remembers 4000 for link 2. -/
def frozenStart : Controller :=
  ⟨{ zeroWorker with doRwnd := 1, tuneRwnd := 2000 },
    { zeroTcp with wkctx := some 0, mark := 1, histParam := schedArgs.initParam }⟩

def frozenQueue : Emulator :=
  { openedQueue with
    tcp := frozenStart.tcp
    action.heap := [{ freshObj quietLib 0 with worker := frozenStart.worker }] }

theorem freeze_lifted_iff_adapted :
    ∃ s₀ o₀, trackedStep zeroCsum 0 ⟨frozenStart, 2000, false⟩ (.action (.solUpdate 0 2)) = .ok (s₀, o₀) ∧
      HasRestored zeroCsum 0 4000 s₀ [.action (.setRwnd 0 2), .packet samplePacket, .action (.setAdapt 0 1)] := by
  have hat : List.Forall₂ (ControlInput.At 0 0)
      [.action (.solUpdate 0 2), .action (.setRwnd 0 2), .packet samplePacket, .action (.setAdapt 0 1)]
      [.action quietLib (.solUpdate 0 2), .action quietLib (.setRwnd 0 2), .packet 0 samplePacket,
        .action quietLib (.setAdapt 0 1)] := by
    exact .cons ⟨rfl, _, rfl⟩ (.cons ⟨rfl, _, rfl⟩ (.cons ⟨rfl, rfl⟩ (.cons ⟨rfl, _, rfl⟩ .nil)))
  have hrun : ∃ e' o, Machine.run (emuStep zeroCsum) frozenQueue
      [.action quietLib (.solUpdate 0 2), .action quietLib (.setRwnd 0 2), .packet 0 samplePacket,
        .action quietLib (.setAdapt 0 1)] = .ok (e', o) := ⟨_, _, rfl⟩
  obtain ⟨e', o, hr⟩ := hrun
  have hrs : solHoRequests 100 adaptedLine = .ok (solHoExpansion 100 adaptedLine) := rfl
  have hline : [.action (.solUpdate 0 2), .action (.setRwnd 0 2), .packet samplePacket,
      .action (.setAdapt 0 1)].filter ControlInput.steers =
      (lineInputs (solHoExpansion 100 adaptedLine)).filter ControlInput.steers := rfl
  obtain ⟨-, s₀, s', o₀, o₁, h₀, -, -, -, -, hiff⟩ := freeze_lifted_iff (f := adaptedLine) (e := frozenQueue)
    (q := 0) ⟨rfl, rfl, rfl⟩ rfl rfl hrs (by decide) (by decide) (by decide) (.inr rfl) hline hat hr
  refine ⟨s₀, o₀, h₀, (hiff 4000 ?_ (.inl (by decide)) ?_).mpr ⟨.inr (by decide), by decide⟩⟩
  · cases h₀
    rfl
  · intro pre i s o s' o' hpre _ _
    have hi : i ∈ [.action (.setRwnd 0 2), .packet samplePacket, .action (.setAdapt 0 1)] := hpre.subset (by simp)
    simp only [List.mem_cons, List.not_mem_nil, or_false] at hi
    obtain rfl | rfl | rfl := hi <;> exact trivial

/-- However many ticks follow the freeze of a line without a phase, the window stays clamped, with 4000 remembered. -/
theorem freeze_left_on :
    ∃ rs s₀ o₀, solHoRequests 100 frozenLine = .ok rs ∧
      lineInputs rs = [.action (.solUpdate 0 2), .action (.setRwnd 0 2)] ∧
      trackedStep zeroCsum 0 ⟨frozenStart, 2000, false⟩ (.action (.solUpdate 0 2)) = .ok (s₀, o₀) ∧
      remembered s₀.ctl.tcp 2 = .ok 4000 ∧
      ∀ n, ¬ HasRestored zeroCsum 0 4000 s₀ (.action (.setRwnd 0 2) :: List.replicate n .tick) := by
  have hswitch : ∃ s₀ o₀, trackedStep zeroCsum 0 ⟨frozenStart, 2000, false⟩ (.action (.solUpdate 0 2)) = .ok (s₀, o₀) ∧
      remembered s₀.ctl.tcp 2 = .ok 4000 := ⟨_, _, rfl, rfl⟩
  obtain ⟨s₀, o₀, h₀, hrem⟩ := hswitch
  refine ⟨_, s₀, o₀, rfl, rfl, h₀, hrem, ?_⟩
  intro n hres
  have hfreeze : ∃ s₁, trackedStep zeroCsum 0 s₀ (.action (.setRwnd 0 2)) = .ok (s₁, []) := ⟨_, rfl⟩
  obtain ⟨s₁, h₁⟩ := hfreeze
  have hoff := (switch_step (f := frozenLine) (.inr rfl) h₀).1
  have hticks : ∀ i ∈ List.replicate n ControlInput.tick, i.steers = false := by
    intro i hi
    rw [List.eq_of_mem_replicate hi]
    rfl
  have hlate : HasRestored zeroCsum 0 4000 s₁ (List.replicate n .tick) := by
    have hone : Machine.run (trackedStep zeroCsum 0) s₀ ([] ++ [.action (.setRwnd 0 2)]) = .ok (s₁, [] ++ []) :=
      run_snoc_ok.mpr ⟨s₀, [], [], rfl, h₁, rfl⟩
    exact HasRestored.front rfl hone hres
  exact never_lifted (freeze_begins hoff (by decide) h₁) hticks hlate

end Handoff
