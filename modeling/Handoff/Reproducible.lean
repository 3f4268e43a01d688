import Handoff.Bracketing

/- What the traffic can change in the schedule of a trace.

   The packet threads write the workers, and a few actions read from a worker what they leave in the sampler: the
   window it keeps for a link, and whether a `SOL_HO` line's update finds a window at all. Only the second one
   matters for the deadlines of the ticks, as an update that finds none leaves the sampler on its link. So two
   runs of a bracketed trace, with any packets and from any memory of `main`, make the same calls as long as
   their updates agree on that (`schedule_reproducible`): always, in a trace without `SOL_HO` lines. -/
namespace Handoff

/-! What the deadlines depend on. -/

/-- Two samplers on the same link, with the same periods to choose from. -/
structure SamePace (t t' : TcpCtx) : Prop where
  mark : t.mark = t'.mark
  link : IsLink t.mark
  burst : t.burstSampleInterval = t'.burstSampleInterval
  rtt : ∀ i p p', IsLink i → readAt t.histParam i = .ok p → readAt t'.histParam i = .ok p' → p.rtt = p'.rtt

/-- Two samplers whose ticks are due at the same times, and stay so if they have been configured. -/
structure SameTiming (configured : Prop) (t t' : TcpCtx) : Prop where
  fire : t.fire = t'.fire
  period : t.sampleInterval = t'.sampleInterval
  paced : configured → SamePace t t'

theorem SameTiming.due {configured : Prop} {t t' : TcpCtx} (h : SameTiming configured t t') :
    getTcpSchedulerFire t = getTcpSchedulerFire t' := by
  rw [getTcpSchedulerFire, getTcpSchedulerFire, h.fire, h.period]

theorem SameTiming.advance {configured : Prop} {t t' : TcpCtx} (h : SameTiming configured t t') :
    SameTiming configured (Handoff.advance t) (Handoff.advance t') := by
  refine ⟨h.due, h.period, fun hconf => ?_⟩
  obtain ⟨hmark, hlink, hburst, hrtt⟩ := h.paced hconf
  exact ⟨hmark, hlink, hburst, hrtt⟩

/-! What one action leaves. -/

/-- The link that an action which reads it leaves the sampler on. -/
def Action.linkAfter (a : Action) (w : WorkerCtx) (t : TcpCtx) : Int :=
  match a with
  | .solUpdate _ mark => if 0 < w.tuneRwnd then toInt mark.toNat else t.mark
  | _ => t.mark

/-- The period that it leaves. -/
def Action.periodAfter (a : Action) (t : TcpCtx) : C Int :=
  match a with
  | .setBurst _ enable => .ok (if 0 < enable then t.burstSampleInterval else t.sampleInterval)
  | .setAdapt _ enable =>
    if 0 < enable then do
      let p ← readAt t.histParam t.mark
      return p.rtt
    else .ok t.sampleInterval
  | _ => .ok t.sampleInterval

/-- An action that reads the link made `u` of the sampler `t`. -/
structure Steered (a : Action) (w : WorkerCtx) (t u : TcpCtx) : Prop where
  fire : u.fire = t.fire
  burst : u.burstSampleInterval = t.burstSampleInterval
  mark : u.mark = a.linkAfter w t
  period : a.periodAfter t = .ok u.sampleInterval
  rtt : ∀ i p, readAt u.histParam i = .ok p → ∃ p₀, readAt t.histParam i = .ok p₀ ∧ p.rtt = p₀.rtt

section Bodies
variable {w w' : WorkerCtx} {t t' u u' : TcpCtx} {a : Action}

theorem Steered.same (hmark : a.linkAfter w t = t.mark) (hperiod : a.periodAfter t = .ok t.sampleInterval) :
    Steered a w t t :=
  ⟨rfl, rfl, hmark.symm, hperiod, fun _ p hp => ⟨p, hp, rfl⟩⟩

theorem rtt_of_write {h hist : Vector LinkParameter 3} {i j : Int} {p r : LinkParameter} {rw : Int}
    (hp : readAt h i = .ok p) (hw : writeAt h i { p with histRw := rw } = .ok hist) (hr : readAt hist j = .ok r) :
    ∃ r₀, readAt h j = .ok r₀ ∧ r.rtt = r₀.rtt := by
  obtain ⟨⟨hi0, hi⟩, rfl⟩ := writeAt_ok.mp hw
  obtain ⟨hji, rfl⟩ | ⟨-, hr⟩ := readAt_set hr
  · have hji' : j = i := by omega
    exact ⟨p, hji' ▸ hp, rfl⟩
  · exact ⟨r, hr, rfl⟩

theorem solUpdate_steered {q : UInt16} {mark : UInt32} :
    Returns (fun r => Steered (.solUpdate q mark) w t r.2) (solUpdate mark w t) := by
  have hlast : ∀ t' : TcpCtx, Steered (.solUpdate q mark) w t t' →
      Returns (fun r => Steered (.solUpdate q mark) w t r.2) (do
        let p ← readAt t'.histParam mark.toNat
        return (workerSolUpdate w p.histRw, t') : C (WorkerCtx × TcpCtx)) :=
    fun t' ht' => Returns.bind_any fun _ => .ok ht'
  apply Returns.ite
  · intro hw
    apply Returns.bind_eq
    intro p hp
    apply Returns.bind_eq
    intro hist hwrite
    apply Returns.bind (P := Steered (.solUpdate q mark) w t)
    · apply Returns.ok
      refine ⟨rfl, rfl, ?_, rfl, fun i r hr => rtt_of_write hp hwrite hr⟩
      simp only [Action.linkAfter, if_pos hw]
    · exact hlast
  · intro hw
    refine hlast t (Steered.same ?_ rfl)
    simp only [Action.linkAfter, if_neg hw]

theorem setBurst_steered {q : UInt16} {enable : Int} :
    Returns (fun r => Steered (.setBurst q enable) w t r.2) (setBurst enable w t) := by
  apply Returns.bind_eq
  intro p hp
  apply Returns.ite
  · intro henable
    refine .ok ⟨rfl, rfl, rfl, ?_, fun _ r hr => ⟨r, hr, rfl⟩⟩
    simp only [Action.periodAfter, if_pos henable]
  · intro henable
    have hperiod : (Action.setBurst q enable).periodAfter t = .ok t.sampleInterval := by
      simp only [Action.periodAfter, if_neg henable]
    apply Returns.ite
    · intro _
      apply Returns.bind_eq
      intro hist hwrite
      exact .ok ⟨rfl, rfl, rfl, hperiod, fun i r hr => rtt_of_write hp hwrite hr⟩
    · exact fun _ => .ok (Steered.same rfl hperiod)

theorem setAdapt_steered {q : UInt16} {enable : Int} :
    Returns (fun r => Steered (.setAdapt q enable) w t r.2) (setAdapt enable w t) := by
  apply Returns.bind_eq
  intro p hp
  apply Returns.ok
  by_cases henable : 0 < enable
  · simp only [henable, if_true]
    refine ⟨rfl, rfl, rfl, ?_, fun _ r hr => ⟨r, hr, rfl⟩⟩
    simp only [Action.periodAfter, if_pos henable, hp, C.ok_bind, C.pure_eq_ok]
  · simp only [henable, if_false]
    refine Steered.same rfl ?_
    simp only [Action.periodAfter, if_neg henable]

theorem body_steered {q : UInt16} {f : Body} (hb : a.body? = some (q, f)) (hreads : a.ReadsLink) (pos : Nat) :
    Returns (fun r => Steered a w t r.2) (f pos w t) := by
  cases a with
  | solUpdate q mark => cases hb; exact solUpdate_steered
  | setBurst q enable => cases hb; exact setBurst_steered
  | setAdapt q enable => cases hb; exact setAdapt_steered
  | _ => cases hreads

/-- The periods that one action leaves two samplers of one pace. -/
theorem periodAfter_same {si si' : Int} (h : SamePace t t') (hperiod : t.sampleInterval = t'.sampleInterval)
    (hsi : a.periodAfter t = .ok si) (hsi' : a.periodAfter t' = .ok si') : si = si' := by
  have hsame : (.ok t.sampleInterval : C Int) = .ok si → (.ok t'.sampleInterval : C Int) = .ok si' → si = si' := by
    intro hsi hsi'
    cases hsi
    cases hsi'
    exact hperiod
  cases a with
  | setBurst q enable =>
    by_cases henable : 0 < enable
    · simp only [Action.periodAfter, if_pos henable, Except.ok.injEq] at hsi hsi'
      rw [← hsi, ← hsi', h.burst]
    · simp only [Action.periodAfter, if_neg henable] at hsi hsi'
      exact hsame hsi hsi'
  | setAdapt q enable =>
    by_cases henable : 0 < enable
    · simp only [Action.periodAfter, if_pos henable] at hsi hsi'
      obtain ⟨p, hp, hsi⟩ := C.bind_ok.mp hsi
      obtain ⟨p', hp', hsi'⟩ := C.bind_ok.mp hsi'
      cases hsi
      cases hsi'
      exact h.rtt t.mark p p' h.link hp (h.mark ▸ hp')
    · simp only [Action.periodAfter, if_neg henable] at hsi hsi'
      exact hsame hsi hsi'
  | _ => exact hsame hsi hsi'

theorem linkAfter_same (h : SamePace t t') (hpos : a.Positive)
    (hwindow : ∀ q mark, a = .solUpdate q mark → (0 < w.tuneRwnd ↔ 0 < w'.tuneRwnd)) :
    a.linkAfter w t = a.linkAfter w' t' ∧ IsLink (a.linkAfter w t) := by
  cases a with
  | solUpdate q mark =>
    have hlink : IsLink (toInt mark.toNat) := by
      obtain rfl | rfl := hpos
      · exact .inl (by decide)
      · exact .inr (by decide)
    have hiff := hwindow q mark rfl
    by_cases hw : 0 < w.tuneRwnd
    · simp only [Action.linkAfter, if_pos hw, if_pos (hiff.mp hw)]
      exact ⟨trivial, hlink⟩
    · simp only [Action.linkAfter, if_neg hw, if_neg (mt hiff.mpr hw)]
      exact ⟨h.mark, h.link⟩
  | _ => exact ⟨h.mark, h.link⟩

/-- **An action that reads the link keeps the timing**, whatever else the two workers hold. -/
theorem Steered.sameTiming {configured : Prop} (hu : Steered a w t u) (hu' : Steered a w' t' u')
    (h : SameTiming configured t t') (hconf : configured) (hpos : a.Positive)
    (hwindow : ∀ q mark, a = .solUpdate q mark → (0 < w.tuneRwnd ↔ 0 < w'.tuneRwnd)) :
    SameTiming configured u u' := by
  have hpaced := h.paced hconf
  obtain ⟨hmark, hlink⟩ := linkAfter_same hpaced hpos hwindow
  refine ⟨?_, periodAfter_same hpaced h.period hu.period hu'.period, fun _ => ⟨?_, ?_, ?_, ?_⟩⟩
  · rw [hu.fire, hu'.fire, h.fire]
  · rw [hu.mark, hu'.mark, hmark]
  · rw [hu.mark]
    exact hlink
  · rw [hu.burst, hu'.burst, hpaced.burst]
  · intro i p p' hi hp hp'
    obtain ⟨r, hr, hpr⟩ := hu.rtt i p hp
    obtain ⟨r', hr', hpr'⟩ := hu'.rtt i p' hp'
    rw [hpr, hpr', hpaced.rtt i r r' hi hr hr']

/-- What a configuration makes of the sampler is up to its arguments. -/
structure ConfiguredBy (args : InitTcpSchedArgs) (u : TcpCtx) : Prop where
  fire : u.fire = UInt64.ofInt args.fire
  period : u.sampleInterval = args.rtt₁
  burst : u.burstSampleInterval = args.sampleInterval
  mark : u.mark = 1
  rtt₁ : ∀ p, readAt u.histParam 1 = .ok p → p.rtt = args.rtt₁
  rtt₂ : ∀ p, readAt u.histParam 2 = .ok p → p.rtt = args.rtt₂

theorem initTcpSched_configured {args : InitTcpSchedArgs} (hmark : args.mark = 1) (pos : Nat) :
    Returns (fun r => ConfiguredBy args r.2) (initTcpSched args pos w t) := by
  apply Returns.bind_eq
  intro p hp
  rw [hmark] at hp
  obtain ⟨-, rfl⟩ := readAt_ok.mp hp
  apply Returns.bind_any
  intro q
  refine .ok ⟨rfl, rfl, rfl, hmark, fun p hp => ?_, fun p hp => ?_⟩
  · obtain ⟨h, -⟩ | ⟨-, hp⟩ := readAt_set (h := by decide) hp
    · cases h
    · obtain ⟨-, rfl⟩ | ⟨h, -⟩ := readAt_set (h := by decide) hp
      · rfl
      · exact absurd rfl h
  · obtain ⟨-, rfl⟩ | ⟨h, -⟩ := readAt_set (h := by decide) hp
    · rfl
    · exact absurd rfl h

theorem ConfiguredBy.sameTiming {configured : Prop} {args : InitTcpSchedArgs} (hu : ConfiguredBy args u)
    (hu' : ConfiguredBy args u') : SameTiming configured u u' := by
  refine ⟨by rw [hu.fire, hu'.fire], by rw [hu.period, hu'.period], fun _ => ⟨?_, ?_, ?_, ?_⟩⟩
  · rw [hu.mark, hu'.mark]
  · exact .inl hu.mark
  · rw [hu.burst, hu'.burst]
  · intro i p p' hi hp hp'
    obtain rfl | rfl := hi
    · rw [hu.rtt₁ p hp, hu'.rtt₁ p' hp']
    · rw [hu.rtt₂ p hp, hu'.rtt₂ p' hp']

end Bodies

/-! Two emulators that execute one action. -/

section Actions
variable {lib lib' : LibCalls} {e e' u u' : Emulator} {a : Action}

/-- The update of the window of a queue finds one for both workers or for neither. -/
def WindowsAgree (e e' : Emulator) (a : Action) : Prop :=
  ∀ q mark, a = .solUpdate q mark → ∀ p o p' o', deref e.action.workers e.action.heap q = .ok (p, o) →
    deref e'.action.workers e'.action.heap q = .ok (p', o') → (0 < o.worker.tuneRwnd ↔ 0 < o'.worker.tuneRwnd)

theorem runAction_worker {q : UInt16} {f : Body} (hb : a.body? = some (q, f)) (h : runAction lib e a = .ok u) :
    ∃ p o w, deref e.action.workers e.action.heap q = .ok (p, o) ∧ f p o.worker e.tcp = .ok (w, u.tcp) := by
  rw [runAction_body lib e hb] at h
  obtain ⟨⟨p, o⟩, hp, h⟩ := C.bind_ok.mp h
  obtain ⟨⟨w, t⟩, hf, h⟩ := C.bind_ok.mp h
  cases h
  exact ⟨p, o, w, hp, hf⟩

/-- **One action keeps the timing**, and a configuration brings it about. -/
theorem action_sameTiming {configured : Prop} (hpos : a.Positive) (hone : a.OnLinkOne)
    (hreads : a.ReadsLink → configured) (hwindow : WindowsAgree e e' a) (hrun : runAction lib e a = .ok u)
    (hrun' : runAction lib' e' a = .ok u') (h : SameTiming configured e.tcp e'.tcp) :
    SameTiming (configured ∨ a.Configures) u.tcp u'.tcp := by
  by_cases hc : a.Configures
  · obtain ⟨q, args, rfl⟩ := hc.eq
    obtain ⟨p, o, w, -, hf⟩ := runAction_worker rfl hrun
    obtain ⟨p', o', w', -, hf'⟩ := runAction_worker rfl hrun'
    have hmark : args.mark = 1 := hone q args rfl
    exact ((initTcpSched_configured hmark p).value _ hf).sameTiming ((initTcpSched_configured hmark p').value _ hf')
  · have hconf : configured ∨ a.Configures → configured := fun h => h.resolve_right hc
    suffices hsame : SameTiming configured u.tcp u'.tcp from
      ⟨hsame.fire, hsame.period, fun h => hsame.paced (hconf h)⟩
    by_cases hr : a.ReadsLink
    · rcases hb : a.body? with _ | ⟨q, f⟩
      · cases a with
        | solUpdate q mark | setBurst q enable | setAdapt q enable => cases hb
        | _ => cases hr
      · obtain ⟨p, o, w, hp, hf⟩ := runAction_worker hb hrun
        obtain ⟨p', o', w', hp', hf'⟩ := runAction_worker hb hrun'
        refine ((body_steered hb hr p).value _ hf).sameTiming ((body_steered hb hr p').value _ hf') h (hreads hr) hpos ?_
        rintro r mark rfl
        cases hb
        exact hwindow q mark rfl p o p' o' hp hp'
    · have hleaves := Action.leaves_of_not hc hr
      rw [(action_leaves hleaves _ _).value u hrun, (action_leaves hleaves _ _).value u' hrun']
      exact h

end Actions

/-! Two runs of one trace under one clock. -/

/-- Two runs are at the same place of the loop, having read the clock as often and made the same calls. -/
structure SameSchedule (s s' : EmuState) : Prop where
  i : s.i = s'.i
  pc : s.pc = s'.pc
  reads : s.reads = s'.reads
  calls : s.calls = s'.calls
  timing : SameTiming (∃ c ∈ executed s, c.action.Configures) s.world.1 s'.world.1

/-- The update that the two runs are about to make finds a window in both or in neither. -/
def UpdatesAgree (env env' : Env) (s s' : EmuState) : Prop :=
  ∀ fire e si, s.pc = .wait fire (.event e) si →
    WindowsAgree ⟨s.world.1, env.disturb s.world.2.2 s.world.2.1⟩
      ⟨s'.world.1, env'.disturb s'.world.2.2 s'.world.2.1⟩ e.action

section Runs
variable {env env' : Env} {events : List (SchedulerEvent Action)} {clock : Nat → Nat} {s s' : EmuState}

theorem step_call (hready : CallReady env clock s) {fire : UInt64} {h : Handler Action} {si : Int}
    (hpc : s.pc = .wait fire h si) (hlate : fire.toNat ≤ clock (s.reads + 1) - clock 0) :
    ∃ w, (emuHandlers env).call h s.world = .ok w ∧
      schedulerStep (emuHandlers env) events clock s =
        { s with reads := s.reads + 1, pc := .head, world := w,
                 calls := s.calls ++ [⟨h, fire, clock (s.reads + 1) - clock 0, si⟩] } := by
  obtain ⟨w, hw⟩ := handlerReady_iff.mpr (hready fire h si hpc hlate)
  refine ⟨w, hw, ?_⟩
  rw [wait_late _ events s hpc (Nat.not_lt.mpr hlate), afterCall, hw]

theorem call_sameTiming {w w' : TcpCtx × ActionCtx × Nat} {fire : UInt64} {h : Handler Action} {si : Int}
    (hr : Regular events) (hpos : ∀ e ∈ events, e.action.Positive) (hb : Bracketed events) (hindexed : Indexed events s)
    (hpc : s.pc = .wait fire h si) (hwindow : UpdatesAgree env env' s s') (hcall : (emuHandlers env).call h s.world = .ok w)
    (hcall' : (emuHandlers env').call h s'.world = .ok w')
    (hsame : SameTiming (∃ c ∈ executed s, c.action.Configures) s.world.1 s'.world.1) :
    SameTiming (∃ c ∈ executed s ++ (Call.event? ⟨h, fire, 0, si⟩).toList, c.action.Configures) w.1 w'.1 := by
  cases h with
  | tick =>
    rw [call_tick hcall, call_tick hcall', Call.event?, Option.toList_none, List.append_nil]
    exact hsame
  | event e =>
    simp only [Indexed, hpc] at hindexed
    obtain ⟨k, -, hes, hget⟩ := hindexed
    have he : e ∈ events := List.mem_of_getElem? hget
    obtain ⟨emu, hrun, hw⟩ := C.bind_ok.mp hcall
    obtain ⟨emu', hrun', hw'⟩ := C.bind_ok.mp hcall'
    cases hw
    cases hw'
    have hreads : e.action.ReadsLink → ∃ c ∈ executed s, c.action.Configures :=
      fun hreads => hes ▸ hb.configured hr.strict hget hreads
    have hafter := action_sameTiming (hpos e he) (hr.one e he) hreads (hwindow fire e si hpc) hrun hrun' hsame
    refine ⟨hafter.fire, hafter.period, fun hconf => hafter.paced ?_⟩
    obtain ⟨c, hc, hconf⟩ := hconf
    obtain hc | hc := List.mem_append.mp hc
    · exact .inl ⟨c, hc, hconf⟩
    · exact .inr (List.mem_singleton.mp hc ▸ hconf)

/-- **Step lemma.** Two runs that are at the same place take the same step. -/
theorem sameSchedule_step (hr : Regular events) (hpos : ∀ e ∈ events, e.action.Positive) (hb : Bracketed events)
    (hindexed : Indexed events s) (hready : CallReady env clock s) (hready' : CallReady env' clock s')
    (hwindow : UpdatesAgree env env' s s')
    (h : SameSchedule s s') :
    SameSchedule (schedulerStep (emuHandlers env) events clock s) (schedulerStep (emuHandlers env') events clock s') := by
  obtain ⟨hi, hpcs, hreads, hcalls, htiming⟩ := h
  have hmoves := schedulerStep_moves (emuHandlers env) events clock s
  generalize schedulerStep (emuHandlers env) events clock s = t at hmoves ⊢
  cases hmoves with
  | finish hpc hev =>
    rw [step_done (hpcs ▸ hpc) (hi ▸ hev)]
    exact ⟨hi, rfl, hreads, hcalls, htiming⟩
  | event e hpc hev hlt =>
    rw [step_event (hpcs ▸ hpc) (hi ▸ hev) (htiming.due ▸ hlt)]
    exact ⟨congrArg (· + 1) hi, by rw [htiming.period], hreads, hcalls, htiming⟩
  | tick e hpc hev hle =>
    rw [step_tick (hpcs ▸ hpc) (hi ▸ hev) (htiming.due ▸ hle)]
    exact ⟨hi, by rw [htiming.due, htiming.period], hreads, hcalls, htiming.advance⟩
  | early fire hd si hpc hearly =>
    have hstep' : schedulerStep (emuHandlers env') events clock s' = { s' with reads := s'.reads + 1 } := by
      rw [hreads] at hearly
      simp only [schedulerStep, hpcs ▸ hpc, if_pos hearly]
    rw [hstep']
    exact ⟨hi, hpcs, congrArg (· + 1) hreads, hcalls, htiming⟩
  | call fire hd si w hpc hlate hcall =>
    obtain ⟨w', hcall', hstep'⟩ := step_call hready' (hpcs ▸ hpc) (hreads ▸ hlate)
    rw [hstep']
    refine ⟨hi, rfl, congrArg (· + 1) hreads, by rw [hcalls, hreads], ?_⟩
    rw [@executed_snoc _ _ s _ ⟨hd, fire, clock (s.reads + 1) - clock 0, si⟩ rfl]
    exact call_sameTiming hr hpos hb hindexed hpc hwindow hcall hcall' htiming
  | fault fire hd si f hpc hlate hcall =>
    obtain ⟨w, hw⟩ := handlerReady_iff.mpr (hready fire hd si hpc hlate)
    cases hcall.symm.trans hw
  | halted hpc =>
    have hstep' : schedulerStep (emuHandlers env') events clock s' = s' := by
      obtain hpc | ⟨f, hpc⟩ := hpc <;> simp only [schedulerStep, hpcs ▸ hpc]
    rw [hstep']
    exact ⟨hi, hpcs, hreads, hcalls, htiming⟩

/-- **Run lemma.** Two runs whose updates agree stay at the same place. -/
theorem sameSchedule_run {scheduler : SchedulerCtx Action} (hr : Regular (qsortEvents scheduler.events))
    (hpos : ∀ e ∈ qsortEvents scheduler.events, e.action.Positive) (hb : Bracketed (qsortEvents scheduler.events))
    (hlib : env.Obliging) (hlib' : env'.Obliging) (mem mem' : TcpCtx)
    (hwindow : ∀ n, UpdatesAgree env env' (emuRun env scheduler clock mem n) (emuRun env' scheduler clock mem' n))
    (n : Nat) : SameSchedule (emuRun env scheduler clock mem n) (emuRun env' scheduler clock mem' n) := by
  induction n with
  | zero => exact ⟨rfl, rfl, rfl, rfl, ⟨rfl, rfl, fun ⟨c, hc, _⟩ => by cases hc⟩⟩
  | succ n ih =>
    have hrun := @bracketed_run env clock scheduler hr hb _ (lasting_link hr hb hpos) mem n
    have hrun' := @bracketed_run env' clock scheduler hr hb _ (lasting_link hr hb hpos) mem' n
    rw [emuRun, emuRun, schedulerRun, schedulerRun, Function.iterate_succ_apply', Function.iterate_succ_apply']
    exact sameSchedule_step hr hpos hb hrun.indexed (hrun.ready hr hb hpos hlib) (hrun'.ready hr hb hpos hlib')
      (hwindow n) ih

end Runs

/-- **The packets do not move the schedule of a bracketed trace**, as long as its updates find a window in
    both runs or in neither: at each step the two are at the same place of the loop and have made the same
    calls, due and made at the same times and with the same periods, whatever the packet threads do, the
    memory of `main` was and the library returns, if it does what it is asked to. -/
theorem schedule_reproducible {lines : List (List Char)} (hlines : ∀ line ∈ lines, NonNegLine line)
    {scheduler : SchedulerCtx Action} (hparse : parseTrace schedulerInitCtx lines = .ok scheduler)
    (hpos : ∀ e ∈ scheduler.events, e.action.Positive) (hb : Bracketed scheduler.events) {env env' : Env}
    (hlib : env.Obliging) (hlib' : env'.Obliging) (clock : Nat → Nat) (mem mem' : TcpCtx)
    (hwindow : ∀ n, UpdatesAgree env env' (emuRun env scheduler clock mem n) (emuRun env' scheduler clock mem' n))
    (n : Nat) :
    (emuRun env scheduler clock mem n).pc = (emuRun env' scheduler clock mem' n).pc ∧
      (emuRun env scheduler clock mem n).calls = (emuRun env' scheduler clock mem' n).calls := by
  have hr := regular_trace hlines hparse
  have hb' := hb.perm (qsortEvents_perm scheduler.events).symm
  have hpos' : ∀ e ∈ qsortEvents scheduler.events, e.action.Positive :=
    fun e he => hpos e ((qsortEvents_perm _).mem_iff.mp he)
  have hsame := sameSchedule_run hr hpos' hb' hlib hlib' mem mem' hwindow n
  exact ⟨hsame.pc, hsame.calls⟩

/-! The trace that switches to its second link. -/

theorem switchTrace_inRange : ∀ line ∈ switchTrace, NonNegLine line := by
  intro line hline
  obtain hline | hline := List.mem_append.mp hline
  · exact linkTrace_inRange (.inr rfl) line hline
  · rw [List.mem_singleton.mp hline]
    exact ⟨_, _, _, _, rfl, by decide, rfl, fun _ =>
      .field rfl (by decide) <| .field rfl (by decide) <| .field rfl (by decide) <| .field rfl (by decide) <|
      .field rfl (by decide) <| .field rfl (by decide) <| .field rfl (by decide) <| .field rfl (by decide) <|
      .done rfl⟩

theorem switchScheduler_positive : ∀ e ∈ switchScheduler.events, e.action.Positive := by
  intro e he
  obtain he | he := List.mem_append.mp he
  · exact linkScheduler_positive e he
  · simp only [List.mem_cons, List.not_mem_nil, or_false] at he
    obtain rfl | rfl | rfl | rfl := he
    · exact .inr rfl
    · trivial
    · trivial
    · trivial

/-- The memory of `malloc` holds zeros, and the packets between two handler calls carry 1000 bytes. -/
def busyEnv : Env := ⟨fun _ => quietLib, fun _ _ w => { w with dataRcvd := w.dataRcvd + 1000, lastAck := 7 }⟩

/-- The events in the order of the scheduler. -/
def switchEvents : List (SchedulerEvent Action) :=
  [⟨0, .initNfqueue 0, 0⟩, ⟨0, .startNfqueue 0, 2⟩, ⟨0, .initTcpSched 0 (linkArgs 3), 3⟩, ⟨2, .solUpdate 0 2, 4⟩,
    ⟨2, .setBurst 0 1, 5⟩, ⟨3, .setBurst 0 0, 6⟩, ⟨3, .setAdapt 0 1, 7⟩, ⟨5, .teardownNfqueue 0, 1⟩]

theorem switchScheduler_sorted : qsortEvents switchScheduler.events = switchEvents := by
  apply qsortEvents_unique
  · exact List.Perm.cons _ (@List.perm_append_comm _ [_, _, _, _, _, _] [_])
  · simp [switchEvents, schedulerCompareEvent]

/-- The one update finds the window of the first link. -/
theorem switch_updates_agree (n : Nat) :
    UpdatesAgree probeEnv busyEnv (emuRun probeEnv switchScheduler id strayTcp n)
      (emuRun busyEnv switchScheduler id zeroTcp n) := by
  have hindexed := @indexed_run _ _ (emuHandlers probeEnv) switchEvents id
    (initTcpScheduler strayTcp, actionInitCtx, 0)
  rw [emuRun, emuRun, schedulerRun, schedulerRun, switchScheduler_sorted]
  intro fire e si hpc q mark hact p o p' o' ho ho'
  obtain hn | hn := Nat.lt_or_ge n 8
  · interval_cases n
    case «7» =>
      cases hpc
      cases hact
      cases ho
      cases ho'
      decide
    all_goals cases hpc <;> cases hact
  · -- the update has been executed by then, and no later event is one
    have hat := hindexed n
    simp only [Indexed, hpc] at hat
    obtain ⟨k, -, hes, hget⟩ := hat
    have hmono := (@executed_mono _ _ (emuHandlers probeEnv) switchEvents id
      (schedulerStart (initTcpScheduler strayTcp, actionInitCtx, 0)) _ _ hn).length_le
    rw [hes, List.length_take] at hmono
    have hfour : 4 ≤ k := (show 4 ≤ _ from hmono).trans (Nat.min_le_left _ _)
    have hlt : k < 8 := (List.getElem?_eq_some_iff.mp hget).1
    interval_cases k <;> cases hget <;> cases hact

theorem schedule_reproducible_switch :
    (emuRun probeEnv switchScheduler id strayTcp 21).pc = (emuRun busyEnv switchScheduler id zeroTcp 21).pc ∧
      (emuRun probeEnv switchScheduler id strayTcp 21).calls =
        (emuRun busyEnv switchScheduler id zeroTcp 21).calls := by
  have hparse : parseTrace schedulerInitCtx switchTrace = .ok switchScheduler := rfl
  exact schedule_reproducible switchTrace_inRange hparse switchScheduler_positive (by decide) (fun k => ⟨rfl, rfl⟩)
    (fun k => ⟨rfl, rfl⟩) id strayTcp zeroTcp switch_updates_agree 21

end Handoff
