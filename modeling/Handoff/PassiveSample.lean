import Handoff.Progress
import Handoff.QueueTable
import Handoff.Watch

/- The time a sample covers.

   A tick reads what was received since `data_rcvd` was last reset, and takes it for what came
   in during one period. Ticks keep that up among themselves, also when they are overdue,
   but `action_set_burst`, `action_set_adapt` and `action_init_tcp_sched` reset the counter and set
   the period at any time, and leave the deadline where it is. The tick after one of
   them comes one new period after the old deadline, not after the reset. `Sampling` keeps
   the times of the resets along a run; a tick covers its period if no action has reset a
   counter since the deadline before it, and, as long as the actions go to the worker that is
   sampled, only then (`full_period_iff`).

   Times are the due times of the handlers; an overdue tick runs at the time of the event
   before it. -/
namespace Handoff

open Iterate

/-- The actions that reset the counter of the worker of a queue. -/
def Action.restarts? : Action → Option UInt16
  | .setBurst q enable => if 0 < enable then some q else none
  | .setAdapt q enable => if 0 < enable then some q else none
  | .initTcpSched q _ => some q
  | _ => none

/-- The action that links the sampler to the worker. -/
def Action.configures : Action → Bool
  | .initTcpSched _ _ => true
  | _ => false

/-- What is kept of the calls: the time, when the counter of each worker was last reset, when an action
    last reset one, and whether one has reset another worker's than the sampler's. -/
structure Sampling where
  now : Nat
  reset : Nat → Nat
  armed : Nat
  strayed : Bool

/-- An action that resets the counter of the worker at `p`, where `linked` is the sampler's. A
    `SOL_INIT_SCHED` links the sampler to that worker. -/
def Sampling.restart (g : Sampling) (a : Action) (p : Nat) (linked : Option Nat) : Sampling :=
  { now := g.now
    reset := Function.update g.reset p g.now
    armed := g.now
    strayed := !a.configures && (g.strayed || decide (linked ≠ some p)) }

/-- What is kept after a call that was due at `due`. -/
def Sampling.note (g : Sampling) (h : Handler Action) (due : UInt64) (w : TcpCtx × ActionCtx × Nat) : Sampling :=
  let g := { g with now := max g.now due.toNat }
  match h with
  | .tick =>
    match w.1.wkctx with
    | some p => { g with reset := Function.update g.reset p g.now }
    | none => g
  | .event e =>
    match e.action.restarts?.bind (entry w.2.1.workers) with
    | some p => g.restart e.action p w.1.wkctx
    | none => g

/-- The run of `main` with that. -/
def sampledRun (env : Env) (scheduler : SchedulerCtx Action) (clock : Nat → Nat) (mem : TcpCtx) (n : Nat) :
    EmuState × Sampling :=
  (watchStep (emuHandlers env) (qsortEvents scheduler.events) clock Sampling.note)^[n]
    (schedulerStart (initTcpScheduler mem, actionInitCtx, 0), ⟨0, fun _ => 0, 0, false⟩)

theorem sampledRun_fst (env : Env) (scheduler : SchedulerCtx Action) (clock : Nat → Nat) (mem : TcpCtx) (n : Nat) :
    (sampledRun env scheduler clock mem n).1 = emuRun env scheduler clock mem n :=
  watch_loop ..

/-- The tick due at `due` on the worker at `p` covers the period `si`. -/
def CoversPeriod (g : Sampling) (due : UInt64) (si : Int) (p : Nat) : Prop :=
  si ≤ (max g.now due.toNat : Nat) - (g.reset p : Int)

/-- No action has reset a counter since the deadline one period before `due`. -/
def Settled (g : Sampling) (due : UInt64) (si : Int) : Prop := si ≤ 0 ∨ g.armed + si ≤ due.toNat

/-! What the actions do to the sampler. -/

section Actions
variable {lib : LibCalls} {e e' : Emulator} {a : Action} {q : UInt16}

theorem body_run {f : Body} (hb : a.body? = some (q, f)) (h : runAction lib e a = .ok e') :
    ∃ p o w, entry e.action.workers q = some p ∧ e.action.heap[p]? = some o ∧ f p o.worker e.tcp = .ok (w, e'.tcp) := by
  rw [runAction_body lib e hb] at h
  simp only [onWorker, C.bind_ok, C.pure_eq_ok, Except.ok.injEq, Prod.exists, deref_eq_ok] at h
  obtain ⟨p, o, ⟨hp, ho⟩, w, t, hf, rfl⟩ := h
  exact ⟨p, o, w, hp, ho, hf⟩

theorem body_period {f : Body} {w : WorkerCtx} {t : TcpCtx} (hb : a.body? = some (q, f)) (hq : a.restarts? = none)
    (pos : Nat) : Returns (fun r => r.2.sampleInterval = t.sampleInterval) (f pos w t) := by
  cases a with
  | solUpdate q mark =>
    cases hb
    apply Returns.ite
    · intro _
      apply Returns.bind_any
      intro p
      apply Returns.bind_any
      intro hist
      apply Returns.bind (P := fun t' => t'.sampleInterval = t.sampleInterval)
      · exact .ok rfl
      · exact fun _ ht => Returns.bind_any fun _ => .ok ht
    · intro _
      apply Returns.bind (P := fun t' => t' = t) (.ok rfl)
      intro t' ht'
      apply Returns.bind_any
      intro p
      apply Returns.ok
      simp only [ht']
  | setBurst q enable =>
    cases hb
    have he : ¬ 0 < enable := by simpa [Action.restarts?] using hq
    apply Returns.bind_any
    intro p
    apply Returns.ite
    · exact fun h => absurd h he
    · intro _
      apply Returns.ite
      · exact fun _ => Returns.bind_any fun _ => .ok rfl
      · exact fun _ => .ok rfl
  | setAdapt q enable =>
    cases hb
    have he : ¬ 0 < enable := by simpa [Action.restarts?] using hq
    apply Returns.bind_any
    intro p
    apply Returns.ok
    simp only [if_neg he]
  | initTcpSched q args => cases hq
  | setMark q mark => cases hb; exact .ok rfl
  | setReorder q enable count offset => cases hb; exact .ok rfl
  | setDrop q enable dropCount => cases hb; exact .ok rfl
  | setDedup q enable => cases hb; exact .ok rfl
  | setRwnd q rwnd => cases hb; exact .ok rfl
  | _ => cases hb

theorem quiet_action (hq : a.restarts? = none) (h : runAction lib e a = .ok e') :
    getTcpSchedulerFire e'.tcp = getTcpSchedulerFire e.tcp ∧ e'.tcp.fire = e.tcp.fire ∧
      e'.tcp.sampleInterval = e.tcp.sampleInterval ∧ e'.tcp.wkctx = e.tcp.wkctx := by
  suffices hkept : e'.tcp.fire = e.tcp.fire ∧ e'.tcp.sampleInterval = e.tcp.sampleInterval ∧
      e'.tcp.wkctx = e.tcp.wkctx by
    obtain ⟨hf, hs, hw⟩ := hkept
    exact ⟨by rw [getTcpSchedulerFire, hf, hs, getTcpSchedulerFire], hf, hs, hw⟩
  refine (action_returns (Q := fun t => t.fire = e.tcp.fire ∧ t.sampleInterval = e.tcp.sampleInterval ∧
    t.wkctx = e.tcp.wkctx) ⟨rfl, rfl, rfl⟩ ?_).value e' h
  intro q f hb pos w
  have hinit : ∀ q args, a ≠ .initTcpSched q args := by
    intro q args ha
    rw [ha] at hq
    cases hq
  constructor
  intro r hr
  have hlink := (body_link hb hinit pos).value r hr
  exact ⟨hlink.1, (body_period hb hq pos).value r hr, hlink.2⟩

/-- An action that resets a counter finds the worker, and leaves the sampler linked to it if it is one that
    links. -/
theorem restart_action (hq : a.restarts? = some q) (h : runAction lib e a = .ok e') :
    ∃ p, entry e.action.workers q = some p ∧
      e'.tcp.wkctx = if a.configures then some p else e.tcp.wkctx := by
  cases a with
  | initTcpSched r args =>
    cases hq
    obtain ⟨p, o, w, hp, -, hf⟩ := body_run rfl h
    exact ⟨p, hp, (initTcpSched_link p).value _ hf⟩
  | setBurst r enable =>
    have hr : r = q := by
      simp only [Action.restarts?, Option.ite_none_right_eq_some, Option.some.injEq] at hq
      exact hq.2
    obtain ⟨p, o, w, hp, -, hf⟩ := body_run rfl h
    exact ⟨p, hr ▸ hp, ((body_link (a := .setBurst r enable) rfl (by simp) p).value _ hf).2⟩
  | setAdapt r enable =>
    have hr : r = q := by
      simp only [Action.restarts?, Option.ite_none_right_eq_some, Option.some.injEq] at hq
      exact hq.2
    obtain ⟨p, o, w, hp, -, hf⟩ := body_run rfl h
    exact ⟨p, hr ▸ hp, ((body_link (a := .setAdapt r enable) rfl (by simp) p).value _ hf).2⟩
  | _ => cases hq

end Actions

/-! The invariant. -/

/-- The resets against the deadline `fire` and the next due time `due`, while the period is positive: the counters
    were last reset by the deadline or by an action; and if the next tick is overdue, the last
    thing that happened is such an action. -/
structure Paced (g : Sampling) (fire due : UInt64) : Prop where
  resets : ∀ p, g.reset p ≤ max fire.toNat g.armed
  overdue : due.toNat < g.now → g.armed = g.now

/-- The next due times come after `time`. -/
def Ahead (events : List (SchedulerEvent Action)) (i time : Nat) : Prop :=
  ∀ j e, i ≤ j → events[j]? = some e → time ≤ e.timeMs.toNat

/-- The sampler is paced, while times are far from wrapping around. -/
def InTime (g : Sampling) (t : TcpCtx) : Prop :=
  g.now < 2^63 → 0 < t.sampleInterval → Paced g t.fire (getTcpSchedulerFire t)

/-- A tick that has been chosen: the deadline has been advanced, from one at which the sampler was paced. -/
structure Chosen (events : List (SchedulerEvent Action)) (i : Nat) (g : Sampling) (t : TcpCtx) (due : UInt64)
    (si : Int) : Prop where
  period : si = t.sampleInterval
  fire : t.fire = due
  ahead : Ahead events i due.toNat
  paced : ∃ fire : UInt64, due = fire + UInt64.ofInt si ∧ (g.now < 2^63 → 0 < si → Paced g fire due)

/-- What holds along a run. -/
structure SamplingInv (events : List (SchedulerEvent Action)) (s : EmuState) (g : Sampling) : Prop where
  resets : ∀ p, g.reset p ≤ g.now
  armed : g.armed ≤ g.now
  linked : g.strayed = false → ∀ p, s.world.1.wkctx = some p → g.armed ≤ g.reset p
  ahead : Ahead events s.i g.now
  head : s.pc = .head → InTime g s.world.1
  event : ∀ due e si, s.pc = .wait due (.event e) si →
    due < getTcpSchedulerFire s.world.1 ∧ g.now ≤ due.toNat ∧ Ahead events s.i due.toNat ∧ InTime g s.world.1
  tick : ∀ due si, s.pc = .wait due .tick si → Chosen events s.i g s.world.1 due si

section Step
variable {env : Env} {events : List (SchedulerEvent Action)} {clock : Nat → Nat} {s : EmuState} {g : Sampling}

/-- After a tick the resets are paced again: if it was overdue, an action is what made it so. -/
theorem tick_inTime {t : TcpCtx} {due : UInt64} {i p : Nat} (hc : Chosen events i g t due t.sampleInterval)
    (hmax : t.sampleInterval ≤ intMax) (hres : ∀ p, g.reset p ≤ g.now) :
    InTime { g with now := max g.now due.toNat, reset := Function.update g.reset p (max g.now due.toNat) } t := by
  obtain ⟨-, hfire, -, fire, -, hpaced⟩ := hc
  intro hnow hpos
  simp only at hnow
  obtain ⟨-, hover⟩ := hpaced (by omega) hpos
  have hall : ∀ r, Function.update g.reset p (max g.now due.toNat) r ≤ max g.now due.toNat := by
    intro r
    rw [Function.update_apply]
    have hr := hres r
    split <;> omega
  have hnowait : max g.now due.toNat ≤ max due.toNat g.armed := by
    by_cases hlate : due.toNat < g.now
    · have harmed := hover hlate
      omega
    · omega
  -- the sum does not wrap
  have hnext : (getTcpSchedulerFire t).toNat = due.toNat + t.sampleInterval.toNat := by
    rw [intMax] at hmax
    rw [Forward.toNat_fire ⟨hpos, by rw [hfire]; omega⟩, hfire]
  constructor
  · intro r
    rw [hfire]
    exact (hall r).trans hnowait
  · intro hlate
    simp only at hlate ⊢
    have harmed := hover (by omega)
    omega

/-- After an action that resets a counter the sampler is paced, whatever the action set. -/
theorem restart_inTime {a : Action} {p : Nat} {linked : Option Nat} {t : TcpCtx} (hres : ∀ p, g.reset p ≤ g.now) :
    InTime (g.restart a p linked) t := by
  intro _ _
  constructor
  · intro r
    simp only [Sampling.restart, Function.update_apply]
    have hr := hres r
    split <;> omega
  · exact fun _ => rfl

theorem event_call {e : SchedulerEvent Action} {lib : LibCalls} {x : ActionCtx} {emu : Emulator}
    (hrun : runAction lib ⟨s.world.1, x⟩ e.action = .ok emu) (hres : ∀ p, g.reset p ≤ g.now) (harmed : g.armed ≤ g.now)
    (hlinked : g.strayed = false → ∀ p, s.world.1.wkctx = some p → g.armed ≤ g.reset p)
    (htime : InTime g s.world.1) {g' : Sampling}
    (hg' : g' = match e.action.restarts?.bind (entry x.workers) with
      | some p => g.restart e.action p s.world.1.wkctx
      | none => g) :
    (∀ p, g'.reset p ≤ g'.now) ∧ g'.armed ≤ g'.now ∧ g'.now = g.now ∧
      (g'.strayed = false → ∀ p, emu.tcp.wkctx = some p → g'.armed ≤ g'.reset p) ∧ InTime g' emu.tcp := by
  rcases hq : e.action.restarts? with _ | q
  · obtain ⟨hdue, hfire, hsi, hwk⟩ := quiet_action hq hrun
    simp only [hq, Option.bind_none] at hg'
    rw [hg']
    refine ⟨hres, harmed, rfl, fun hs p hp => hlinked hs p (hwk ▸ hp), ?_⟩
    intro hnow hpos
    rw [hfire, hdue]
    exact htime hnow (hsi ▸ hpos)
  · obtain ⟨p, hp, hlink⟩ := restart_action hq hrun
    simp only at hp
    simp only [hq, Option.bind_some, hp] at hg'
    rw [hg']
    refine ⟨?_, Nat.le_refl _, rfl, ?_, restart_inTime hres⟩
    · intro r
      simp only [Sampling.restart, Function.update_apply]
      have hr := hres r
      split <;> omega
    · intro hs r hr
      have hrp : r = p := by
        cases hcfg : e.action.configures <;> rw [hcfg] at hlink
        · have hself : g.strayed = false ∧ s.world.1.wkctx = some p := by simpa [Sampling.restart, hcfg] using hs
          exact Option.some.inj (hr.symm.trans (hlink.trans hself.2))
        · exact Option.some.inj (hr.symm.trans hlink)
      simp only [Sampling.restart, hrp, Function.update_self, le_refl]

theorem InTime.event {t : TcpCtx} {due : UInt64} (h : InTime g t) (hlt : due < getTcpSchedulerFire t)
    (hle : g.now ≤ due.toNat) : InTime { g with now := due.toNat } t := by
  intro hnow hpos
  obtain ⟨hres, -⟩ := h (Nat.lt_of_le_of_lt hle hnow) hpos
  refine ⟨hres, fun hlate => ?_⟩
  rw [UInt64.lt_iff_toNat_lt] at hlt
  simp only at hlate
  omega

/-- **One step.** -/
theorem sampling_step (hsorted : events.Pairwise fun a b => a.timeMs ≤ b.timeMs)
    (hmax : s.world.1.sampleInterval ≤ intMax) (h : SamplingInv events s g) :
    SamplingInv events (watchStep (emuHandlers env) events clock Sampling.note (s, g)).1
      (watchStep (emuHandlers env) events clock Sampling.note (s, g)).2 := by
  have hmoves := watch_moves (emuHandlers env) events clock Sampling.note s g
  generalize watchStep (emuHandlers env) events clock Sampling.note (s, g) = x at hmoves ⊢
  -- the events from the next one on are not due before it
  have hnext : ∀ {e : SchedulerEvent Action}, events[s.i]? = some e → Ahead events s.i e.timeMs.toNat := by
    intro e he j e' hij he'
    rw [← UInt64.le_iff_toNat_le]
    obtain ⟨hi, rfl⟩ := List.getElem?_eq_some_iff.mp he
    obtain ⟨hj, rfl⟩ := List.getElem?_eq_some_iff.mp he'
    obtain hlt | heq := Nat.lt_or_eq_of_le hij
    · exact List.pairwise_iff_getElem.mp hsorted s.i j hi hj hlt
    · subst heq
      exact UInt64.le_refl _
  cases hmoves with
  | finish hpc hev => exact ⟨h.resets, h.armed, h.linked, h.ahead, (fun hx => by cases hx), (fun _ _ _ hx => by cases hx),
      (fun _ _ hx => by cases hx)⟩
  | event e hpc hev hlt =>
    have hlater : ∀ {t}, Ahead events s.i t → Ahead events (s.i + 1) t :=
      fun ht j e' hj he' => ht j e' (by omega) he'
    refine ⟨h.resets, h.armed, h.linked, hlater h.ahead, (fun hx => by cases hx), ?_, (fun _ _ hx => by cases hx)⟩
    intro due e' si hx
    cases hx
    exact ⟨hlt, h.ahead s.i e (Nat.le_refl _) hev, hlater (hnext hev), h.head hpc⟩
  | tick e hpc hev hle =>
    refine ⟨h.resets, h.armed, h.linked, h.ahead, (fun hx => by cases hx), (fun _ _ _ hx => by cases hx), ?_⟩
    intro due si hx
    cases hx
    refine ⟨rfl, rfl, ?_, s.world.1.fire, rfl, h.head hpc⟩
    intro j e' hj he'
    rw [UInt64.le_iff_toNat_le] at hle
    exact hle.trans (hnext hev j e' hj he')
  | early fire hd si hpc => exact ⟨h.resets, h.armed, h.linked, h.ahead, h.head, h.event, h.tick⟩
  | call fire hd si w elapsed hpc hcall =>
    cases hd with
    | tick =>
      have hc := h.tick fire si hpc
      have hw : w.1 = s.world.1 := call_tick hcall
      obtain ⟨p, o, hp, -⟩ := handlerReady_iff.mp ⟨w, hcall⟩
      simp only [Sampling.note, hp]
      refine ⟨?_, ?_, ?_, ?_, ?_, nofun, nofun⟩
      · intro r
        simp only [Function.update_apply]
        have hr := h.resets r
        split <;> omega
      · exact h.armed.trans (Nat.le_max_left _ _)
      · intro _ r hr
        rw [hw] at hr
        obtain rfl := Option.some.inj (hp.symm.trans hr)
        simp only [Function.update_self]
        exact h.armed.trans (Nat.le_max_left _ _)
      · intro j e hj he
        exact Nat.max_le.mpr ⟨h.ahead j e hj he, hc.ahead j e hj he⟩
      · intro _
        rw [hw]
        exact tick_inTime (hc.period ▸ hc) hmax h.resets
    | event e =>
      obtain ⟨hlt, hle, hahead, htime⟩ := h.event fire e si hpc
      obtain ⟨emu, hrun, hw⟩ := C.bind_ok.mp hcall
      cases hw
      have hnow : max g.now fire.toNat = fire.toNat := Nat.max_eq_right hle
      obtain ⟨hres, harmed, hsame, hlinked, hin⟩ := @event_call s { g with now := fire.toNat } e _ _ emu hrun
        (fun p => (h.resets p).trans hle) (h.armed.trans hle) h.linked (htime.event hlt hle)
        (Sampling.note g (.event e) fire s.world) (by simp only [Sampling.note, hnow]; rfl)
      refine ⟨hres, harmed, hlinked, ?_, fun _ => hin, nofun, nofun⟩
      simp only [hsame]
      exact hahead
  | fault fire hd si f hpc hcall => exact ⟨h.resets, h.armed, h.linked, h.ahead, (fun hx => by cases hx), (fun _ _ _ hx => by cases hx),
      (fun _ _ hx => by cases hx)⟩
  | halted hpc => exact h

end Step

/-! Runs of a trace. -/

theorem nextLink_le {s : List Char} : Returns (fun r => r.1.rtt ≤ intMax) (parseInitSched.nextLink s) :=
  Returns.bind_any fun _ => Returns.bind_any fun _ => nextInt_le.bind fun _ h => .ok h

theorem parseTrace_gives {lines : List (List Char)} {scheduler : SchedulerCtx Action}
    (h : parseTrace schedulerInitCtx lines = .ok scheduler) :
    ∀ e ∈ scheduler.events, e.action.Gives (· ≤ intMax) (fun _ => True) := by
  refine (parseTrace_actions (Q := fun a => a.Gives (· ≤ intMax) fun _ => True) ?_ ?_ lines).value scheduler h
  · intro a ha
    cases a with
    | initTcpSched q args => exact ha.elim
    | _ => trivial
  · intro timeMs data rest
    apply Returns.bind_any
    intro queueNum
    apply Returns.bind_any
    intro enableRw
    apply Returns.bind nextInt_le
    intro sampleInterval hsample
    apply Returns.bind_any
    intro threshold
    apply Returns.bind_any
    intro pace
    apply Returns.bind_any
    intro startTime
    apply Returns.bind nextLink_le
    intro p₁ hp₁
    apply Returns.bind nextLink_le
    intro p₂ hp₂
    exact .ok (.cons ⟨hsample, hp₁, hp₂, rfl, trivial⟩ .nil)

section Run
variable {env : Env} {clock : Nat → Nat} {mem : TcpCtx} {lines : List (List Char)} {scheduler : SchedulerCtx Action}

theorem sampling_run (hmem : mem.Typed) (hparse : parseTrace schedulerInitCtx lines = .ok scheduler) (n : Nat) :
    SamplingInv (qsortEvents scheduler.events) (sampledRun env scheduler clock mem n).1
      (sampledRun env scheduler clock mem n).2 := by
  have hgives : ∀ e ∈ qsortEvents scheduler.events, e.action.Gives (· ≤ intMax) (fun _ => True) :=
    fun e he => parseTrace_gives hparse e ((qsortEvents_perm scheduler.events).subset he)
  have hperiods : Always (schedulerStep (emuHandlers env) (qsortEvents scheduler.events) clock)
      (SamplerInv (Periods (· ≤ intMax) fun _ => True) (qsortEvents scheduler.events))
      (schedulerStart (initTcpScheduler mem, actionInitCtx, 0)) := by
    apply sampler_run ⟨(initTcpScheduler_bounded hmem).periods, fun _ _ _ h => by cases h⟩
    · exact fun t e _ _ ht => ⟨ht.now, ht.burst, ht.rtt, ht.link⟩
    · exact fun e he lib emu h => action_periods (hgives e he) h
  have hsorted : (qsortEvents scheduler.events).Pairwise fun a b => a.timeMs ≤ b.timeMs := by
    apply (qsortEvents_sorted scheduler.events).imp
    intro a b hab
    rw [UInt64.le_iff_toNat_le]
    obtain hlt | ⟨heq, -⟩ := schedulerCompareEvent_le.mp hab
    · exact Nat.le_of_lt (UInt64.lt_iff_toNat_lt.mp hlt)
    · exact Nat.le_of_eq (congrArg UInt64.toNat heq)
  have hall : Always (watchStep (emuHandlers env) (qsortEvents scheduler.events) clock Sampling.note)
      (fun x => SamplingInv (qsortEvents scheduler.events) x.1 x.2)
      (schedulerStart (initTcpScheduler mem, actionInitCtx, 0), ⟨0, fun _ => 0, 0, false⟩) := by
    refine Always.of_step (Q := fun x => x.1.world.1.sampleInterval ≤ intMax) ?_ ?_ ?_
    · intro m
      rw [watch_loop]
      exact (hperiods m).tcp.now
    · refine ⟨fun _ => Nat.le_refl _, Nat.le_refl _, fun _ _ _ => Nat.le_refl _, fun _ _ _ _ => Nat.zero_le _, ?_,
        (fun _ _ _ h => by cases h), (fun _ _ h => by cases h)⟩
      exact fun _ _ _ => ⟨fun _ => Nat.zero_le _, fun _ => rfl⟩
    · exact fun x hmax hx => sampling_step hsorted hmax hx
  exact hall n

/-- **A tick covers its period if no action has reset a counter since the deadline before it**, for every trace
    the parser accepts, all that the library and the packet threads may do and every clock; and as
    long as the actions go to the worker that is sampled, only then. -/
theorem full_period_iff (env : Env) (clock : Nat → Nat) {mem : TcpCtx} (hmem : mem.Typed) {lines : List (List Char)}
    {scheduler : SchedulerCtx Action} (hparse : parseTrace schedulerInitCtx lines = .ok scheduler) {n p : Nat}
    {due : UInt64} {si : Int} (hpc : (emuRun env scheduler clock mem n).pc = .wait due .tick si)
    (hp : (emuRun env scheduler clock mem n).world.1.wkctx = some p)
    (hnow : (sampledRun env scheduler clock mem n).2.now < 2^63) :
    (Settled (sampledRun env scheduler clock mem n).2 due si →
      CoversPeriod (sampledRun env scheduler clock mem n).2 due si p) ∧
    ((sampledRun env scheduler clock mem n).2.strayed = false →
      (CoversPeriod (sampledRun env scheduler clock mem n).2 due si p ↔
        Settled (sampledRun env scheduler clock mem n).2 due si)) := by
  have hinv : SamplingInv (qsortEvents scheduler.events) (sampledRun env scheduler clock mem n).1
      (sampledRun env scheduler clock mem n).2 := sampling_run hmem hparse n
  rw [← sampledRun_fst] at hpc hp
  generalize sampledRun env scheduler clock mem n = x at *
  obtain ⟨s, g⟩ := x
  simp only at *
  obtain ⟨-, -, -, fire, hdue, hpaced⟩ := hinv.tick due si hpc
  have hres := hinv.resets p
  have hsufficient : Settled g due si → CoversPeriod g due si p := by
    unfold Settled CoversPeriod
    intro hset
    by_cases hpos : 0 < si
    · have hreset := (hpaced hnow hpos).resets p
      have hsum : due.toNat = (fire.toNat + (si % 2^64).toNat) % 2^64 := by
        rw [hdue, UInt64.toNat_add]
        simp [UInt64.ofInt]
      have hlt := UInt64.toNat_lt fire
      omega
    · omega
  refine ⟨hsufficient, fun hstray => ⟨?_, hsufficient⟩⟩
  unfold Settled CoversPeriod
  intro hcov
  have harmed := hinv.linked hstray p hp
  by_cases hpos : 0 < si
  · have hover := (hpaced hnow hpos).overdue
    by_cases hlate : due.toNat < g.now
    · have hlast := hover hlate
      omega
    · omega
  · exact .inl (by omega)

end Run

/-! A tick one period after the deadline, and one that comes too soon after a switch. -/

theorem full_period_iff_link :
    ∃ due si p, (emuRun quietEnv (linkScheduler 3) id zeroTcp 7).pc = .wait due .tick si ∧
      CoversPeriod (sampledRun quietEnv (linkScheduler 3) id zeroTcp 7).2 due si p := by
  have hmem : zeroTcp.Typed := by
    refine ⟨by decide, fun i p hp => ?_⟩
    obtain ⟨⟨h0, h3⟩, rfl⟩ := readAt_ok.mp hp
    simp [zeroTcp, intMax]
  have hparse : parseTrace schedulerInitCtx (linkTrace '3') = .ok (linkScheduler 3) := rfl
  have hpc : (emuRun quietEnv (linkScheduler 3) id zeroTcp 7).pc = .wait 3 .tick 3 := by
    rw [emuRun, schedulerRun, linkScheduler_sorted]
    rfl
  have hp : (emuRun quietEnv (linkScheduler 3) id zeroTcp 7).world.1.wkctx = some 0 := by
    rw [emuRun, schedulerRun, linkScheduler_sorted]
    rfl
  have hg : (sampledRun quietEnv (linkScheduler 3) id zeroTcp 7).2.now = 0 ∧
      (sampledRun quietEnv (linkScheduler 3) id zeroTcp 7).2.armed = 0 := by
    rw [sampledRun, linkScheduler_sorted]
    exact ⟨rfl, rfl⟩
  refine ⟨3, 3, 0, hpc, (full_period_iff quietEnv id hmem hparse hpc hp ?_).1 (.inr ?_)⟩
  · rw [hg.1]
    decide
  · rw [hg.2]
    decide

/-- A switch at 50 to a link with an RTT of 60, half way to the first tick. -/
def cutTrace : List (List Char) :=
  ["0,INIT,0,0,200".toList, "0,SOL_INIT_SCHED,0,1,30,90,2,0,1,2000,100,2,4000,60".toList,
    "50,SOL_HO,0,2,0,0,0,0,0,1".toList]

def cutArgs : InitTcpSchedArgs :=
  { enable := 1, sampleInterval := 30, threshold := (90 : Int) / 100, pace := (2 : Int) / 100, fire := 0, mark := 1,
    initParam := #v[⟨0, 0, 0⟩, ⟨1, 2000, 100⟩, ⟨2, 4000, 60⟩] }

def cutScheduler : SchedulerCtx Action :=
  ⟨[⟨0, .initNfqueue 0, 0⟩, ⟨200, .teardownNfqueue 0, 1⟩, ⟨0, .startNfqueue 0, 2⟩, ⟨0, .initTcpSched 0 cutArgs, 3⟩,
    ⟨50, .solUpdate 0 2, 4⟩, ⟨50, .setAdapt 0 1, 5⟩]⟩

theorem cutScheduler_sorted :
    qsortEvents cutScheduler.events =
      [⟨0, .initNfqueue 0, 0⟩, ⟨0, .startNfqueue 0, 2⟩, ⟨0, .initTcpSched 0 cutArgs, 3⟩, ⟨50, .solUpdate 0 2, 4⟩,
        ⟨50, .setAdapt 0 1, 5⟩, ⟨200, .teardownNfqueue 0, 1⟩] := by
  apply qsortEvents_unique
  · exact List.Perm.cons _ (@List.perm_append_comm _ [_, _, _, _] [_])
  · simp [schedulerCompareEvent]

/-- The tick at 60 samples the 10 ms since the switch, in passive adaptation with a window of 4000. -/
theorem switch_cuts_sample :
    parseTrace schedulerInitCtx cutTrace = .ok cutScheduler ∧
      (emuRun quietEnv cutScheduler (1000 * ·) zeroTcp 11).pc = .wait 60 .tick 60 ∧
      (emuRun quietEnv cutScheduler (1000 * ·) zeroTcp 11).world.1.wkctx = some 0 ∧
      ((emuRun quietEnv cutScheduler (1000 * ·) zeroTcp 11).world.2.1.heap[0]?).map
        (fun o => (o.worker.doBurst, o.worker.doAdapt, o.worker.tuneRwnd)) = some (0, 1, 4000) ∧
      ¬ CoversPeriod (sampledRun quietEnv cutScheduler (1000 * ·) zeroTcp 11).2 60 60 0 := by
  have hg : (sampledRun quietEnv cutScheduler (1000 * ·) zeroTcp 11).2.now = 50 ∧
      (sampledRun quietEnv cutScheduler (1000 * ·) zeroTcp 11).2.reset 0 = 50 := by
    rw [sampledRun, cutScheduler_sorted]
    exact ⟨rfl, rfl⟩
  refine ⟨rfl, ?_, ?_, ?_, ?_⟩
  · rw [emuRun, schedulerRun, cutScheduler_sorted]
    rfl
  · rw [emuRun, schedulerRun, cutScheduler_sorted]
    rfl
  · rw [emuRun, schedulerRun, cutScheduler_sorted]
    rfl
  · rw [CoversPeriod, hg.1, hg.2]
    decide

end Handoff
