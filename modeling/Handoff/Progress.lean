import Handoff.SamplerPeriod
import Mathlib.Tactic.IntervalCases

/- Whether the emulation gets to its end.

   `scheduler_run` makes progress as long as no tick is due while the sampler's period is not
   positive (`PeriodReady`) and no handler follows a pointer or an index that leads nowhere
   (`CallReady`); `emulation_progresses` says that these are exactly the runs that make
   progress. The period starts out as 0, with a deadline no event of a trace reaches. From
   then on it is one of the numbers of a `SOL_INIT_SCHED` line, so a trace without zeros
   there keeps it positive (`armed_run`), and one with a zero can stop the emulation for
   ever (`zero_rtt_never_ends`). -/
namespace Handoff

open Iterate

/-! What progress is, and what it takes. -/

section Progress
variable {α ρ : Type}

/-- The run ends having called the handler of each event once and in order; at every tick the period
    is positive, and the deadline moves forward. -/
structure Progresses (events : List (SchedulerEvent α)) (run : Nat → RunState α ρ) : Prop where
  ends : ∃ n, (run n).pc = .done ∧ (run n).calls.filterMap Call.event? = events
  period : ∀ n fire si, (run n).pc = .wait fire .tick si → 0 < (run n).world.1.sampleInterval
  forward : ∀ n e, (run n).pc = .head → events[(run n).i]? = some e →
    getTcpSchedulerFire (run n).world.1 ≤ e.timeMs →
    (run n).world.1.fire.toNat < (run (n + 1)).world.1.fire.toNat

/-- At the loop test no tick is due while the period is not positive. -/
def PeriodReady (events : List (SchedulerEvent α)) (s : RunState α ρ) : Prop :=
  s.pc = .head → ∀ e, events[s.i]? = some e → getTcpSchedulerFire s.world.1 ≤ e.timeMs →
    0 < s.world.1.sampleInterval

end Progress

/-- A state of the emulator's `scheduler_run`. -/
abbrev EmuState := RunState Action (ActionCtx × Nat)

/-- The handler that the inner loop is about to call finds what it needs. -/
def CallReady (env : Env) (clock : Nat → Nat) (s : EmuState) : Prop :=
  ∀ fire h si, s.pc = .wait fire h si → fire.toNat ≤ clock (s.reads + 1) - clock 0 →
    HandlerReady env h s.world

/-- `main` after `n` steps of the loop, started in memory `mem`. -/
def emuRun (env : Env) (scheduler : SchedulerCtx Action) (clock : Nat → Nat) (mem : TcpCtx) (n : Nat) : EmuState :=
  schedulerRun (emuHandlers env) scheduler clock (initTcpScheduler mem, actionInitCtx, 0) n

/-- The `int` fields of the sampler's memory hold `int`s. -/
def TcpCtx.Typed (mem : TcpCtx) : Prop :=
  mem.burstSampleInterval ≤ intMax ∧ ∀ i p, readAt mem.histParam i = .ok p → p.rtt ≤ intMax

theorem initTcpScheduler_bounded {mem : TcpCtx} (h : mem.Typed) : Bounded (initTcpScheduler mem) :=
  ⟨by simp [initTcpScheduler], ⟨by simp [initTcpScheduler, intMax], h.1, fun i p _ hp => h.2 i p hp, trivial⟩⟩

section Run
variable {env : Env} {events : List (SchedulerEvent Action)} {clock : Nat → Nat} {s : EmuState}

/-! The invariants of a run. -/

theorem ready_never_crashes (hcall : Always (schedulerStep (emuHandlers env) events clock) (CallReady env clock) s)
    (h0 : ∀ f, s.pc ≠ .crashed f) :
    Always (schedulerStep (emuHandlers env) events clock) (fun s => ∀ f, s.pc ≠ .crashed f) s := by
  refine hcall.of_step h0 ?_
  intro s hready hs f
  have hmoves := schedulerStep_moves (emuHandlers env) events clock s
  generalize schedulerStep (emuHandlers env) events clock s = s' at hmoves ⊢
  cases hmoves with
  | fault fire h si g hpc hlate hcall =>
    obtain ⟨w, hw⟩ := handlerReady_iff.mpr (hready fire h si hpc hlate)
    cases hcall.symm.trans hw
  | early fire h si hpc hearly => exact hpc ▸ by simp
  | halted hpc => exact hs f
  | _ => simp

/-- What holds of the sampler, and the event that waits for its time is one of the array. -/
structure SamplerInv (Q : TcpCtx → Prop) (events : List (SchedulerEvent Action)) (s : EmuState) : Prop where
  tcp : Q s.world.1
  listed : ∀ fire e si, s.pc = .wait fire (.event e) si → e ∈ events

/-- **Run lemma.** What the ticks and the actions of the events keep of the sampler, the run keeps. -/
theorem sampler_run {Q : TcpCtx → Prop} (h0 : SamplerInv Q events s)
    (htick : ∀ t e, e ∈ events → getTcpSchedulerFire t ≤ e.timeMs → Q t → Q (advance t))
    (haction : ∀ e ∈ events, ∀ lib emu, Q emu.tcp → Returns (fun e' => Q e'.tcp) (runAction lib emu e.action)) :
    Always (schedulerStep (emuHandlers env) events clock) (SamplerInv Q events) s := by
  apply always_of_step h0
  intro s hs
  have hmoves := schedulerStep_moves (emuHandlers env) events clock s
  generalize schedulerStep (emuHandlers env) events clock s = s' at hmoves ⊢
  cases hmoves with
  | finish hpc hev => exact ⟨hs.tcp, fun _ _ _ h => by cases h⟩
  | event e hpc hev hlt =>
    refine ⟨hs.tcp, fun _ _ _ h => ?_⟩
    cases h
    exact List.mem_of_getElem? hev
  | tick e hpc hev hle =>
    exact ⟨htick _ e (List.mem_of_getElem? hev) hle hs.tcp, fun _ _ _ h => by cases h⟩
  | early fire h si hpc hearly => exact ⟨hs.tcp, hs.listed⟩
  | call fire h si w hpc hlate hcall =>
    refine ⟨?_, fun _ _ _ h => by cases h⟩
    -- a tick only reads the sampler, so all that changes it is an event of the array
    cases h with
    | tick => exact (call_tick hcall) ▸ hs.tcp
    | event e =>
      obtain ⟨emu, hrun, hw⟩ := C.bind_ok.mp hcall
      cases hw
      exact (haction e (hs.listed fire e si hpc) _ ⟨s.world.1, _⟩ hs.tcp).value emu hrun
  | fault fire h si f hpc hlate hcall => exact ⟨hs.tcp, fun _ _ _ h => by cases h⟩
  | halted hpc => exact hs

/-- The events of a trace in range keep the sampler's numbers in range. -/
theorem bounded_run (hfits : ∀ e ∈ events, e.Fits) (h0 : SamplerInv Bounded events s) :
    Always (schedulerStep (emuHandlers env) events clock) (SamplerInv Bounded events) s := by
  apply sampler_run h0
  · intro t e he hle ht
    -- the deadline a tick leaves is at most the time of the next event
    have htime := (hfits e he).1
    rw [UInt64.le_iff_toNat_le] at hle
    exact ⟨Nat.lt_of_le_of_lt hle (by omega), ⟨ht.periods.now, ht.periods.burst, ht.periods.rtt, trivial⟩⟩
  · exact fun e he lib emu h => action_bounded (hfits e he).2 h

theorem armed_run (hfits : ∀ e ∈ events, e.Fits) (hpos : ∀ e ∈ events, e.action.Positive)
    (h0 : SamplerInv Armed events s) :
    Always (schedulerStep (emuHandlers env) events clock) (SamplerInv Armed events) s := by
  apply sampler_run h0
  · intro t e _ _ ht
    obtain hnone | hper := ht
    · exact .inl hnone
    · exact .inr ⟨hper.now, hper.burst, hper.rtt, hper.link⟩
  · exact fun e he lib emu h => action_armed (hpos e he) (hfits e he).2 h

/-- A tick of a sampler that is linked to no worker faults. -/
theorem unlinked_not_due (hmono : Monotone clock) (hunb : ∀ b, ∃ n, b ≤ clock n)
    (hok : Always (schedulerStep (emuHandlers env) events clock) (fun s => ∀ f, s.pc ≠ .crashed f) s)
    (hnone : s.world.1.wkctx = none) {e : SchedulerEvent Action} (hpc : s.pc = .head)
    (hev : events[s.i]? = some e) : e.timeMs < getTcpSchedulerFire s.world.1 := by
  by_contra hlt
  have hle := UInt64.not_lt.mp hlt
  let s₁ : EmuState := { s with
    pc := .wait (getTcpSchedulerFire s.world.1) .tick s.world.1.sampleInterval
    world := (advance s.world.1, s.world.2) }
  have hr₁ : Reaches (schedulerStep (emuHandlers env) events clock) s s₁ := ⟨1, step_tick hpc hev hle⟩
  obtain ⟨k, elapsed, -, hr⟩ := wait_ends (emuHandlers env) events hmono hunb s₁ rfl
  rcases hc : (emuHandlers env).call .tick s₁.world with f | w
  · -- the call faults, and no state of the run is a fault
    have hnow := (hok.later (hr₁.trans hr)).now f
    rw [afterCall, hc] at hnow
    exact hnow rfl
  · obtain ⟨p, o, hp, -⟩ := handlerReady_iff.mp ⟨w, hc⟩
    cases hnone.symm.trans hp

/-! Progress. -/

theorem ready_progresses (hmono : Monotone clock) (hunb : ∀ b, ∃ n, b ≤ clock n)
    (hfits : ∀ e ∈ events, e.Fits) {w : TcpCtx × ActionCtx × Nat} (hw : Bounded w.1)
    (hper : Always (schedulerStep (emuHandlers env) events clock) (PeriodReady events) (schedulerStart w))
    (hcall : Always (schedulerStep (emuHandlers env) events clock) (CallReady env clock) (schedulerStart w)) :
    Progresses events (fun n => (schedulerStep (emuHandlers env) events clock)^[n] (schedulerStart w)) := by
  have hinv : Always (schedulerStep (emuHandlers env) events clock) (SamplerInv Bounded events) (schedulerStart w) :=
    bounded_run hfits ⟨hw, fun _ _ _ h => by cases h⟩
  have hforward : Always (schedulerStep (emuHandlers env) events clock) (TickReady events) (schedulerStart w) :=
    fun n hpc e hev hle => (hinv n).tcp.forward (hper n hpc e hev hle)
  constructor
  case ends =>
    obtain ⟨t, ⟨n, hn⟩, ht⟩ := loop_ends (emuHandlers env) events hmono hunb _ _ rfl rfl hforward
    refine ⟨n, ?_⟩
    obtain ⟨f, hf⟩ | ⟨cs, hcs, -, hpc, hmerged⟩ := ht
    · exact absurd hf (hn ▸ ready_never_crashes hcall (fun f h => by cases h) n f)
    · rw [hn, hcs]
      exact ⟨hpc, hmerged.calls⟩
  case period =>
    -- the choice of a tick was ready, and nothing writes the period before its call
    have hwait : Always (schedulerStep (emuHandlers env) events clock)
        (fun s => ∀ fire si, s.pc = .wait fire .tick si → 0 < s.world.1.sampleInterval) (schedulerStart w) := by
      refine hper.of_step (fun _ _ h => by cases h) ?_
      intro s hready hs fire si hpc'
      have hmoves := schedulerStep_moves (emuHandlers env) events clock s
      generalize schedulerStep (emuHandlers env) events clock s = s' at hmoves hpc' ⊢
      cases hmoves with
      | tick e hpc hev hle => exact hready hpc e hev hle
      | early fire h si hpc hearly => exact hs _ _ hpc'
      | halted hpc => exact hs _ _ hpc'
      | _ => cases hpc'
    exact hwait
  case forward =>
    intro n e hpc hev hle
    have hf := hforward n hpc e hev hle
    have hpos := hf.pos
    rw [Function.iterate_succ_apply', step_tick hpc hev hle]
    calc _ < _ := by omega
      _ = _ := hf.toNat_fire.symm

theorem progresses_ready {w : TcpCtx × ActionCtx × Nat}
    (h : Progresses events (fun n => (schedulerStep (emuHandlers env) events clock)^[n] (schedulerStart w))) :
    Always (schedulerStep (emuHandlers env) events clock) (PeriodReady events) (schedulerStart w) ∧
      Always (schedulerStep (emuHandlers env) events clock) (CallReady env clock) (schedulerStart w) := by
  constructor
  · intro n hpc e hev hle
    have hnext := h.period (n + 1)
    rw [Function.iterate_succ_apply', step_tick hpc hev hle] at hnext
    exact hnext _ _ rfl
  · intro n fire hd si hpc hlate
    obtain ⟨N, hN, -⟩ := h.ends
    have hstep := wait_late (emuHandlers env) events _ hpc (Nat.not_lt.mpr hlate)
    rw [← Function.iterate_succ_apply' (schedulerStep (emuHandlers env) events clock), afterCall] at hstep
    rcases hc : (emuHandlers env).call hd ((schedulerStep (emuHandlers env) events clock)^[n] (schedulerStart w)).world
      with f | w'
    · -- the call faults, and the run neither ended before it nor ends after it
      rw [hc] at hstep
      have hcrash : ((schedulerStep (emuHandlers env) events clock)^[n + 1] (schedulerStart w)).pc = .crashed f := by
        rw [hstep]
      by_cases hn : N ≤ n
      · rw [halted_stays (.inl hN) hn, hN] at hpc
        cases hpc
      · rw [halted_stays (.inr ⟨f, hcrash⟩) (Nat.lt_of_not_le hn), hcrash] at hN
        cases hN
    · exact handlerReady_iff.mp ⟨w', hc⟩

/-- In a trace with positive periods no tick falls due with another period, since a sampler that is not
    linked yet has no tick due. -/
theorem positive_ready (hmono : Monotone clock) (hunb : ∀ b, ∃ n, b ≤ clock n) (hfits : ∀ e ∈ events, e.Fits)
    (hpos : ∀ e ∈ events, e.action.Positive) {w : TcpCtx × ActionCtx × Nat} (hw : w.1.wkctx = none)
    (hcall : Always (schedulerStep (emuHandlers env) events clock) (CallReady env clock) (schedulerStart w)) :
    Always (schedulerStep (emuHandlers env) events clock) (PeriodReady events) (schedulerStart w) := by
  have harmed : Always (schedulerStep (emuHandlers env) events clock) (SamplerInv Armed events) (schedulerStart w) :=
    armed_run hfits hpos ⟨.inl hw, fun _ _ _ h => by cases h⟩
  have hok := (ready_never_crashes hcall fun f h => by cases h).always
  intro n hpc e hev hle
  obtain hnone | hper := (harmed n).tcp
  · exact absurd (unlinked_not_due hmono hunb (hok n) hnone hpc hev) (UInt64.not_lt.mpr hle)
  · exact hper.now

end Run

/-- **The emulation makes progress exactly if every step of it is ready**, for every trace in range, all
    that the library and the packet threads may do, and every non-decreasing clock without a bound: no
    tick is due while the period is not positive, and no handler call finds a pointer or an index that
    leads nowhere. The first holds by itself if the trace's periods are positive and its links are 1
    and 2. -/
theorem emulation_progresses (env : Env) {clock : Nat → Nat} (hmono : Monotone clock)
    (hunb : ∀ b, ∃ n, b ≤ clock n) {mem : TcpCtx} (hmem : mem.Typed) {lines : List (List Char)}
    (hlines : ∀ line ∈ lines, NonNegLine line) {scheduler : SchedulerCtx Action}
    (hparse : parseTrace schedulerInitCtx lines = .ok scheduler) :
    (Progresses (qsortEvents scheduler.events) (emuRun env scheduler clock mem) ↔
      ∀ n, PeriodReady (qsortEvents scheduler.events) (emuRun env scheduler clock mem n) ∧
        CallReady env clock (emuRun env scheduler clock mem n)) ∧
    ((∀ e ∈ scheduler.events, e.action.Positive) →
      (Progresses (qsortEvents scheduler.events) (emuRun env scheduler clock mem) ↔
        ∀ n, CallReady env clock (emuRun env scheduler clock mem n))) := by
  have hevents : ∀ e ∈ scheduler.events, e.Fits :=
    (parseTrace_fits hlines schedulerInitCtx fun e he => by cases he).value scheduler hparse
  have hmem' : ∀ e ∈ qsortEvents scheduler.events, e ∈ scheduler.events :=
    fun e he => (qsortEvents_perm scheduler.events).subset he
  have hfits : ∀ e ∈ qsortEvents scheduler.events, e.Fits := fun e he => hevents e (hmem' e he)
  constructor
  · constructor
    · intro h n
      exact ⟨(progresses_ready h).1 n, (progresses_ready h).2 n⟩
    · intro h
      exact ready_progresses hmono hunb hfits (initTcpScheduler_bounded hmem) (fun n => (h n).1) fun n => (h n).2
  · intro hpos
    constructor
    · exact fun h n => (progresses_ready h).2 n
    · intro h
      have hready := positive_ready hmono hunb hfits (fun e he => hpos e (hmem' e he)) rfl h
      exact ready_progresses hmono hunb hfits (initTcpScheduler_bounded hmem) hready h

/-! A trace with one queue and a sampler on it, whose first link has the RTT `rtt`, a digit. -/

def linkTrace (rtt : Char) : List (List Char) :=
  ["0,INIT,0,0,5".toList, "0,SOL_INIT_SCHED,0,1,1,90,2,0,1,2000,".toList ++ rtt :: ",2,4000,1".toList]

def linkArgs (rtt : Int) : InitTcpSchedArgs :=
  { enable := 1, sampleInterval := 1, threshold := (90 : Int) / 100, pace := (2 : Int) / 100, fire := 0, mark := 1,
    initParam := #v[⟨0, 0, 0⟩, ⟨1, 2000, rtt⟩, ⟨2, 4000, 1⟩] }

/-- Its events as the parser adds them. -/
def linkScheduler (rtt : Int) : SchedulerCtx Action :=
  ⟨[⟨0, .initNfqueue 0, 0⟩, ⟨5, .teardownNfqueue 0, 1⟩, ⟨0, .startNfqueue 0, 2⟩,
    ⟨0, .initTcpSched 0 (linkArgs rtt), 3⟩]⟩

/-- The library does what it is asked to, and no packet arrives. -/
def quietEnv : Env := ⟨fun _ => quietLib, fun _ _ w => w⟩

theorem linkTrace_inRange {rtt : Char} (h : rtt = '0' ∨ rtt = '3') : ∀ line ∈ linkTrace rtt, NonNegLine line := by
  intro line hline
  obtain rfl | hline := List.mem_cons.mp hline
  · exact ⟨_, _, _, _, rfl, by decide, rfl, fun _ =>
      .field rfl (by decide) <| .field rfl (by decide) <| .field rfl (by decide) <| .done rfl⟩
  · rw [List.mem_singleton.mp hline]
    obtain rfl | rfl := h <;>
    exact ⟨_, _, _, _, rfl, by decide, rfl, fun _ =>
      .field rfl (by decide) <| .field rfl (by decide) <| .field rfl (by decide) <| .field rfl (by decide) <|
      .field rfl (by decide) <| .field rfl (by decide) <| .field rfl (by decide) <| .field rfl (by decide) <|
      .field rfl (by decide) <| .field rfl (by decide) <| .field rfl (by decide) <| .field rfl (by decide) <|
      .done rfl⟩

theorem linkScheduler_sorted (rtt : Int) :
    qsortEvents (linkScheduler rtt).events =
      [⟨0, .initNfqueue 0, 0⟩, ⟨0, .startNfqueue 0, 2⟩, ⟨0, .initTcpSched 0 (linkArgs rtt), 3⟩,
        ⟨5, .teardownNfqueue 0, 1⟩] := by
  apply qsortEvents_unique
  · exact List.Perm.cons _ (@List.perm_append_comm _ [_, _] [_])
  · simp [schedulerCompareEvent]

/-! An RTT of 3: one tick, and the end. -/

theorem linkScheduler_positive : ∀ e ∈ (linkScheduler 3).events, e.action.Positive := by
  intro e he
  simp only [linkScheduler, List.mem_cons, List.not_mem_nil, or_false] at he
  obtain rfl | rfl | rfl | rfl := he
  · trivial
  · trivial
  · trivial
  · exact ⟨by decide, by decide, by decide⟩

theorem link_ready (n : Nat) : CallReady quietEnv id (emuRun quietEnv (linkScheduler 3) id zeroTcp n) := by
  rw [emuRun, schedulerRun, linkScheduler_sorted]
  intro fire h si hpc _
  obtain hn | hn := Nat.lt_or_ge n 11
  · interval_cases n
    case «1» => cases hpc; exact ⟨rfl, by decide⟩
    case «3» => cases hpc; exact ⟨_, rfl⟩
    case «5» => cases hpc; exact ⟨_, _, rfl, (by decide : InTable 3 1)⟩
    case «7» => cases hpc; exact ⟨_, _, rfl, rfl, fun hb => absurd rfl hb⟩
    case «9» => cases hpc; exact ⟨⟨_, rfl⟩, fun _ => ⟨_, rfl⟩⟩
    all_goals cases hpc
  · rw [halted_stays (m := 11) (.inl rfl) hn] at hpc
    cases hpc

theorem emulation_progresses_link :
    Progresses (qsortEvents (linkScheduler 3).events) (emuRun quietEnv (linkScheduler 3) id zeroTcp) := by
  have hmem : zeroTcp.Typed := by
    refine ⟨by decide, fun i p hp => ?_⟩
    obtain ⟨⟨h0, h3⟩, rfl⟩ := readAt_ok.mp hp
    simp [zeroTcp, intMax]
  exact ((emulation_progresses quietEnv monotone_id (fun b => ⟨b, Nat.le_refl b⟩) hmem
    (linkTrace_inRange (.inr rfl)) rfl).2 linkScheduler_positive).mpr link_ready

/-! An RTT of 0: the tick at time 0 is repeated for ever. -/

/-- The loop is held up before its last event, at a deadline of 0 with a period of 0. -/
structure HeldUp (s : EmuState) : Prop where
  i : s.i = 3
  fire : s.world.1.fire = 0
  period : s.world.1.sampleInterval = 0
  pc : s.pc = .head ∨ s.pc = .wait 0 .tick 0 ∨ ∃ f, s.pc = .crashed f

theorem heldUp_step (s : EmuState) (h : HeldUp s) :
    HeldUp (schedulerStep (emuHandlers quietEnv) (qsortEvents (linkScheduler 0).events) id s) := by
  have hdue : getTcpSchedulerFire s.world.1 = 0 := by
    rw [getTcpSchedulerFire, h.fire, h.period]
    rfl
  have hlast : (qsortEvents (linkScheduler 0).events)[s.i]? = some ⟨5, .teardownNfqueue 0, 1⟩ := by
    rw [linkScheduler_sorted, h.i]
    rfl
  have hmoves := schedulerStep_moves (emuHandlers quietEnv) (qsortEvents (linkScheduler 0).events) id s
  generalize schedulerStep (emuHandlers quietEnv) (qsortEvents (linkScheduler 0).events) id s = s' at hmoves ⊢
  cases hmoves with
  | finish hpc hev => cases hlast.symm.trans hev
  | event e hpc hev hlt =>
    cases hlast.symm.trans hev
    rw [hdue] at hlt
    exact absurd hlt (by decide)
  | tick e hpc hev hle =>
    refine ⟨h.i, hdue, h.period, .inr (.inl ?_)⟩
    rw [hdue, h.period]
  | early fire hd si hpc hearly => exact ⟨h.i, h.fire, h.period, h.pc⟩
  | call fire hd si w hpc hlate hcall =>
    obtain h' | h' | ⟨f, h'⟩ := h.pc
    · cases h'.symm.trans hpc
    · cases h'.symm.trans hpc
      have hw := call_tick hcall
      refine ⟨h.i, ?_, ?_, .inl rfl⟩
      · simp only [hw, h.fire]
      · simp only [hw, h.period]
    · cases h'.symm.trans hpc
  | fault fire hd si f hpc hlate hcall => exact ⟨h.i, h.fire, h.period, .inr (.inr ⟨f, rfl⟩)⟩
  | halted hpc => exact h

/-- The trace is one the parser accepts, with every field in range, and its run never ends. -/
theorem zero_rtt_never_ends :
    (∀ line ∈ linkTrace '0', NonNegLine line) ∧
      parseTrace schedulerInitCtx (linkTrace '0') = .ok (linkScheduler 0) ∧
      (∀ n, (emuRun quietEnv (linkScheduler 0) id zeroTcp n).pc ≠ .done) ∧
      ¬ Progresses (qsortEvents (linkScheduler 0).events) (emuRun quietEnv (linkScheduler 0) id zeroTcp) := by
  have hnever : ∀ n, (emuRun quietEnv (linkScheduler 0) id zeroTcp n).pc ≠ .done := by
    have hheld : Always (schedulerStep (emuHandlers quietEnv) (qsortEvents (linkScheduler 0).events) id) HeldUp
        (emuRun quietEnv (linkScheduler 0) id zeroTcp 6) := by
      apply always_of_step _ heldUp_step
      rw [emuRun, schedulerRun, linkScheduler_sorted]
      exact ⟨rfl, rfl, rfl, .inl rfl⟩
    intro n hdone
    obtain hn | hn := Nat.lt_or_ge n 6
    · rw [emuRun, schedulerRun, linkScheduler_sorted] at hdone
      interval_cases n <;> cases hdone
    · obtain ⟨k, rfl⟩ := Nat.exists_eq_add_of_le' hn
      have hpc := (hheld k).pc
      rw [emuRun, schedulerRun, ← Function.iterate_add_apply] at hpc
      rw [emuRun, schedulerRun] at hdone
      rw [hdone] at hpc
      simp at hpc
  exact ⟨linkTrace_inRange (.inl rfl), rfl, hnever, fun h => h.ends.elim fun n hn => hnever n hn.1⟩

end Handoff
