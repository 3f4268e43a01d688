import Handoff.EventTable
import Handoff.RadioGap

/- When the sampler fires.

   README gives the ticks as `start_time`, and then one period after the other. The loop adds the period
   to the deadline before it compares it with the next event, and `action_init_tcp_sched` sets the deadline
   to `start_time` itself, so the tick at `start_time` is never made: along a run the deadline is the start
   plus the periods ticked away, and the first of these is a whole period (`sampler_run_paced`). -/
namespace Handoff

open Iterate

/-! The documented schedule. -/

/-- The times `start`, `start + period`, `start + 2 * period` and so on, up to `last`. -/
def documentedTicks (start period last : Int) : List Int :=
  (List.range ((last - start) / period + 1).toNat).map fun j : Nat => start + j * period

section Documented
variable {start period last : Int}

theorem mem_documentedTicks (hp : 0 < period) {t : Int} :
    t ∈ documentedTicks start period last ↔ t ≤ last ∧ ∃ j : Nat, t = start + j * period := by
  have hle : ∀ j : Nat, (j : Int) ≤ (last - start) / period ↔ start + j * period ≤ last := by
    intro j
    rw [Int.le_ediv_iff_mul_le hp]
    omega
  simp only [documentedTicks, List.mem_map, List.mem_range]
  constructor
  · intro h
    obtain ⟨j, hj, rfl⟩ := h
    exact ⟨(hle j).mp (by omega), j, rfl⟩
  · intro h
    obtain ⟨hlast, j, rfl⟩ := h
    have hj := (hle j).mpr hlast
    exact ⟨j, by omega, rfl⟩

theorem documentedTicks_early (hp : 0 < period) (h : last < start) : documentedTicks start period last = [] := by
  have hneg : (last - start) / period < 0 := Int.ediv_neg_of_neg_of_pos (by omega) hp
  rw [documentedTicks, show ((last - start) / period + 1).toNat = 0 by omega]
  rfl

theorem documentedTicks_head (hp : 0 < period) (h : start ≤ last) :
    (documentedTicks start period last).head? = some start := by
  have hnonneg : 0 ≤ (last - start) / period := Int.ediv_nonneg (by omega) (by omega)
  obtain ⟨n, hn⟩ : ∃ n, ((last - start) / period + 1).toNat = n + 1 := ⟨((last - start) / period).toNat, by omega⟩
  rw [documentedTicks, hn, List.range_succ_eq_map]
  simp

end Documented

/-! The ticks of a run. -/

section Ticks
variable {α ρ : Type}

/-- When a tick was due. -/
def Call.tick? (c : Call α) : Option UInt64 :=
  match c.handler with
  | .tick => some c.due
  | .event _ => none

/-- When the ticks executed so far were due. -/
def tickDues (s : RunState α ρ) : List UInt64 := s.calls.filterMap Call.tick?

/-- The tick that waits for its time. -/
def waitingTick (s : RunState α ρ) : List UInt64 :=
  match s.pc with
  | .wait due .tick _ => [due]
  | _ => []

theorem tickDues_snoc {s s' : RunState α ρ} {c : Call α} (h : s'.calls = s.calls ++ [c]) :
    tickDues s' = tickDues s ++ c.tick?.toList := by
  rw [tickDues, tickDues, h, List.filterMap_append]
  rcases hc : c.tick? with _ | d <;> simp [hc]

/-- The time of the last event. -/
def lastTime (events : List (SchedulerEvent α)) : Nat := (events.map fun e => e.timeMs.toNat).foldr max 0

theorem le_lastTime {events : List (SchedulerEvent α)} {e : SchedulerEvent α} (h : e ∈ events) :
    e.timeMs.toNat ≤ lastTime events := by
  induction events with
  | nil => cases h
  | cons e' events ih =>
    show e.timeMs.toNat ≤ max e'.timeMs.toNat (lastTime events)
    obtain rfl | h := List.mem_cons.mp h
    · exact Nat.le_max_left _ _
    · exact (ih h).trans (Nat.le_max_right _ _)

/-- Every tick that has been chosen is due no later than some event. -/
theorem ticks_before_events (hs : Handlers α ρ) (events : List (SchedulerEvent α)) (clock : Nat → Nat)
    (w : TcpCtx × ρ) :
    Always (schedulerStep hs events clock)
      (fun s => ∀ d ∈ tickDues s ++ waitingTick s, ∃ e ∈ events, d ≤ e.timeMs) (schedulerStart w) := by
  refine always_of_step (fun d hd => by cases hd) ?_
  intro s h
  have hdues : ∀ d ∈ tickDues s, ∃ e ∈ events, d ≤ e.timeMs := fun d hd => h d (List.mem_append_left _ hd)
  have hmoves := schedulerStep_moves hs events clock s
  generalize schedulerStep hs events clock s = s' at hmoves ⊢
  cases hmoves with
  | tick e hpc hev hle =>
    intro d hd
    obtain hd | hd := List.mem_append.mp hd
    · exact hdues d hd
    · rw [List.mem_singleton.mp hd]
      exact ⟨e, List.mem_of_getElem? hev, hle⟩
  | call fire hd si w hpc hlate hcall =>
    intro d hmem
    rw [@tickDues_snoc _ _ s _ ⟨hd, fire, clock (s.reads + 1) - clock 0, si⟩ rfl] at hmem
    simp only [waitingTick, List.append_nil] at hmem
    apply h
    cases hd with
    | tick => simpa only [waitingTick, hpc, Call.tick?, Option.toList_some] using hmem
    | event e =>
      rw [Call.tick?, Option.toList_none, List.append_nil] at hmem
      exact List.mem_append_left _ hmem
  | early fire hd si hpc hearly => exact h
  | halted hpc => exact h
  | finish hpc hev => exact fun d hd => hdues d (by simpa [waitingTick, tickDues] using hd)
  | event e hpc hev hlt => exact fun d hd => hdues d (by simpa [waitingTick, tickDues] using hd)
  | fault fire hd si f hpc hlate hcall => exact fun d hd => hdues d (by simpa [waitingTick, tickDues] using hd)

end Ticks

/-! Actions that leave the sampler alone. -/

/-- The action does not touch the sampler. -/
def Action.LeavesSampler : Action → Prop
  | .solUpdate _ _ => False
  | .setBurst _ _ => False
  | .setAdapt _ _ => False
  | .initTcpSched _ _ => False
  | _ => True

theorem action_leaves {a : Action} (h : a.LeavesSampler) (lib : LibCalls) (e : Emulator) :
    Returns (fun e' => e'.tcp = e.tcp) (runAction lib e a) := by
  apply action_returns (Q := fun t => t = e.tcp) rfl
  intro q f hb pos w
  cases a with
  | solUpdate q mark => exact h.elim
  | setBurst q enable => exact h.elim
  | setAdapt q enable => exact h.elim
  | initTcpSched q args => exact h.elim
  | setMark q mark => cases hb; exact .ok rfl
  | setReorder q enable count offset => cases hb; exact .ok rfl
  | setDrop q enable dropCount => cases hb; exact .ok rfl
  | setDedup q enable => cases hb; exact .ok rfl
  | setRwnd q rwnd => cases hb; exact .ok rfl
  | _ => cases hb

theorem initTcpSched_paced {args : InitTcpSchedArgs} (hmark : args.mark = 1) {pos : Nat} {w : WorkerCtx} {t : TcpCtx} :
    Returns (fun r => r.2.fire = UInt64.ofInt args.fire ∧ r.2.sampleInterval = args.rtt₁)
      (initTcpSched args pos w t) := by
  apply Returns.bind_eq
  intro p hp
  rw [hmark] at hp
  obtain ⟨-, rfl⟩ := readAt_ok.mp hp
  apply Returns.bind_any
  intro q
  exact .ok ⟨rfl, rfl⟩

/-- The arguments a `SOL_INIT_SCHED` event carries. -/
def Action.config? : Action → Option InitTcpSchedArgs
  | .initTcpSched _ args => some args
  | _ => none

theorem Action.LeavesSampler.config {a : Action} (h : a.LeavesSampler) : a.config? = none := by
  cases a with
  | initTcpSched q args => exact h.elim
  | _ => rfl

/-- At most one of the events configures the sampler, with `args`, and no other one touches it. -/
structure OneConfig (args : InitTcpSchedArgs) (events : List (SchedulerEvent Action)) : Prop where
  others : ∀ e ∈ events, e.action.LeavesSampler ∨ ∃ q, e.action = .initTcpSched q args
  once : (events.filterMap fun e => e.action.config?).length ≤ 1

theorem OneConfig.perm {args : InitTcpSchedArgs} {es fs : List (SchedulerEvent Action)} (h : OneConfig args es)
    (hp : fs.Perm es) : OneConfig args fs :=
  ⟨fun e he => h.others e (hp.subset he), (hp.filterMap fun e => e.action.config?).length_eq ▸ h.once⟩

/-! The events of a trace. -/

theorem readEvent_leaves {text : List Char} (hconfig : lineType? text ≠ some .solInitSched)
    (hsol : lineType? text ≠ some .solHo) :
    Returns (fun r => AllActions Action.LeavesSampler r.1) (readEvent text) := by
  refine readEvent_rule .nil ?_ ?_ ?_ ?_ ?_ ?_
  · intro timeMs tok rest _
    exact parseInit_actions (fun _ => trivial) (fun _ => trivial) (fun _ => trivial) (fun _ _ _ _ _ => trivial)
  · exact fun _ _ _ _ => parseCmd_rule fun _ => .cons trivial .nil
  · intro timeMs tok rest _
    apply Returns.bind_any
    intro f
    exact hoRequests_actions trivial trivial trivial (fun _ => trivial) (fun _ _ => trivial)
  · exact fun _ _ _ _ => Returns.bind_any fun _ => Returns.bind_any fun _ => .ok (.cons trivial .nil)
  · exact fun timeMs tok rest hsplit => absurd hsplit.lineType hconfig
  · exact fun timeMs tok rest hsplit => absurd hsplit.lineType hsol

theorem AllActions.flatten {Q : Action → Prop} {rss : List (List Request)} (h : ∀ rs ∈ rss, AllActions Q rs) :
    AllActions Q rss.flatten := by
  intro r hr
  obtain ⟨rs, hrs, hr⟩ := List.mem_flatten.mp hr
  exact h rs hrs r hr

theorem AllActions.configs {rs : List Request} (h : AllActions Action.LeavesSampler rs) :
    rs.filterMap (fun r => r.2.config?) = [] := by
  rw [List.filterMap_eq_nil_iff]
  exact fun r hr => (h r hr).config

theorem expansion_filterMap {β : Type} (f : Action → Option β) (rs : List Request) :
    ∀ n, (expansion n rs).filterMap (fun e => f e.action) = rs.filterMap fun r => f r.2 := by
  induction rs with
  | nil => exact fun _ => rfl
  | cons r rs ih => intro n; simp only [expansion_cons, List.filterMap_cons, ih]

theorem parseTrace_leaves {lines : List (List Char)} {s s' : SchedulerCtx Action}
    (hlines : ∀ l ∈ lines, lineType? l ≠ some .solInitSched ∧ lineType? l ≠ some .solHo)
    (hparse : parseTrace s lines = .ok s') :
    ∃ rs, AllActions Action.LeavesSampler rs ∧ s' = addRequests s rs := by
  obtain ⟨rss, hread, rfl⟩ := parseTrace_readInto hparse
  refine ⟨rss.flatten, AllActions.flatten fun rs hrs => ?_, rfl⟩
  obtain ⟨l, hl, ret, hok⟩ := hread.line rs hrs
  exact (readEvent_leaves (hlines l hl).1 (hlines l hl).2).value _ hok

theorem oneConfig_trace {before after : List (List Char)} {line : List Char} {timeMs ret : Int} {q : UInt16}
    {args : InitTcpSchedArgs} {scheduler : SchedulerCtx Action}
    (hparse : parseTrace schedulerInitCtx (before ++ line :: after) = .ok scheduler)
    (hline : readEvent line = .ok ([(timeMs, .initTcpSched q args)], ret))
    (hothers : ∀ l ∈ before ++ after, lineType? l ≠ some .solInitSched ∧ lineType? l ≠ some .solHo) :
    OneConfig args scheduler.events := by
  obtain ⟨s₁, hbefore, -⟩ := parseTrace_append.mp hparse
  obtain ⟨_, _, hread, hrest⟩ := parseTrace_line hbefore hparse
  cases hline.symm.trans hread
  obtain ⟨rs₁, h₁, rfl⟩ := parseTrace_leaves (fun l hl => hothers l (List.mem_append_left _ hl)) hbefore
  obtain ⟨rs₂, h₂, rfl⟩ := parseTrace_leaves (fun l hl => hothers l (List.mem_append_right _ hl)) hrest
  rw [← addRequests_append, ← addRequests_append]
  let rs := rs₁ ++ ([(timeMs, .initTcpSched q args)] ++ rs₂)
  have htable : (addRequests schedulerInitCtx rs).events = expansion 0 (rs.take schedulerMaxEvent) :=
    addRequests_table _ _
  rw [htable]
  constructor
  · intro e he
    obtain ⟨r, hr, -, hact⟩ := expansion_mem he
    rw [hact]
    obtain hr | hr := List.mem_append.mp (List.mem_of_mem_take hr)
    · exact .inl (h₁ r hr)
    · obtain rfl | hr := List.mem_cons.mp hr
      · exact .inr ⟨q, rfl⟩
      · exact .inl (h₂ r hr)
  · have hall : rs.filterMap (fun r => r.2.config?) = [args] := by
      simp only [rs, List.filterMap_append, h₁.configs, h₂.configs]
      rfl
    have hsub := ((List.take_sublist schedulerMaxEvent rs).filterMap fun r => r.2.config?).length_le
    rw [expansion_filterMap]
    rwa [hall] at hsub

/-! The run. -/

/-- When the first `k` ticks after a start at `start` are due. -/
def pacedDues (start period : Int) (k : Nat) : List UInt64 :=
  (List.range k).map fun j : Nat => UInt64.ofInt (start + (j + 1) * period)

theorem pacedDues_succ (start period : Int) (k : Nat) :
    pacedDues start period (k + 1) = pacedDues start period k ++ [UInt64.ofInt (start + (k + 1) * period)] := by
  rw [pacedDues, List.range_succ, List.map_append]
  rfl

theorem pacedDues_head (start period : Int) (k : Nat) :
    (pacedDues start period (k + 1)).head? = some (UInt64.ofInt (start + period)) := by
  rw [pacedDues, List.range_succ_eq_map, List.map_cons, List.head?_cons, Nat.cast_zero, zero_add, one_mul]

/-- How far the sampler is: linked to no worker yet; `k` ticks on from its start; or in a run that has faulted. -/
inductive Pace (args : InitTcpSchedArgs) (s : EmuState) : Prop
  | unlinked (hnone : s.world.1.wkctx = none) (hdues : tickDues s = [])
      (hconfigs : (executed s).filterMap (fun e => e.action.config?) = [])
  | paced (k : Nat) (hfire : s.world.1.fire = UInt64.ofInt (args.fire + k * args.rtt₁))
      (hperiod : s.world.1.sampleInterval = args.rtt₁)
      (hdues : tickDues s ++ waitingTick s = pacedDues args.fire args.rtt₁ k)
      (hconfigs : (executed s).filterMap (fun e => e.action.config?) = [args])
  | faulted (f : Fault) (k : Nat) (hpc : s.pc = .crashed f) (hdues : tickDues s = pacedDues args.fire args.rtt₁ k)

theorem Pace.dues {args : InitTcpSchedArgs} {s : EmuState} (h : Pace args s) :
    ∃ k, tickDues s = pacedDues args.fire args.rtt₁ k := by
  cases h with
  | unlinked hnone hdues hconfigs => exact ⟨0, hdues⟩
  | paced k hfire hperiod hdues hconfigs =>
    unfold waitingTick at hdues
    split at hdues
    · -- the last tick chosen has not been called yet
      obtain _ | k := k
      · cases (List.append_eq_nil_iff.mp hdues).2
      · rw [pacedDues_succ] at hdues
        exact ⟨k, (List.append_inj' hdues rfl).1⟩
    · exact ⟨k, by rwa [List.append_nil] at hdues⟩
  | faulted f k hpc hdues => exact ⟨k, hdues⟩

section Step
variable {env : Env} {events : List (SchedulerEvent Action)} {clock : Nat → Nat} {args : InitTcpSchedArgs}

/-- The state after the call of a handler that returns. -/
structure Called (s s' : EmuState) (hd : Handler Action) (due : UInt64) (w : TcpCtx × ActionCtx × Nat) : Prop where
  idle : s'.pc = .head
  world : s'.world = w
  calls : ∃ elapsed si, s'.calls = s.calls ++ [⟨hd, due, elapsed, si⟩]

theorem Called.waitingTick {s s' : EmuState} {hd : Handler Action} {due : UInt64} {w : TcpCtx × ActionCtx × Nat}
    (h : Called s s' hd due w) : waitingTick s' = [] := by
  rw [Handoff.waitingTick, h.idle]

theorem pace_tick {s s' : EmuState} {due : UInt64} {si : Int} {w : TcpCtx × ActionCtx × Nat} (h : Pace args s)
    (hpc : s.pc = .wait due .tick si) (hcall : (emuHandlers env).call .tick s.world = .ok w)
    (hs' : Called s s' .tick due w) : Pace args s' := by
  obtain ⟨elapsed, si', hcalls⟩ := hs'.calls
  have ht : s'.world.1 = s.world.1 := hs'.world ▸ call_tick hcall
  have hdues : tickDues s' = tickDues s ++ [due] := tickDues_snoc hcalls
  have hexec : executed s' = executed s := (executed_snoc hcalls).trans (List.append_nil _)
  cases h with
  | unlinked hnone hd₀ hconfigs =>
    -- a tick of a sampler without a worker faults
    obtain ⟨p, o, hp, -⟩ := handlerReady_iff.mp ⟨w, hcall⟩
    cases hnone.symm.trans hp
  | paced k hfire hperiod hd₀ hconfigs =>
    refine .paced k (ht ▸ hfire) (ht ▸ hperiod) ?_ (hexec ▸ hconfigs)
    rw [hdues, hs'.waitingTick, List.append_nil, ← hd₀]
    simp only [waitingTick, hpc]
  | faulted f k hcrash hd₀ => cases hpc.symm.trans hcrash

theorem pace_event (hone : OneConfig args events) (hmark : args.mark = 1) {s s' : EmuState} {due : UInt64}
    {e : SchedulerEvent Action} {si : Int} {w : TcpCtx × ActionCtx × Nat} (h : Pace args s)
    (hpc : s.pc = .wait due (.event e) si) (hcall : (emuHandlers env).call (.event e) s.world = .ok w)
    (hs' : Called s s' (.event e) due w) (hix : executed s' <+: events) : Pace args s' := by
  obtain ⟨elapsed, si', hcalls⟩ := hs'.calls
  have hdues : tickDues s' = tickDues s := (tickDues_snoc hcalls).trans (List.append_nil _)
  have hexec : executed s' = executed s ++ [e] := executed_snoc hcalls
  have hidle := hs'.waitingTick
  simp only [Handlers.call, emuHandlers, C.bind_ok, C.pure_eq_ok, Except.ok.injEq] at hcall
  obtain ⟨emu, hemu, hw⟩ := hcall
  have htcp : s'.world.1 = emu.tcp := by rw [hs'.world, ← hw]
  have hmem : e ∈ events := hix.subset (by rw [hexec]; simp)
  have honce := ((hix.sublist.filterMap fun e => e.action.config?).length_le).trans hone.once
  rw [hexec, List.filterMap_append, List.length_append] at honce
  have hnow : tickDues s ++ waitingTick s = tickDues s := by simp only [waitingTick, hpc, List.append_nil]
  obtain hleaves | ⟨q, hact⟩ := hone.others e hmem
  · have hkept : s'.world.1 = s.world.1 := htcp.trans ((action_leaves hleaves _ _).value _ hemu)
    have hsame : (executed s').filterMap (fun e => e.action.config?) =
        (executed s).filterMap (fun e => e.action.config?) := by
      rw [hexec, List.filterMap_append]
      simp [hleaves.config]
    cases h with
    | unlinked hnone hd₀ hconfigs => exact .unlinked (hkept ▸ hnone) (hdues.trans hd₀) (hsame.trans hconfigs)
    | paced k hfire hperiod hd₀ hconfigs =>
      refine .paced k (hkept ▸ hfire) (hkept ▸ hperiod) ?_ (hsame.trans hconfigs)
      rw [hdues, hidle, List.append_nil, ← hnow, hd₀]
    | faulted f k hcrash hd₀ => cases hpc.symm.trans hcrash
  · cases h with
    | unlinked hnone hd₀ hconfigs =>
      -- the sampler starts here
      rw [hact, runAction_body _ _ rfl] at hemu
      have hpaced : Returns (fun e' => e'.tcp.fire = UInt64.ofInt args.fire ∧ e'.tcp.sampleInterval = args.rtt₁)
          (onWorker ⟨s.world.1, env.disturb s.world.2.2 s.world.2.1⟩ q (initTcpSched args)) :=
        Returns.bind_any fun _ => Returns.bind (initTcpSched_paced hmark) fun _ hr => .ok hr
      obtain ⟨hfire, hperiod⟩ := hpaced.value _ hemu
      refine .paced 0 ?_ (htcp ▸ hperiod) ?_ ?_
      · rw [htcp, hfire]
        simp
      · rw [hdues, hd₀, hidle]
        rfl
      · rw [hexec, List.filterMap_append, hconfigs]
        simp [hact, Action.config?]
    | paced k hfire hperiod hd₀ hconfigs =>
      -- and it is not started again
      rw [hconfigs] at honce
      simp [hact, Action.config?] at honce
    | faulted f k hcrash hd₀ => cases hpc.symm.trans hcrash

theorem pace_step (hone : OneConfig args events) (hmark : args.mark = 1) {s : EmuState} (hix : Indexed events s)
    (h : Pace args s) : Pace args (schedulerStep (emuHandlers env) events clock s) := by
  have hix' := Indexed.executed_prefix (@indexed_step _ _ (emuHandlers env) events clock s hix)
  have hmoves := schedulerStep_moves (emuHandlers env) events clock s
  generalize schedulerStep (emuHandlers env) events clock s = s' at hmoves hix' ⊢
  cases hmoves with
  | call fire hd si w hpc hlate hcall =>
    cases hd with
    | tick => exact pace_tick h hpc hcall ⟨rfl, rfl, _, _, rfl⟩
    | event e => exact pace_event hone hmark h hpc hcall ⟨rfl, rfl, _, _, rfl⟩ hix'
  | tick e hpc hev hle =>
    cases h with
    | unlinked hnone hdues hconfigs => exact .unlinked hnone hdues hconfigs
    | paced k hfire hperiod hdues hconfigs =>
      have hnext : s.world.1.fire + UInt64.ofInt s.world.1.sampleInterval =
          UInt64.ofInt (args.fire + (k + 1) * args.rtt₁) := by
        rw [hfire, hperiod, ← UInt64.ofInt_add]
        congr 1
        ring
      refine .paced (k + 1) ?_ hperiod ?_ hconfigs
      · push_cast
        exact hnext
      · simp only [waitingTick, hpc, List.append_nil] at hdues
        rw [pacedDues_succ, ← hdues, ← hnext]
        rfl
    | faulted f k hcrash hdues => cases hpc.symm.trans hcrash
  | early fire hd si hpc hearly =>
    cases h with
    | unlinked hnone hdues hconfigs => exact .unlinked hnone hdues hconfigs
    | paced k hfire hperiod hdues hconfigs => exact .paced k hfire hperiod hdues hconfigs
    | faulted f k hcrash hdues => cases hpc.symm.trans hcrash
  | fault fire hd si f hpc hlate hcall =>
    obtain ⟨k, hdues⟩ := h.dues
    exact .faulted f k rfl hdues
  | halted hpc => exact h
  | finish hpc hev =>
    cases h with
    | unlinked hnone hdues hconfigs => exact .unlinked hnone hdues hconfigs
    | paced k hfire hperiod hdues hconfigs =>
      refine .paced k hfire hperiod ?_ hconfigs
      simp only [waitingTick, hpc] at hdues
      exact hdues
    | faulted f k hcrash hdues => cases hpc.symm.trans hcrash
  | event e hpc hev hlt =>
    cases h with
    | unlinked hnone hdues hconfigs => exact .unlinked hnone hdues hconfigs
    | paced k hfire hperiod hdues hconfigs =>
      refine .paced k hfire hperiod ?_ hconfigs
      simp only [waitingTick, hpc] at hdues
      exact hdues
    | faulted f k hcrash hdues => cases hpc.symm.trans hcrash

/-- Along a run the ticks come one period after the other, and the first one a period after the start. -/
theorem sampler_run_paced (hone : OneConfig args events) (hmark : args.mark = 1) (r : ActionCtx × Nat) {t : TcpCtx}
    (ht : t.wkctx = none) :
    Always (schedulerStep (emuHandlers env) events clock) (Pace args) (schedulerStart (t, r)) :=
  Always.of_step (indexed_run _) (.unlinked ht rfl rfl) fun _ hix h => pace_step hone hmark hix h

end Step

/-! The documentation and the ticks. -/

/-- The numbers of a `SOL_INIT_SCHED` action are `int`s, and the controller starts on link 1. -/
def Action.StartsOnOne : Action → Prop
  | .initTcpSched _ args => args.fire ≤ intMax ∧ args.mark = 1 ∧ args.rtt₁ ≤ intMax
  | _ => True

theorem Action.NoConfig.startsOnOne {a : Action} (h : a.NoConfig) : a.StartsOnOne := by
  cases a with
  | initTcpSched q args => exact h.elim
  | _ => trivial

theorem parseInitSched_startsOnOne (timeMs : Int) (data : Option (List Char)) (rest : List Char) :
    Returns (AllActions Action.StartsOnOne) (parseInitSched timeMs data rest) := by
  unfold parseInitSched
  iterate 5 refine Returns.bind_any fun _ => ?_
  apply Returns.bind nextInt_le
  intro start hstart
  apply Returns.bind (P := fun p => p.1.rtt ≤ intMax)
  · unfold parseInitSched.nextLink
    iterate 2 refine Returns.bind_any fun _ => ?_
    apply Returns.bind nextInt_le
    exact fun rtt hrtt => .ok hrtt
  · intro p₁ hp₁
    apply Returns.bind_any
    intro p₂
    exact .ok (.cons ⟨hstart, rfl, hp₁⟩ .nil)

theorem ofInt_toNat_of_lt {x : Int} (h0 : 0 ≤ x) (h : x < 2^64) : ((UInt64.ofInt x).toNat : Int) = x := by
  simp only [UInt64.ofInt, UInt64.toNat_ofNat']
  omega

section Main
variable {before after : List (List Char)} {line : List Char} {timeMs ret : Int} {q : UInt16} {args : InitTcpSchedArgs}
  {scheduler : SchedulerCtx Action}

/-- **The sampler starts one period late.** For every trace with one `SOL_INIT_SCHED` line, no `SOL_HO` lines and
    any others, at every point of every run, its end included: the ticks executed so far are due at
    `start_time + rtt`, `start_time + 2 * rtt` and so on. They are the documented ones (`start_time` first, up to
    the last event) if and only if the last event is due before `start_time`, and there are none. -/
theorem sampler_start_iff (env : Env) (clock : Nat → Nat) (mem : TcpCtx)
    (hparse : parseTrace schedulerInitCtx (before ++ line :: after) = .ok scheduler)
    (hline : readEvent line = .ok ([(timeMs, .initTcpSched q args)], ret))
    (hothers : ∀ l ∈ before ++ after, lineType? l ≠ some .solInitSched ∧ lineType? l ≠ some .solHo)
    (hrtt : 0 < args.rtt₁) (n : Nat) :
    (∃ k, tickDues (emuRun env scheduler clock mem n) = pacedDues args.fire args.rtt₁ k) ∧
      ((tickDues (emuRun env scheduler clock mem n)).map (fun d => (d.toNat : Int)) =
          documentedTicks args.fire args.rtt₁ (lastTime scheduler.events) ↔
        (lastTime scheduler.events : Int) < args.fire) := by
  have hargs := (readEvent_actions (fun _ => Action.NoConfig.startsOnOne) parseInitSched_startsOnOne line).value _ hline
  obtain ⟨hfire, hmark, hmax⟩ : (Action.initTcpSched q args).StartsOnOne := hargs _ List.mem_cons_self
  rw [intMax] at hfire hmax
  have hone := (oneConfig_trace hparse hline hothers).perm (qsortEvents_perm scheduler.events)
  have hpace : Pace args (emuRun env scheduler clock mem n) :=
    sampler_run_paced hone hmark (actionInitCtx, 0) (t := initTcpScheduler mem) rfl n
  obtain ⟨k, hk⟩ := hpace.dues
  refine ⟨⟨k, hk⟩, ?_⟩
  rw [hk]
  by_cases hlate : (lastTime scheduler.events : Int) < args.fire
  · refine iff_of_true ?_ hlate
    rw [documentedTicks_early hrtt hlate]
    obtain _ | k := k
    · rfl
    · -- the first tick would be due after the last event
      have hfirst : UInt64.ofInt (args.fire + args.rtt₁) ∈ tickDues (emuRun env scheduler clock mem n) :=
        hk ▸ List.mem_of_mem_head? (pacedDues_head args.fire args.rtt₁ k)
      obtain ⟨e, he, hle⟩ := ticks_before_events (emuHandlers env) (qsortEvents scheduler.events) clock _ n _
        (List.mem_append_left _ hfirst)
      have hlast := le_lastTime ((qsortEvents_perm scheduler.events).subset he)
      have hdue := @ofInt_toNat_of_lt (args.fire + args.rtt₁) (by omega) (by omega)
      rw [UInt64.le_iff_toNat_le] at hle
      omega
  · refine iff_of_false ?_ hlate
    intro heq
    have hhead := congrArg List.head? heq
    rw [documentedTicks_head hrtt (by omega)] at hhead
    obtain _ | k := k
    · cases hhead
    · rw [List.head?_map, pacedDues_head, Option.map_some, Option.some.injEq] at hhead
      have hdue := @ofInt_toNat_of_lt (args.fire + args.rtt₁) (by omega) (by omega)
      omega

end Main

/-- A start at 0 with an RTT of 3, and a last event at 5: the documentation has ticks at 0 and 3, the run makes one
    at 3. -/
theorem sampler_skips_start :
    parseTrace schedulerInitCtx (linkTrace '3') = .ok (linkScheduler 3) ∧
      (emuRun quietEnv (linkScheduler 3) id zeroTcp 11).pc = .done ∧
      tickDues (emuRun quietEnv (linkScheduler 3) id zeroTcp 11) = [3] ∧
      documentedTicks (linkArgs 3).fire (linkArgs 3).rtt₁ (lastTime (linkScheduler 3).events) = [0, 3] := by
  refine ⟨rfl, ?_, ?_, by decide⟩ <;> rw [emuRun, schedulerRun, linkScheduler_sorted] <;> rfl

/-- The events of the same trace with a start at 9, after its last event. -/
def lateScheduler : SchedulerCtx Action :=
  ⟨[⟨0, .initNfqueue 0, 0⟩, ⟨5, .teardownNfqueue 0, 1⟩, ⟨0, .startNfqueue 0, 2⟩,
    ⟨0, .initTcpSched 0 { linkArgs 3 with fire := 9 }, 3⟩]⟩

theorem sampler_start_iff_link :
    (tickDues (emuRun quietEnv (linkScheduler 3) id zeroTcp 11)).map (fun d => (d.toNat : Int)) ≠
        documentedTicks (linkArgs 3).fire (linkArgs 3).rtt₁ (lastTime (linkScheduler 3).events) ∧
      ∀ n, (tickDues (emuRun quietEnv lateScheduler id zeroTcp n)).map (fun d => (d.toNat : Int)) =
        documentedTicks 9 3 (lastTime lateScheduler.events) := by
  have hothers : ∀ l ∈ ["0,INIT,0,0,5".toList] ++ [],
      lineType? l ≠ some .solInitSched ∧ lineType? l ≠ some .solHo := by decide +kernel
  have hline : readEvent ("0,SOL_INIT_SCHED,0,1,1,90,2,0,1,2000,".toList ++ '3' :: ",2,4000,1".toList) =
      .ok ([(0, .initTcpSched 0 (linkArgs 3))], 0) := rfl
  have hparse : parseTrace schedulerInitCtx (linkTrace '3') = .ok (linkScheduler 3) := rfl
  have hlate : ¬ (lastTime (linkScheduler 3).events : Int) < (linkArgs 3).fire := by decide
  refine ⟨fun h => hlate ((sampler_start_iff quietEnv id zeroTcp hparse hline hothers (by decide) 11).2.mp h),
    fun n => ?_⟩
  have hline' : readEvent "0,SOL_INIT_SCHED,0,1,1,90,2,9,1,2000,3,2,4000,1".toList =
      .ok ([(0, .initTcpSched 0 { linkArgs 3 with fire := 9 })], 0) := rfl
  have hparse' : parseTrace schedulerInitCtx (["0,INIT,0,0,5".toList] ++
      "0,SOL_INIT_SCHED,0,1,1,90,2,9,1,2000,3,2,4000,1".toList :: []) = .ok lateScheduler := rfl
  exact (sampler_start_iff quietEnv id zeroTcp hparse' hline' hothers (by decide) n).2.mpr (by decide)

end Handoff
