import Handoff.Lifetime

/- The status of a queue during a radio gap.

   An `HO` line is a stop event and a start event with nothing that ties them together: what the
   status word holds is what the last start or stop of the queue wrote, whichever line it is
   from (`flag_run`). So a queue stays stopped from the stop event of a line until the first
   start event on that queue, and through the whole gap exactly if no other line's start is
   executed inside it (`gap_stopped_iff`). Two gaps that overlap are cut short by the first one's end
   (`overlap_resumes`). -/
namespace Handoff

open Iterate

/-! The last flag written. -/

/-- What an action makes of the flag last written to queue `q` since it was opened. -/
def Action.flag (q : UInt16) (a : Action) (v : Option Int) : Option Int :=
  if a.queue? = some q then
    match a with
    | .startNfqueue _ => some nfqRunning
    | .stopNfqueue _ => some nfqStopped
    | .initNfqueue _ => none
    | .teardownNfqueue _ => none
    | _ => v
  else v

def lastFlag (q : UInt16) (es : List (SchedulerEvent Action)) : Option Int :=
  es.foldl (fun v e => e.action.flag q v) none

theorem lastFlag_snoc (q : UInt16) (es : List (SchedulerEvent Action)) (e : SchedulerEvent Action) :
    lastFlag q (es ++ [e]) = e.action.flag q (lastFlag q es) := by
  simp [lastFlag]

section Flag
variable {q : UInt16} {v : Option Int}

theorem flag_other {a : Action} (hstart : a ≠ .startNfqueue q) (hstop : a ≠ .stopNfqueue q)
    (hinit : a ≠ .initNfqueue q) (htorn : a ≠ .teardownNfqueue q) : a.flag q v = v := by
  unfold Action.flag
  split
  · next hq =>
    cases a with
    | startNfqueue r => cases hq; exact absurd rfl hstart
    | stopNfqueue r => cases hq; exact absurd rfl hstop
    | initNfqueue r => cases hq; exact absurd rfl hinit
    | teardownNfqueue r => cases hq; exact absurd rfl htorn
    | _ => rfl
  · rfl

theorem lastFlag_stopped {pre mid : List (SchedulerEvent Action)} {stop : SchedulerEvent Action}
    (hstop : stop.action = .stopNfqueue q) (hstart : ∀ e ∈ mid, e.action ≠ .startNfqueue q)
    (hlife : ∀ e ∈ mid, e.action ≠ .initNfqueue q ∧ e.action ≠ .teardownNfqueue q) :
    lastFlag q (pre ++ stop :: mid) = some nfqStopped := by
  induction mid using List.reverseRecOn with
  | nil =>
    rw [lastFlag_snoc, hstop]
    simp [Action.flag, Action.queue?]
  | append_singleton mid e ih =>
    have hprev := ih (fun x hx => hstart x (List.mem_append_left _ hx)) fun x hx => hlife x (List.mem_append_left _ hx)
    rw [← List.cons_append, ← List.append_assoc, lastFlag_snoc, hprev]
    by_cases he : e.action = .stopNfqueue q
    · rw [he]
      simp [Action.flag, Action.queue?]
    · exact flag_other (hstart e (by simp)) he (hlife e (by simp)).1 (hlife e (by simp)).2

theorem Effect.status {lib : LibCalls} {a : Action} {x x' : ActionCtx} (h : Effect lib a x x') (ht : Tagged x)
    (hv : ∀ s, v = some s → statusOf x q = some s) : ∀ s, a.flag q v = some s → statusOf x' q = some s := by
  intro s hs
  by_cases hq : a.queue? = some q
  · cases h with
    | none ha => cases ha.symm.trans hq
    | write r p o w ha hinit hkept hp ho =>
      obtain rfl : r = q := Option.some.inj (ha.symm.trans hq)
      have hview : view x r = some o := view_eq hp ho
      have hview' := @view_set_own x p o ⟨a.onNfq o.nfq, w, o.destroyed⟩ r hp ho
      simp only [statusOf, hview', Option.map_some]
      cases a with
      | startNfqueue r' => simpa [Action.flag, ha, Action.onNfq, nfqStart] using hs
      | stopNfqueue r' => simpa [Action.flag, ha, Action.onNfq, nfqStop] using hs
      | initNfqueue r' => simp [Action.flag, ha] at hs
      | teardownNfqueue r' => simp [Action.flag, ha] at hs
      | _ =>
        simp only [Action.flag, ha, if_true] at hs
        have hkept := hv s hs
        simp only [statusOf, hview, Option.map_some] at hkept
        exact hkept
    | opened r tab ha htab =>
      subst ha
      simp [Action.flag, hq] at hs
    | closed r p o tab ha hlib hp ho htab =>
      subst ha
      simp [Action.flag, hq] at hs
  · have hsame : a.flag q v = v := if_neg hq
    rw [statusOf, h.view_other ht hq]
    exact hv s (hsame ▸ hs)

end Flag

/-! The gap of a line. -/

/-- The stop and the start event of one `HO` line on queue `q`. -/
structure HoLine (q : UInt16) (stop start : SchedulerEvent Action) : Prop where
  stops : stop.action = .stopNfqueue q
  starts : start.action = .startNfqueue q
  next : start.idx = stop.idx + 1

/-! The lines of a trace. -/

section Lines

theorem addRequests_extends (rs : List Request) :
    ∀ s : SchedulerCtx Action, s.events <+: (addRequests s rs).events := by
  induction rs with
  | nil => exact fun s => List.prefix_refl _
  | cons r rs ih =>
    intro s
    refine List.IsPrefix.trans ?_ (ih _)
    unfold schedulerAddEvent
    split
    · exact List.prefix_refl _
    · exact List.prefix_append _ _

theorem schedulerAddEvent_room {s : SchedulerCtx Action} {t : UInt64} {a : Action}
    (h : s.events.length < schedulerMaxEvent) :
    (schedulerAddEvent s t a).1 = ⟨s.events ++ [⟨t, a, s.events.length⟩]⟩ := by
  rw [schedulerAddEvent, if_neg (Nat.not_le.mpr h)]

theorem parseTrace_extends {lines : List (List Char)} :
    ∀ {s s' : SchedulerCtx Action}, parseTrace s lines = .ok s' → s.events <+: s'.events := by
  induction lines with
  | nil =>
    intro s s' h
    cases h
    exact List.prefix_refl _
  | cons line lines ih =>
    intro s s' h
    simp only [parseTrace, parseEvent, C.bind_ok, C.pure_eq_ok, Except.ok.injEq, Prod.exists, Prod.mk.injEq] at h
    obtain ⟨_, _, ⟨rs, ret, -, rfl, -⟩, hrest⟩ := h
    exact (addRequests_extends rs s).trans (ih hrest)

theorem parseTrace_append {before after : List (List Char)} :
    ∀ {s s' : SchedulerCtx Action}, parseTrace s (before ++ after) = .ok s' ↔
      ∃ s₁, parseTrace s before = .ok s₁ ∧ parseTrace s₁ after = .ok s' := by
  induction before with
  | nil => simp [parseTrace]
  | cons line before ih =>
    intro s s'
    simp only [List.cons_append, parseTrace, C.bind_ok, Prod.exists, ih]
    constructor
    · intro h
      obtain ⟨s₀, ret, hline, s₁, h₁, h₂⟩ := h
      exact ⟨s₁, ⟨s₀, ret, hline, h₁⟩, h₂⟩
    · intro h
      obtain ⟨s₁, ⟨s₀, ret, hline, h₁⟩, h₂⟩ := h
      exact ⟨s₀, ret, hline, s₁, h₁, h₂⟩

theorem parseTrace_line {before after : List (List Char)} {line : List Char} {s s₀ s' : SchedulerCtx Action}
    (hbefore : parseTrace s before = .ok s₀) (hparse : parseTrace s (before ++ line :: after) = .ok s') :
    ∃ rs ret, readEvent line = .ok (rs, ret) ∧ parseTrace (addRequests s₀ rs) after = .ok s' := by
  obtain ⟨s₁, h₁, hrest⟩ := parseTrace_append.mp hparse
  obtain rfl := Except.ok.inj (hbefore.symm.trans h₁)
  rw [parseTrace, C.bind_ok] at hrest
  obtain ⟨⟨s₂, ret⟩, hline, hafter⟩ := hrest
  simp only [parseEvent, C.bind_ok, C.pure_eq_ok, Except.ok.injEq, Prod.exists, Prod.mk.injEq] at hline
  obtain ⟨rs, ret', hread, rfl, -⟩ := hline
  exact ⟨rs, ret', hread, hafter⟩

theorem ho_line {before after : List (List Char)} {line : List Char} {rs : List Request} {timeMs ret : Int}
    {f : HoFields} (hrs : hoRequests timeMs f = .ok rs) (hread : readEvent line = .ok (rs, ret))
    {scheduler s₀ : SchedulerCtx Action} (hbefore : parseTrace schedulerInitCtx before = .ok s₀)
    (hroom : s₀.events.length + 2 ≤ schedulerMaxEvent)
    (hparse : parseTrace schedulerInitCtx (before ++ line :: after) = .ok scheduler) :
    ∃ stop ∈ scheduler.events, ∃ start ∈ scheduler.events, HoLine (UInt16.ofInt f.queueNum) stop start ∧
      stop.timeMs = UInt64.ofInt timeMs ∧ start.timeMs = UInt64.ofInt (timeMs + f.gapTime) := by
  obtain rfl := hoRequests_ok hrs
  obtain ⟨_, _, hline, hafter⟩ := parseTrace_line hbefore hparse
  cases hread.symm.trans hline
  let q := UInt16.ofInt f.queueNum
  let stop : SchedulerEvent Action := ⟨UInt64.ofInt timeMs, .stopNfqueue q, s₀.events.length⟩
  let start : SchedulerEvent Action :=
    ⟨UInt64.ofInt (timeMs + f.gapTime), .startNfqueue q, (s₀.events.length + 1 : Nat)⟩
  have hsub : s₀.events ++ [stop] ++ [start] <+: scheduler.events := by
    refine List.IsPrefix.trans ?_ (parseTrace_extends hafter)
    have hstop := schedulerAddEvent_room (t := UInt64.ofInt timeMs) (a := .stopNfqueue q)
      (by omega : s₀.events.length < schedulerMaxEvent)
    have hstart := @schedulerAddEvent_room ⟨s₀.events ++ [stop]⟩ (UInt64.ofInt (timeMs + f.gapTime)) (.startNfqueue q)
      (by simp only [List.length_append, List.length_singleton]; omega)
    have htwo : (addRequests s₀ [(timeMs, .stopNfqueue q), (timeMs + f.gapTime, .startNfqueue q)]).events =
        s₀.events ++ [stop] ++ [start] := by
      simp only [addRequests, hstop, hstart, List.length_append, List.length_singleton, stop, start]
    rw [← htwo]
    exact addRequests_extends _ _
  refine ⟨stop, hsub.subset (by simp), start, hsub.subset (by simp), ⟨rfl, rfl, ?_⟩, rfl, rfl⟩
  simp [stop, start]

end Lines

section Run
variable {env : Env} {scheduler : SchedulerCtx Action} {clock : Nat → Nat} {mem : TcpCtx} {q : UInt16}
  {lines : List (List Char)}

/-- The status of a queue is what the last start or stop wrote. -/
theorem flag_run (n : Nat) {v : Int} (h : lastFlag q (executed (emuRun env scheduler clock mem n)) = some v) :
    statusOf (emuRun env scheduler clock mem n).world.2.1 q = some v := by
  refine (history_run (I := fun es _ x => Tagged x ∧ ∀ s, lastFlag q es = some s → statusOf x q = some s)
    ?_ ?_ ?_ ?_ ?_ n).2 v h
  · exact ⟨actionInitCtx_tagged, fun s hs => by cases hs⟩
  · exact fun es t x k h => ⟨h.1.disturb k, fun s hs => (statusOf_disturb k x q).trans (h.2 s hs)⟩
  · exact fun es t x h => h
  · intro es t x k e emu h hrun
    have heffect := runAction_effect (e := ⟨t, x⟩) h.1.same hrun
    refine ⟨heffect.tagged h.1, fun s hs => ?_⟩
    rw [lastFlag_snoc] at hs
    exact heffect.status h.1 h.2 s hs
  · intro es t x x' h hx
    obtain ⟨p, o, w, -, ho, -, rfl⟩ := tick_ok.mp hx
    refine ⟨h.1.set ho rfl, fun s hs => Eq.trans ?_ (h.2 s hs)⟩
    refine statusOf_congr (x := x) ?_ ?_ q
    · rfl
    · exact map_set_same ho rfl

theorem executed_strict (hparse : parseTrace schedulerInitCtx lines = .ok scheduler) (n : Nat) :
    (executed (emuRun env scheduler clock mem n)).Pairwise fun a b => schedulerCompareEvent a b < 0 := by
  have hindexed : Indexed (qsortEvents scheduler.events) (emuRun env scheduler clock mem n) := indexed_run _ n
  exact (qsortEvents_strict (parseTrace_numbered (by intro i e he; cases he) hparse)).sublist
    hindexed.executed_prefix.sublist

/-- **The queue is stopped through the gap of a line if and only if no other line ends its own gap inside it**: for
    every trace the parser accepts, at every point between the stop and the start event of the line, as
    long as the queue is neither opened nor torn down in between. -/
theorem gap_stopped_iff (env : Env) (clock : Nat → Nat) (mem : TcpCtx)
    (hparse : parseTrace schedulerInitCtx lines = .ok scheduler) {stop start : SchedulerEvent Action}
    (hline : HoLine q stop start) {n : Nat} (hstop : stop ∈ executed (emuRun env scheduler clock mem n))
    (hstart : start ∉ executed (emuRun env scheduler clock mem n))
    (hlife : ∀ e ∈ executed (emuRun env scheduler clock mem n),
      e.action = .initNfqueue q ∨ e.action = .teardownNfqueue q → schedulerCompareEvent e stop < 0) :
    (∀ m ≤ n, stop ∈ executed (emuRun env scheduler clock mem m) →
      statusOf (emuRun env scheduler clock mem m).world.2.1 q = some nfqStopped) ↔
    ∀ e ∈ executed (emuRun env scheduler clock mem n), e.action = .startNfqueue q → e ≠ start →
      schedulerCompareEvent e stop < 0 := by
  constructor
  · intro hstopped e he hact _
    by_contra hlate
    obtain ⟨pre, mid, hes⟩ := List.append_of_mem hstop
    have hsorted : (executed (emuRun env scheduler clock mem n)).Pairwise fun a b => schedulerCompareEvent a b < 0 :=
      executed_strict hparse n
    rw [hes] at he hsorted
    obtain ⟨-, hafter, hbefore⟩ := List.pairwise_append.mp hsorted
    -- the other start comes after the stop, and there was a time when it was the last event executed
    have hmid : e ∈ mid := by
      obtain he | he := List.mem_append.mp he
      · exact absurd (hbefore e he stop List.mem_cons_self) hlate
      · obtain rfl | he := List.mem_cons.mp he
        · cases hline.stops.symm.trans hact
        · exact he
    obtain ⟨mid₁, mid₂, rfl⟩ := List.append_of_mem hmid
    have hprefix : pre ++ stop :: mid₁ ++ [e] <+: executed (emuRun env scheduler clock mem n) := by
      rw [hes]
      exact ⟨mid₂, by simp⟩
    obtain ⟨m, hm, hat⟩ := executed_attained rfl hprefix
    have hrunning := @flag_run env scheduler clock mem q m nfqRunning (by
      rw [emuRun, schedulerRun, hat, lastFlag_snoc, hact]
      simp [Action.flag, Action.queue?])
    have hgap := hstopped m hm (by rw [emuRun, schedulerRun, hat]; simp)
    cases hgap.symm.trans hrunning
  · intro hnone m hm hmem
    apply flag_run
    obtain ⟨pre, mid, hes⟩ := List.append_of_mem hmem
    have hsub : executed (emuRun env scheduler clock mem m) <+: executed (emuRun env scheduler clock mem n) :=
      executed_mono hm
    have hsorted : (executed (emuRun env scheduler clock mem m)).Pairwise fun a b => schedulerCompareEvent a b < 0 :=
      executed_strict hparse m
    rw [hes] at hsorted hsub
    have hlater := (List.pairwise_cons.mp (List.pairwise_append.mp hsorted).2.1).1
    have hmid : ∀ e ∈ mid, e ∈ executed (emuRun env scheduler clock mem n) := fun e he => hsub.subset (by simp [he])
    rw [hes]
    apply lastFlag_stopped hline.stops
    · intro e he hact
      have hne : e ≠ start := fun h => hstart (h ▸ hmid e he)
      exact schedulerCompareEvent_asymm (hlater e he) (hnone e (hmid e he) hact hne)
    · intro e he
      constructor <;> intro hact
      · exact schedulerCompareEvent_asymm (hlater e he) (hlife e (hmid e he) (.inl hact))
      · exact schedulerCompareEvent_asymm (hlater e he) (hlife e (hmid e he) (.inr hact))

end Run

/-! Two gaps that overlap. -/

def overlapTrace : List (List Char) :=
  ["0,INIT,0,0,100".toList, "10,HO,0,1,30,0,0,0".toList, "20,HO,0,1,50,0,0,0".toList]

def overlapScheduler : SchedulerCtx Action :=
  ⟨[⟨0, .initNfqueue 0, 0⟩, ⟨100, .teardownNfqueue 0, 1⟩, ⟨0, .startNfqueue 0, 2⟩, ⟨10, .stopNfqueue 0, 3⟩,
    ⟨40, .startNfqueue 0, 4⟩, ⟨10, .setMark 0 1, 5⟩, ⟨20, .stopNfqueue 0, 6⟩, ⟨70, .startNfqueue 0, 7⟩,
    ⟨20, .setMark 0 1, 8⟩]⟩

theorem overlapScheduler_sorted :
    qsortEvents overlapScheduler.events =
      [⟨0, .initNfqueue 0, 0⟩, ⟨0, .startNfqueue 0, 2⟩, ⟨10, .stopNfqueue 0, 3⟩, ⟨10, .setMark 0 1, 5⟩,
        ⟨20, .stopNfqueue 0, 6⟩, ⟨20, .setMark 0 1, 8⟩, ⟨40, .startNfqueue 0, 4⟩, ⟨70, .startNfqueue 0, 7⟩,
        ⟨100, .teardownNfqueue 0, 1⟩] := by
  apply qsortEvents_unique
  · decide
  · simp [schedulerCompareEvent]

theorem overlap_executed :
    executed (emuRun quietEnv overlapScheduler (1000 * ·) zeroTcp 14) =
      [⟨0, .initNfqueue 0, 0⟩, ⟨0, .startNfqueue 0, 2⟩, ⟨10, .stopNfqueue 0, 3⟩, ⟨10, .setMark 0 1, 5⟩,
        ⟨20, .stopNfqueue 0, 6⟩, ⟨20, .setMark 0 1, 8⟩, ⟨40, .startNfqueue 0, 4⟩] ∧
    executed (emuRun quietEnv overlapScheduler (1000 * ·) zeroTcp 12) =
      [⟨0, .initNfqueue 0, 0⟩, ⟨0, .startNfqueue 0, 2⟩, ⟨10, .stopNfqueue 0, 3⟩, ⟨10, .setMark 0 1, 5⟩,
        ⟨20, .stopNfqueue 0, 6⟩, ⟨20, .setMark 0 1, 8⟩] := by
  simp only [emuRun, schedulerRun, overlapScheduler_sorted]
  exact ⟨rfl, rfl⟩

/-- The end of the first gap, at 40, restarts the queue in the second one, from 20 to 70. -/
theorem overlap_resumes :
    parseTrace schedulerInitCtx overlapTrace = .ok overlapScheduler ∧
      HoLine 0 ⟨20, .stopNfqueue 0, 6⟩ ⟨70, .startNfqueue 0, 7⟩ ∧
      ⟨20, .stopNfqueue 0, 6⟩ ∈ executed (emuRun quietEnv overlapScheduler (1000 * ·) zeroTcp 14) ∧
      ⟨70, .startNfqueue 0, 7⟩ ∉ executed (emuRun quietEnv overlapScheduler (1000 * ·) zeroTcp 14) ∧
      statusOf (emuRun quietEnv overlapScheduler (1000 * ·) zeroTcp 14).world.2.1 0 = some nfqRunning := by
  refine ⟨rfl, ⟨rfl, rfl, rfl⟩, ?_, ?_, ?_⟩
  · rw [overlap_executed.1]
    decide
  · rw [overlap_executed.1]
    decide
  · simp only [emuRun, schedulerRun, overlapScheduler_sorted]
    rfl

theorem gap_stopped_iff_overlap :
    statusOf (emuRun quietEnv overlapScheduler (1000 * ·) zeroTcp 12).world.2.1 0 = some nfqStopped := by
  have hparse : parseTrace schedulerInitCtx overlapTrace = .ok overlapScheduler := rfl
  have hline : HoLine 0 ⟨10, .stopNfqueue 0, 3⟩ ⟨40, .startNfqueue 0, 4⟩ := ⟨rfl, rfl, rfl⟩
  have hstop : ⟨10, .stopNfqueue 0, 3⟩ ∈ executed (emuRun quietEnv overlapScheduler (1000 * ·) zeroTcp 12) := by
    rw [overlap_executed.2]
    decide
  refine (gap_stopped_iff quietEnv (1000 * ·) zeroTcp hparse hline hstop ?_ ?_).mpr ?_ 12 (Nat.le_refl _) hstop <;>
  rw [overlap_executed.2] <;> decide

end Handoff
