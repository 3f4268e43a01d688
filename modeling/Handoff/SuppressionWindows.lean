import Handoff.EventTable
import Handoff.RadioGap
import Handoff.Settings

/- Duplicate suppression over several handovers.

   A `SOL_HO` line switches the suppression on at the end of its freeze and off `smooth_ms`
   later, by two writes to one flag. The flag holds the last write (`Setting.run`), and a write that
   switches it on is the last one only inside the window of its line (`rearmed_window`). The
   converse fails where windows overlap: the end of one switches the other off. So the flag is
   the union of the windows exactly as long as, inside a window, no end of a window is the last
   write (`suppression_on_iff`). -/
namespace Handoff

/-! The lines. -/

/-- The time and the fields of a `SOL_HO` line. -/
def solHoLine? (text : List Char) : Option (Int × SolHoFields) :=
  match strtok text with
  | none => none
  | some (time, rest) =>
    match strtok rest with
    | none => none
    | some (event, rest) =>
      let (tok, rest) :=
        match strtok rest with
        | none => (none, [])
        | some (t, rest) => (some t, rest)
      if getEventType event = .solHo then
        match readSolHo tok rest with
        | .ok f => some (toInt (strtol time), f)
        | .error _ => none
      else none

/-- The action does not set the suppression. -/
def Action.NoDedup (a : Action) : Prop := ∀ q enable, a ≠ .setDedup q enable

section Reading
variable {text : List Char} {timeMs : Int} {data : Option (List Char)} {rest : List Char}

theorem SplitsInto.solHoLine (h : SplitsInto text timeMs .solHo data rest) :
    solHoLine? text = match readSolHo data rest with
      | .ok f => some (timeMs, f)
      | .error _ => none := by
  obtain ⟨time, fields, event, args, htime, rfl, hevent, htype, hthird⟩ := h
  rcases hargs : strtok args with _ | ⟨t, args⟩ <;> rw [hargs] at hthird <;> cases hthird <;>
    simp only [solHoLine?, htime, hevent, htype, hargs, if_true]

theorem readEvent_noDedup (hsol : solHoLine? text = none) (hdup : lineType? text ≠ some .solHandledup) :
    Returns (fun r => AllActions Action.NoDedup r.1) (readEvent text) := by
  refine readEvent_rule .nil ?_ ?_ ?_ ?_ ?_ ?_
  · intro timeMs tok rest _
    exact parseInit_actions (fun _ _ _ => Action.noConfusion) (fun _ _ _ => Action.noConfusion)
      (fun _ _ _ => Action.noConfusion) (fun _ _ _ _ _ _ _ => Action.noConfusion)
  · exact fun _ _ _ _ => parseCmd_rule fun _ => .cons (fun _ _ => Action.noConfusion) .nil
  · intro timeMs tok rest _
    apply Returns.bind_any
    intro f
    exact hoRequests_actions (fun _ _ => Action.noConfusion) (fun _ _ => Action.noConfusion)
      (fun _ _ => Action.noConfusion) (fun _ _ _ => Action.noConfusion) (fun _ _ _ _ => Action.noConfusion)
  · exact fun _ _ _ h => absurd h.lineType hdup
  · exact fun _ _ _ _ => parseInitSched_action fun _ _ _ _ => Action.noConfusion
  · -- the fields of the line are not there
    intro timeMs tok rest h
    rw [h.solHoLine] at hsol
    apply Returns.bind_eq
    intro f hf
    rw [hf] at hsol
    cases hsol

theorem readEvent_solHo {f : SolHoFields} (h : solHoLine? text = some (timeMs, f)) :
    readEvent text = (do let rs ← solHoRequests timeMs f; return (rs, 0)) := by
  unfold solHoLine? at h
  unfold readEvent
  rcases htime : strtok text with _ | ⟨time, rest⟩
  · simp only [htime] at h
    cases h
  · rcases hevent : strtok rest with _ | ⟨event, fields⟩
    · simp only [htime, hevent] at h
      cases h
    · simp only [htime, hevent] at h ⊢
      split at h
      · next htype =>
        rcases hthird : strtok fields with _ | ⟨t, rest⟩
        all_goals
          simp only [hthird] at h ⊢
          split at h
          · next f' hf =>
            cases h
            simp only [htype, parseHandleSolution, hf, C.ok_bind]
          · cases h
      · cases h

end Reading

/-! The windows. -/

/-- The window of a `SOL_HO` line on queue `q` that suppresses duplicates. -/
def dedupWindow? (q : UInt16) (text : List Char) : Option (Int × Int) :=
  match solHoLine? text with
  | none => none
  | some (timeMs, f) =>
    if UInt16.ofInt f.queueNum = q ∧ 0 < f.enableDedup then
      some (timeMs + f.freezeMs, timeMs + f.freezeMs + f.smoothMs)
    else none

def dedupWindows (q : UInt16) (lines : List (List Char)) : List (Int × Int) := lines.filterMap (dedupWindow? q)

/-- The time `t` lies in one of the windows. -/
def InWindow (windows : List (Int × Int)) (t : Int) : Prop := ∃ w ∈ windows, w.1 ≤ t ∧ t < w.2

instance (windows : List (Int × Int)) (t : Int) : Decidable (InWindow windows t) :=
  inferInstanceAs (Decidable (∃ w ∈ windows, _))

/-- Among the events due by `t`, one that starts a window on queue `q` comes after all that end one or open
    the queue. -/
def Rearmed (q : UInt16) (events : List (SchedulerEvent Action)) (t : Nat) : Prop :=
  ∃ on ∈ events, (∃ v, v ≠ 0 ∧ on.action = .setDedup q v) ∧ on.timeMs.toNat ≤ t ∧
    ∀ e ∈ events, e.timeMs.toNat ≤ t → e.action = .setDedup q 0 ∨ e.action = .initNfqueue q →
      schedulerCompareEvent e on < 0

theorem solHoExpansion_dedup (timeMs : Int) (f : SolHoFields) :
    ∃ as bs, AllActions Action.NoDedup as ∧ AllActions Action.NoDedup bs ∧ solHoExpansion timeMs f =
      as ++ (if 0 < f.enableDedup then
        [(timeMs + f.freezeMs, .setDedup (UInt16.ofInt f.queueNum) 1),
          (timeMs + f.freezeMs + f.smoothMs, .setDedup (UInt16.ofInt f.queueNum) 0)] else []) ++ bs := by
  refine ⟨_, _, ?_, ?_, List.append_assoc _ _ _⟩
  · exact .append (.cons (fun _ _ => Action.noConfusion) .nil) (.ite (.cons (fun _ _ => Action.noConfusion) .nil))
  · refine .append (.ite ?_) (.ite (.cons (fun _ _ => Action.noConfusion) .nil))
    exact .cons (fun _ _ => Action.noConfusion) (.cons (fun _ _ => Action.noConfusion) .nil)

theorem line_window {timeMs : Int} {f : SolHoFields} {rs : List Request} (h : solHoRequests timeMs f = .ok rs)
    {n : Nat} {on : SchedulerEvent Action} (hon : on ∈ expansion n rs) {q : UInt16} {v : Int} (hv : v ≠ 0)
    (hact : on.action = .setDedup q v) :
    UInt16.ofInt f.queueNum = q ∧ 0 < f.enableDedup ∧ on.timeMs = UInt64.ofInt (timeMs + f.freezeMs) ∧
      ∃ off ∈ expansion n rs, off.action = .setDedup q 0 ∧
        off.timeMs = UInt64.ofInt (timeMs + f.freezeMs + f.smoothMs) ∧ on.idx < off.idx := by
  -- the event is not one of the other parts of the line
  have hother : ∀ {m : Nat} {rs' : List Request}, AllActions Action.NoDedup rs' → on ∉ expansion m rs' := by
    intro m rs' hrs hmem
    obtain ⟨r, hr, -, hra⟩ := expansion_mem hmem
    exact hrs r hr q v (hra.symm.trans hact)
  obtain ⟨as, bs, has, hbs, hexp⟩ := solHoExpansion_dedup timeMs f
  rw [(solHoRequests_ok h).1, hexp, expansion_append, expansion_append] at hon ⊢
  by_cases hd : 0 < f.enableDedup
  · rw [if_pos hd] at hon ⊢
    obtain hon | hon := List.mem_append.mp hon
    · obtain hon | hon := List.mem_append.mp hon
      · exact absurd hon (hother has)
      · have hoff : ⟨UInt64.ofInt (timeMs + f.freezeMs + f.smoothMs), .setDedup (UInt16.ofInt f.queueNum) 0,
            (n + as.length + 1 : Nat)⟩ ∈ expansion (n + as.length)
              [(timeMs + f.freezeMs, .setDedup (UInt16.ofInt f.queueNum) 1),
                (timeMs + f.freezeMs + f.smoothMs, .setDedup (UInt16.ofInt f.queueNum) 0)] :=
          List.mem_cons_of_mem _ List.mem_cons_self
        obtain rfl | hon := List.mem_cons.mp hon
        · cases hact
          refine ⟨rfl, hd, rfl, _, List.mem_append_left _ (List.mem_append_right _ hoff), rfl, rfl, ?_⟩
          exact Int.ofNat_lt.mpr (Nat.lt_succ_self _)
        · rw [List.mem_singleton.mp hon] at hact
          cases hact
          exact absurd rfl hv
    · exact absurd hon (hother hbs)
  · rw [if_neg hd, expansion_nil, List.append_nil] at hon
    exact ((List.mem_append.mp hon).elim (hother has) (hother hbs)).elim

theorem toNat_ofInt_time {x : Int} (hmin : intMin ≤ x) (hmax : x ≤ intMax) (h : (UInt64.ofInt x).toNat < 2^63) :
    (UInt64.ofInt x).toNat = x := by
  simp only [UInt64.ofInt, UInt64.toNat_ofNat', intMin, intMax] at *
  omega

theorem compareEvent_neg {a b : SchedulerEvent Action} (htime : a.timeMs.toNat ≤ b.timeMs.toNat) (hidx : a.idx < b.idx) :
    schedulerCompareEvent a b < 0 := by
  unfold schedulerCompareEvent
  simp only [UInt64.lt_iff_toNat_lt]
  split_ifs <;> omega

/-! A trace without `SOL_HANDLEDUP` lines. -/

section Trace
variable {lines : List (List Char)} {rss : List (List Request)} {scheduler : SchedulerCtx Action} {q : UInt16} {t : Nat}

/-- **A start of a window that is the last write is inside its window.** -/
theorem rearmed_window (hread : ReadInto lines rss) (hwhole : WholeLines scheduler rss)
    (hdup : ∀ line ∈ lines, lineType? line ≠ some .solHandledup)
    (hsmooth : ∀ line ∈ lines, ∀ timeMs f, solHoLine? line = some (timeMs, f) → 0 ≤ f.smoothMs) (ht : t < 2^63)
    (h : Rearmed q scheduler.events t) : InWindow (dedupWindows q lines) t := by
  obtain ⟨on, hon, ⟨v, hv, hact⟩, hdue, hlast⟩ := h
  obtain ⟨k, hk⟩ := hwhole
  rw [hk] at hon hlast
  obtain ⟨rs, hrs, m, hmem, hsub⟩ := mem_expansion_flatten hon
  obtain ⟨line, hline, ret, hevent⟩ := hread.line rs (List.mem_of_mem_take hrs)
  rcases hsol : solHoLine? line with _ | ⟨timeMs, f⟩
  · have hno := (readEvent_noDedup hsol (hdup line hline)).value _ hevent
    obtain ⟨r, hr, -, hra⟩ := expansion_mem hmem
    exact absurd (hra.symm.trans hact) (hno r hr q v)
  · rw [readEvent_solHo hsol] at hevent
    simp only [C.bind_ok, C.pure_eq_ok, Except.ok.injEq, Prod.mk.injEq] at hevent
    obtain ⟨rs', hreq, rfl, -⟩ := hevent
    obtain ⟨hqueue, hd, hstart, off, hoff, hoffact, hstop, hidx⟩ := line_window hreq hmem hv hact
    obtain ⟨-, hmin, hmax, hend⟩ := solHoRequests_ok hreq
    have hs := hsmooth line hline timeMs f hsol
    have hontime : (on.timeMs.toNat : Int) = timeMs + f.freezeMs := by
      rw [hstart] at hdue ⊢
      exact toNat_ofInt_time hmin hmax (by omega)
    have hofftime : (off.timeMs.toNat : Int) = timeMs + f.freezeMs + f.smoothMs := by
      have hle := hend hd
      rw [hstop]
      simp only [UInt64.ofInt, UInt64.toNat_ofNat', intMax] at *
      omega
    refine ⟨(timeMs + f.freezeMs, timeMs + f.freezeMs + f.smoothMs), ?_, ?_, ?_⟩
    · refine List.mem_filterMap.mpr ⟨line, hline, ?_⟩
      simp only [dedupWindow?, hsol, if_pos (And.intro hqueue hd)]
    · show timeMs + f.freezeMs ≤ (t : Int)
      omega
    · show (t : Int) < timeMs + f.freezeMs + f.smoothMs
      by_contra hpast
      -- the end of the window is due, and comes after its start
      have hbefore := hlast off (hsub hoff) (by omega) (.inl hoffact)
      exact schedulerCompareEvent_asymm hbefore (compareEvent_neg (by omega) hidx)

/-- The last write is one that starts a window iff one such comes after all others. -/
theorem last_on_iff {es events : List (SchedulerEvent Action)} (hstrict : es.Pairwise fun a b => schedulerCompareEvent a b < 0)
    (hmem : ∀ e, e ∈ es ↔ e ∈ events ∧ e.timeMs.toNat ≤ t) {v : Int}
    (hlast : dedupSetting.last q (es.map SchedulerEvent.action) = some v) : v ≠ 0 ↔ Rearmed q events t := by
  obtain ⟨as, a, bs, hes, hq, hw, hbs⟩ := (Setting.last_eq_some dedupSetting _).mp hlast
  obtain ⟨pre, rest, rfl, rfl, hrest⟩ := List.map_eq_append_iff.mp hes
  obtain ⟨e, post, rfl, rfl, rfl⟩ := List.map_eq_cons_iff.mp hrest
  obtain ⟨-, htail, hpre⟩ := List.pairwise_append.mp hstrict
  have hpost := (List.pairwise_cons.mp htail).1
  have hidle : ∀ e' ∈ post, ∀ w, e'.action ≠ .setDedup q w ∧ e'.action ≠ .initNfqueue q := by
    intro e' he' w
    have hnone := hbs e'.action (List.mem_map_of_mem he')
    constructor <;> intro hact <;> rw [hact] at hnone <;> cases hnone rfl
  have hev := (hmem e).mp (by simp)
  refine ⟨?_, ?_⟩
  · intro hv
    have hact : e.action = .setDedup q v := by
      cases ha : e.action with
      | setDedup r w =>
        rw [ha] at hq hw
        cases hq
        cases hw
        rfl
      | initNfqueue r =>
        rw [ha] at hw
        cases hw
        exact absurd rfl hv
      | _ => rw [ha] at hw; cases hw
    refine ⟨e, hev.1, ⟨v, hv, hact⟩, hev.2, ?_⟩
    intro e' he' hdue hwrite
    have hin := (hmem e').mpr ⟨he', hdue⟩
    obtain hin | hin := List.mem_append.mp hin
    · exact hpre e' hin e List.mem_cons_self
    · obtain rfl | hin := List.mem_cons.mp hin
      · obtain hwrite | hwrite := hwrite
        · cases hwrite.symm.trans hact
          exact absurd rfl hv
        · cases hwrite.symm.trans hact
      · exact (hwrite.elim (hidle e' hin 0).1 (hidle e' hin 0).2).elim
  · intro h hv
    subst hv
    obtain ⟨on, hon, ⟨w, hw', hact⟩, hdue, hafter⟩ := h
    -- the last write ends a window or opens the queue
    have hoff : e.action = .setDedup q 0 ∨ e.action = .initNfqueue q := by
      cases ha : e.action with
      | setDedup r w =>
        rw [ha] at hq hw
        cases hq
        cases hw
        exact .inl rfl
      | initNfqueue r =>
        rw [ha] at hq
        cases hq
        exact .inr rfl
      | _ => rw [ha] at hw; cases hw
    have hlt := hafter e hev.1 hev.2 hoff
    have hin := (hmem on).mpr ⟨hon, hdue⟩
    obtain hin | hin := List.mem_append.mp hin
    · exact schedulerCompareEvent_asymm hlt (hpre on hin e List.mem_cons_self)
    · obtain rfl | hin := List.mem_cons.mp hin
      · exact schedulerCompareEvent_asymm hlt hlt
      · exact (hidle on hin w).1 hact

/-- **The suppression is the union of the windows iff, inside a window, the last write due starts one**: for every
    trace of whole lines without `SOL_HANDLEDUP`, at every point of every run at which queue `q` is open
    and exactly the events due by the time `t` have been executed. -/
theorem suppression_on_iff {csum : List UInt8 → UInt16} {env : Env} (henv : PacketThreads csum env)
    (clock : Nat → Nat) (mem : TcpCtx) (hparse : parseTrace schedulerInitCtx lines = .ok scheduler)
    (hread : ReadInto lines rss) (hwhole : WholeLines scheduler rss)
    (hdup : ∀ line ∈ lines, lineType? line ≠ some .solHandledup)
    (hsmooth : ∀ line ∈ lines, ∀ timeMs f, solHoLine? line = some (timeMs, f) → 0 ≤ f.smoothMs)
    {n : Nat} {o : QueueObj} (hopen : view (emuRun env scheduler clock mem n).world.2.1 q = some o) (ht : t < 2^63)
    (hdue : ∀ e ∈ scheduler.events, e ∈ executed (emuRun env scheduler clock mem n) ↔ e.timeMs.toNat ≤ t) :
    (o.worker.doDedup ≠ 0 ↔ InWindow (dedupWindows q lines) t) ↔
      (InWindow (dedupWindows q lines) t → Rearmed q scheduler.events t) := by
  have hindexed : Indexed (qsortEvents scheduler.events) (emuRun env scheduler clock mem n) := indexed_run _ n
  have hmem : ∀ e, e ∈ executed (emuRun env scheduler clock mem n) ↔ e ∈ scheduler.events ∧ e.timeMs.toNat ≤ t := by
    intro e
    refine ⟨fun he => ?_, fun he => (hdue e he.1).mpr he.2⟩
    have hev := (qsortEvents_perm scheduler.events).subset (hindexed.executed_prefix.subset he)
    exact ⟨hev, (hdue e hev).mp he⟩
  have hflag := last_on_iff (executed_strict hparse n) hmem (dedupSetting.run henv scheduler clock mem q n o hopen)
  have hinside := rearmed_window hread hwhole hdup hsmooth ht (q := q)
  show (dedupSetting.get o.worker ≠ 0 ↔ _) ↔ _
  rw [hflag]
  exact ⟨fun h => h.mpr, fun h => ⟨hinside, h⟩⟩

end Trace

/-! One window, and two that overlap. -/

theorem quietEnv_packets : PacketThreads zeroCsum quietEnv := fun _ _ _ => ⟨[], [], rfl⟩

def windowTrace : List (List Char) := ["0,INIT,0,1,100".toList, "10,SOL_HO,0,1,0,5,1,20,0,0".toList]

def windowScheduler : SchedulerCtx Action :=
  ⟨[⟨0, .initNfqueue 0, 0⟩, ⟨100, .teardownNfqueue 0, 1⟩, ⟨0, .startNfqueue 0, 2⟩, ⟨0, .setMark 0 1, 3⟩,
    ⟨10, .solUpdate 0 1, 4⟩, ⟨15, .setDedup 0 1, 5⟩, ⟨35, .setDedup 0 0, 6⟩]⟩

def overlapWindows : List (List Char) :=
  ["0,INIT,0,1,100".toList, "10,SOL_HO,0,1,0,0,1,30,0,0".toList, "20,SOL_HO,0,2,0,0,1,50,0,0".toList]

def overlapWindowsScheduler : SchedulerCtx Action :=
  ⟨[⟨0, .initNfqueue 0, 0⟩, ⟨100, .teardownNfqueue 0, 1⟩, ⟨0, .startNfqueue 0, 2⟩, ⟨0, .setMark 0 1, 3⟩,
    ⟨10, .solUpdate 0 1, 4⟩, ⟨10, .setDedup 0 1, 5⟩, ⟨40, .setDedup 0 0, 6⟩,
    ⟨20, .solUpdate 0 2, 7⟩, ⟨20, .setDedup 0 1, 8⟩, ⟨70, .setDedup 0 0, 9⟩]⟩

theorem windowScheduler_sorted : qsortEvents windowScheduler.events =
    [⟨0, .initNfqueue 0, 0⟩, ⟨0, .startNfqueue 0, 2⟩, ⟨0, .setMark 0 1, 3⟩, ⟨10, .solUpdate 0 1, 4⟩,
      ⟨15, .setDedup 0 1, 5⟩, ⟨35, .setDedup 0 0, 6⟩, ⟨100, .teardownNfqueue 0, 1⟩] := by
  apply qsortEvents_unique
  · decide
  · simp [schedulerCompareEvent]

theorem overlapWindowsScheduler_sorted : qsortEvents overlapWindowsScheduler.events =
    [⟨0, .initNfqueue 0, 0⟩, ⟨0, .startNfqueue 0, 2⟩, ⟨0, .setMark 0 1, 3⟩, ⟨10, .solUpdate 0 1, 4⟩,
      ⟨10, .setDedup 0 1, 5⟩, ⟨20, .solUpdate 0 2, 7⟩, ⟨20, .setDedup 0 1, 8⟩, ⟨40, .setDedup 0 0, 6⟩,
      ⟨70, .setDedup 0 0, 9⟩, ⟨100, .teardownNfqueue 0, 1⟩] := by
  apply qsortEvents_unique
  · decide
  · simp [schedulerCompareEvent]

theorem window_executed : executed (emuRun quietEnv windowScheduler (1000 * ·) zeroTcp 10) =
    [⟨0, .initNfqueue 0, 0⟩, ⟨0, .startNfqueue 0, 2⟩, ⟨0, .setMark 0 1, 3⟩, ⟨10, .solUpdate 0 1, 4⟩,
      ⟨15, .setDedup 0 1, 5⟩] := by
  simp only [emuRun, schedulerRun, windowScheduler_sorted]
  rfl

theorem overlapWindows_executed : executed (emuRun quietEnv overlapWindowsScheduler (1000 * ·) zeroTcp 16) =
    [⟨0, .initNfqueue 0, 0⟩, ⟨0, .startNfqueue 0, 2⟩, ⟨0, .setMark 0 1, 3⟩, ⟨10, .solUpdate 0 1, 4⟩,
      ⟨10, .setDedup 0 1, 5⟩, ⟨20, .solUpdate 0 2, 7⟩, ⟨20, .setDedup 0 1, 8⟩, ⟨40, .setDedup 0 0, 6⟩] := by
  simp only [emuRun, schedulerRun, overlapWindowsScheduler_sorted]
  rfl

theorem suppression_on_iff_one :
    ∃ o, view (emuRun quietEnv windowScheduler (1000 * ·) zeroTcp 10).world.2.1 0 = some o ∧
      (o.worker.doDedup ≠ 0 ↔ InWindow (dedupWindows 0 windowTrace) 20) := by
  have hopen : ∃ o, view (emuRun quietEnv windowScheduler (1000 * ·) zeroTcp 10).world.2.1 0 = some o := by
    simp only [emuRun, schedulerRun, windowScheduler_sorted]
    exact ⟨_, rfl⟩
  obtain ⟨o, ho⟩ := hopen
  refine ⟨o, ho, ?_⟩
  have hread : ReadInto windowTrace
      [[(0, .initNfqueue 0), (100, .teardownNfqueue 0), (0, .startNfqueue 0), (0, .setMark 0 1)],
        [(10, .solUpdate 0 1), (15, .setDedup 0 1), (35, .setDedup 0 0)]] :=
    .cons ⟨0, rfl⟩ (.cons ⟨0, rfl⟩ .nil)
  have hparse : parseTrace schedulerInitCtx windowTrace = .ok windowScheduler := rfl
  refine (suppression_on_iff quietEnv_packets (1000 * ·) zeroTcp hparse hread ⟨2, rfl⟩ ?_ ?_ ho (by decide) ?_).mpr ?_
  · decide +kernel
  · intro line hline timeMs f hf
    simp only [windowTrace, List.mem_cons, List.not_mem_nil, or_false] at hline
    obtain rfl | rfl := hline
    · cases hf
    · cases hf
      decide
  · rw [window_executed]
    decide
  · intro _
    exact ⟨⟨15, .setDedup 0 1, 5⟩, by decide, ⟨1, by decide, rfl⟩, by decide, by decide⟩

/-- **The end of one window inside another.** Of the windows from 10 to 40 and from 20 to 70 the first one's end
    switches the suppression off at 40. -/
theorem window_cut_short :
    parseTrace schedulerInitCtx overlapWindows = .ok overlapWindowsScheduler ∧
      dedupWindows 0 overlapWindows = [(10, 40), (20, 70)] ∧ InWindow (dedupWindows 0 overlapWindows) 50 ∧
      (∀ e ∈ overlapWindowsScheduler.events,
        e ∈ executed (emuRun quietEnv overlapWindowsScheduler (1000 * ·) zeroTcp 16) ↔ e.timeMs.toNat ≤ 50) ∧
      ∃ o, view (emuRun quietEnv overlapWindowsScheduler (1000 * ·) zeroTcp 16).world.2.1 0 = some o ∧
        o.worker.doDedup = 0 := by
  refine ⟨rfl, rfl, by decide +kernel, ?_, ?_⟩
  · rw [overlapWindows_executed]
    decide
  · simp only [emuRun, schedulerRun, overlapWindowsScheduler_sorted]
    exact ⟨_, rfl, rfl⟩

end Handoff
