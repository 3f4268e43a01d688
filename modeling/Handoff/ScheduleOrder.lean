import Handoff.SchedulerRun

/- What a run of `scheduler_run` does, apart from when it does it.

   `orderStep` is the loop without a clock: it calls each handler as soon as it has chosen it.
   Actions may be idle, which means that their handlers leave the state as they find it; `orderView` forgets them, and
   the clock. Seen so, a step of the loop is a step of `orderStep` or none (`view_step`), and the loop
   always gets to the next one (`view_moves`). Two runs that have the same schedule, idle events apart,
   hence make the same calls, in the same states (`runs_agree`). -/
namespace Handoff

open Iterate

/-- A handler call without the clock: the event's action, if it is not a tick, when it was due, and the period of
    the sampler. -/
structure Deed (α : Type) where
  action : Option α
  due : UInt64
  sampleInterval : Int
  deriving DecidableEq, Repr

/-- Where the loop without a clock is. -/
inductive Turn (α : Type)
  | head
  | call (d : Deed α)
  | done
  | crashed (f : Fault)
  deriving DecidableEq, Repr

/-- A state of the loop without a clock: the events that are left, and what it has done. -/
structure OrderState (α ρ : Type) where
  rest : List (UInt64 × α)
  turn : Turn α
  world : TcpCtx × ρ
  deeds : List (Deed α)

section Order
variable {α ρ : Type} (hs : Handlers α ρ)

/-- The call of a handler, by its action. -/
def Handlers.act (a : Option α) (w : TcpCtx × ρ) : C (TcpCtx × ρ) :=
  match a with
  | some a => hs.event a w
  | none => hs.call .tick w

/-- One step of the loop without a clock. -/
def orderStep (s : OrderState α ρ) : OrderState α ρ :=
  match s.turn with
  | .head =>
    match s.rest with
    | [] => { s with turn := .done }
    | (t, a) :: rest =>
      let tcp := s.world.1
      if t < getTcpSchedulerFire tcp then { s with rest := rest, turn := .call ⟨some a, t, tcp.sampleInterval⟩ }
      else
        { s with turn := .call ⟨none, getTcpSchedulerFire tcp, tcp.sampleInterval⟩
                 world := (advance tcp, s.world.2) }
  | .call d =>
    match hs.act d.action s.world with
    | .error f => { s with turn := .crashed f }
    | .ok w => { s with turn := .head, world := w, deeds := s.deeds ++ [d] }
  | .done => s
  | .crashed _ => s

end Order

/-! The loop as seen without its clock and its idle events. -/

section View
variable {α ρ : Type} (idle : α → Bool)

/-- A call of the loop, seen so. -/
def deed? (h : Handler α) (due : UInt64) (si : Int) : Option (Deed α) :=
  match h with
  | .tick => some ⟨none, due, si⟩
  | .event e => if idle e.action then none else some ⟨some e.action, due, si⟩

/-- The calls of a run that are not idle. -/
def deeds (cs : List (Call α)) : List (Deed α) := cs.filterMap fun c => deed? idle c.handler c.due c.sampleInterval

/-- A schedule, seen so. -/
def busy (es : List (SchedulerEvent α)) : List (UInt64 × α) :=
  (es.filter fun e => !idle e.action).map fun e => (e.timeMs, e.action)

/-- While the loop waits for an idle event it is seen at its test. -/
def viewTurn : Pc α → Turn α
  | .head => .head
  | .wait due h si => (deed? idle h due si).elim .head .call
  | .done => .done
  | .crashed f => .crashed f

def orderView (events : List (SchedulerEvent α)) (s : RunState α ρ) : OrderState α ρ :=
  ⟨busy idle (events.drop s.i), viewTurn idle s.pc, s.world, deeds idle s.calls⟩

@[simp] theorem busy_cons_idle {e : SchedulerEvent α} (h : idle e.action = true) (es : List (SchedulerEvent α)) :
    busy idle (e :: es) = busy idle es := by
  simp [busy, h]

@[simp] theorem busy_cons {e : SchedulerEvent α} (h : idle e.action = false) (es : List (SchedulerEvent α)) :
    busy idle (e :: es) = (e.timeMs, e.action) :: busy idle es := by
  simp [busy, h]

@[simp] theorem deed?_tick (due : UInt64) (si : Int) : deed? idle .tick due si = some ⟨none, due, si⟩ := rfl

theorem deed?_idle {e : SchedulerEvent α} (h : idle e.action = true) (due : UInt64) (si : Int) :
    deed? idle (.event e) due si = none := by
  simp [deed?, h]

theorem deed?_busy {e : SchedulerEvent α} (h : idle e.action = false) (due : UInt64) (si : Int) :
    deed? idle (.event e) due si = some ⟨some e.action, due, si⟩ := by
  simp [deed?, h]

/-- A table the view can follow: it is sorted by time, and its last event is not idle, so that no tick is due
    to an idle event alone. -/
structure Busy (events : List (SchedulerEvent α)) : Prop where
  sorted : events.Pairwise fun a b => a.timeMs ≤ b.timeMs
  last : ∀ e ∈ events.getLast?, idle e.action = false

/-- While events are left, one that is not idle is, and no event is due before the first one left. -/
theorem Busy.next {events : List (SchedulerEvent α)} (hb : Busy idle events) {i : Nat} {e : SchedulerEvent α}
    (he : events[i]? = some e) : ∃ c cs, busy idle (events.drop i) = c :: cs ∧ e.timeMs ≤ c.1 := by
  obtain ⟨hi, rfl⟩ := List.getElem?_eq_some_iff.mp he
  have hne : busy idle (events.drop i) ≠ [] := by
    have hlast : events.getLast (List.ne_nil_of_length_pos (by omega)) ∈ events.drop i := by
      rw [← List.getLast_drop (by simpa using hi)]
      exact List.getLast_mem _
    have hbusy := hb.last _ (List.getLast?_eq_some_getLast (List.ne_nil_of_length_pos (by omega)))
    refine List.ne_nil_of_mem (List.mem_map_of_mem (List.mem_filter.mpr ⟨hlast, ?_⟩))
    simpa using hbusy
  obtain ⟨c, cs, hc⟩ := List.exists_cons_of_ne_nil hne
  refine ⟨c, cs, hc, ?_⟩
  have hmem : c ∈ busy idle (events.drop i) := hc ▸ List.mem_cons_self
  obtain ⟨e', he', rfl⟩ := List.mem_map.mp hmem
  have hdrop := List.drop_eq_getElem_cons hi
  rw [hdrop] at he'
  obtain rfl | he' := List.mem_cons.mp (List.mem_filter.mp he').1
  · exact UInt64.le_refl _
  · have hpair := hb.sorted.sublist (List.drop_sublist i events)
    rw [hdrop] at hpair
    exact (List.pairwise_cons.mp hpair).1 e' he'

end View

section Simulation
variable {α ρ : Type} {hs : Handlers α ρ} {idle : α → Bool} {events : List (SchedulerEvent α)} {clock : Nat → Nat}

/-- The handlers of idle actions leave the state alone. -/
def IdleActions (hs : Handlers α ρ) (idle : α → Bool) : Prop :=
  ∀ a, idle a = true → ∀ w, hs.event a w = .ok w

/-- The call of a handler that is not idle is the next step of the loop without a clock. -/
theorem view_call {s : RunState α ρ} {due : UInt64} {h : Handler α} {si : Int} (hpc : s.pc = .wait due h si)
    {d : Deed α} (hd : deed? idle h due si = some d) (k elapsed : Nat) :
    orderView idle events (afterCall hs s due h si k elapsed) = orderStep hs (orderView idle events s) := by
  have hact : hs.call h s.world = hs.act d.action s.world := by
    rcases h with _ | e
    · cases hd
      rfl
    · rcases he : idle e.action with _ | _
      · rw [deed?_busy idle he] at hd
        cases hd
        rfl
      · rw [deed?_idle idle he] at hd
        cases hd
  unfold afterCall orderStep
  simp only [orderView, hpc, viewTurn, hd, Option.elim_some, ← hact]
  rcases hs.call h s.world with f | w
  · rfl
  · simp only [deeds, List.filterMap_append, List.filterMap_cons, hd, List.filterMap_nil]

/-- The call of an idle handler is no step at all. -/
theorem view_idle (events : List (SchedulerEvent α)) (hidle : IdleActions hs idle) {s : RunState α ρ} {due : UInt64} {h : Handler α}
    {si : Int} (hpc : s.pc = .wait due h si) (hd : deed? idle h due si = none) (k elapsed : Nat) :
    ∃ t, afterCall hs s due h si k elapsed = t ∧ t.pc = .head ∧ t.i = s.i ∧ orderView idle events t = orderView idle events s := by
  rcases h with _ | e
  · cases hd
  · have he : idle e.action = true := by
      by_contra he
      rw [deed?_busy idle (by simpa using he)] at hd
      cases hd
    have hcall : hs.call (.event e) s.world = .ok s.world := hidle e.action he s.world
    refine ⟨_, rfl, ?_⟩
    unfold afterCall
    rw [hcall]
    refine ⟨rfl, rfl, ?_⟩
    simp [orderView, hpc, viewTurn, deeds, List.filterMap_append, hd]

theorem view_head (clock : Nat → Nat) (hb : Busy idle events) {s : RunState α ρ} (hpc : s.pc = .head) :
    orderView idle events (schedulerStep hs events clock s) = orderStep hs (orderView idle events s) ∨
      ∃ e, events[s.i]? = some e ∧ idle e.action = true ∧
        schedulerStep hs events clock s =
          { s with i := s.i + 1, pc := .wait e.timeMs (.event e) s.world.1.sampleInterval } ∧
        orderView idle events (schedulerStep hs events clock s) = orderView idle events s := by
  rcases hev : events[s.i]? with _ | e
  · left
    have hdrop : events.drop s.i = [] := List.drop_eq_nil_of_le (List.getElem?_eq_none_iff.mp hev)
    rw [step_done hpc hev]
    simp [orderView, viewTurn, orderStep, hpc, hdrop, busy]
  · have hdrop : events.drop s.i = e :: events.drop (s.i + 1) := by
      obtain ⟨hi, rfl⟩ := List.getElem?_eq_some_iff.mp hev
      exact List.drop_eq_getElem_cons hi
    by_cases hlt : e.timeMs < getTcpSchedulerFire s.world.1
    · rw [step_event hpc hev hlt]
      rcases he : idle e.action with _ | _
      · left
        simp [orderView, viewTurn, orderStep, hpc, hdrop, he, hlt, deed?_busy]
      · right
        exact ⟨e, rfl, he, rfl, by simp [orderView, viewTurn, hpc, hdrop, he, deed?_idle]⟩
    · -- a tick that is due before an idle event is due before the next one that is not
      left
      obtain ⟨c, cs, hcs, hle⟩ := hb.next idle hev
      have hle' : ¬ c.1 < getTcpSchedulerFire s.world.1 :=
        UInt64.not_lt.mpr (UInt64.le_trans (UInt64.not_lt.mp hlt) hle)
      rw [step_tick hpc hev (UInt64.not_lt.mp hlt)]
      simp [orderView, viewTurn, orderStep, hpc, hcs, hle']

/-- **A step of the loop** is a step of the loop without a clock, or none. -/
theorem view_step (clock : Nat → Nat) (hidle : IdleActions hs idle) (hb : Busy idle events) (s : RunState α ρ) :
    orderView idle events (schedulerStep hs events clock s) = orderView idle events s ∨
      orderView idle events (schedulerStep hs events clock s) = orderStep hs (orderView idle events s) := by
  rcases hpc : s.pc with _ | ⟨due, h, si⟩ | _ | f
  · obtain hview | ⟨-, -, -, -, hview⟩ := view_head clock hb hpc
    · exact .inr hview
    · exact .inl hview
  · by_cases hearly : clock (s.reads + 1) - clock 0 < due.toNat
    · have hstep : schedulerStep hs events clock s = { s with reads := s.reads + 1 } := by
        simp only [schedulerStep, hpc, if_pos hearly]
      rw [hstep]
      exact .inl rfl
    · rw [wait_late hs events s hpc hearly]
      rcases hd : deed? idle h due si with _ | d
      · obtain ⟨t, ht, -, -, hview⟩ := view_idle events hidle hpc hd (s.reads + 1) (clock (s.reads + 1) - clock 0)
        exact .inl (ht ▸ hview)
      · exact .inr (view_call hpc hd _ _)
  · left
    simp only [schedulerStep, hpc]
  · left
    simp only [schedulerStep, hpc]

theorem view_moves_head (hidle : IdleActions hs idle) (hb : Busy idle events) (hmono : Monotone clock)
    (hunb : ∀ b, ∃ n, b ≤ clock n) (s : RunState α ρ) (hpc : s.pc = .head) :
    ∃ t, Reaches (schedulerStep hs events clock) s t ∧ orderView idle events t = orderStep hs (orderView idle events s) := by
  -- every idle event on the way leaves one event less
  induction hn : events.length - s.i generalizing s with
  | zero =>
    obtain hview | ⟨e, he, -⟩ := view_head clock hb hpc
    · exact ⟨_, ⟨1, rfl⟩, hview⟩
    · have := (List.getElem?_eq_some_iff.mp he).1
      omega
  | succ n ih =>
    obtain hview | ⟨e, he, hbusy, hstep, hview⟩ := view_head clock hb hpc
    · exact ⟨_, ⟨1, rfl⟩, hview⟩
    · have hwait : (schedulerStep hs events clock s).pc = .wait e.timeMs (.event e) s.world.1.sampleInterval := by
        rw [hstep]
      obtain ⟨k, el, -, hr⟩ := wait_ends hs events hmono hunb _ hwait
      obtain ⟨t, ht, htpc, hti, htview⟩ :=
        view_idle events hidle hwait (deed?_idle idle hbusy _ _) k el
      rw [ht] at hr
      have hi : t.i = s.i + 1 := by rw [hti, hstep]
      obtain ⟨u, hru, hu⟩ := ih t htpc (by omega)
      exact ⟨u, (Reaches.head hr).trans hru, by rw [hu, htview, hview]⟩

/-- **The loop always moves on.** -/
theorem view_moves (hidle : IdleActions hs idle) (hb : Busy idle events) (hmono : Monotone clock)
    (hunb : ∀ b, ∃ n, b ≤ clock n) (s : RunState α ρ) :
    ∃ t, Reaches (schedulerStep hs events clock) s t ∧ orderView idle events t = orderStep hs (orderView idle events s) := by
  rcases hpc : s.pc with _ | ⟨due, h, si⟩ | _ | f
  · exact view_moves_head hidle hb hmono hunb s hpc
  · obtain ⟨k, el, -, hr⟩ := wait_ends hs events hmono hunb s hpc
    rcases hd : deed? idle h due si with _ | d
    · obtain ⟨t, ht, htpc, -, htview⟩ := view_idle events hidle hpc hd k el
      rw [ht] at hr
      obtain ⟨u, hru, hu⟩ := view_moves_head hidle hb hmono hunb t htpc
      exact ⟨u, hr.trans hru, by rw [hu, htview]⟩
    · exact ⟨_, hr, view_call hpc hd k el⟩
  · exact ⟨s, .refl s, by simp [orderView, viewTurn, orderStep, hpc]⟩
  · exact ⟨s, .refl s, by simp [orderView, viewTurn, orderStep, hpc]⟩

/-- **What one run does another one does too**, whatever clocks they read, if their schedules are the same, idle
    events apart. -/
theorem runs_agree {events' : List (SchedulerEvent α)} (clock : Nat → Nat) {clock' : Nat → Nat} (hidle : IdleActions hs idle)
    (hb : Busy idle events) (hb' : Busy idle events') (hbusy : busy idle events' = busy idle events)
    (hmono : Monotone clock') (hunb : ∀ b, ∃ n, b ≤ clock' n) (w : TcpCtx × ρ) (n : Nat) :
    ∃ m, orderView idle events' ((schedulerStep hs events' clock')^[m] (schedulerStart w)) =
      orderView idle events ((schedulerStep hs events clock)^[n] (schedulerStart w)) := by
  have hstart : orderView idle events' (schedulerStart w) = orderView idle events (schedulerStart w) := by
    simp only [orderView, schedulerStart, List.drop_zero, hbusy]
  obtain ⟨k, hk⟩ := view_orbit (view_step clock hidle hb) (schedulerStart w) n
  obtain ⟨t, ⟨m, rfl⟩, hm⟩ := orbit_view (view_moves hidle hb' hmono hunb) (schedulerStart w) k
  exact ⟨m, by rw [hm, hk, hstart]⟩

theorem orderStep_deeds (s : OrderState α ρ) : s.deeds <+: (orderStep hs s).deeds := by
  unfold orderStep
  split
  · split
    · exact List.prefix_rfl
    · simp only
      split <;> exact List.prefix_rfl
  · split
    · exact List.prefix_rfl
    · exact List.prefix_append _ _
  · exact List.prefix_rfl
  · exact List.prefix_rfl

theorem orderSteps_deeds (s : OrderState α ρ) {j k : Nat} (h : j ≤ k) :
    ((orderStep hs)^[j] s).deeds <+: ((orderStep hs)^[k] s).deeds := by
  induction k, h using Nat.le_induction with
  | base => exact List.prefix_rfl
  | succ k _ ih =>
    rw [Function.iterate_succ_apply']
    exact ih.trans (orderStep_deeds _)

end Simulation

section Runs
variable {α ρ : Type} (hs : Handlers α ρ) (idle : α → Bool)

/-- One run has got as far as another one: it has done the same and left the same state, and it has ended as the
    other one has. -/
structure Agrees (s t : RunState α ρ) : Prop where
  world : t.world = s.world
  deeds : deeds idle t.calls = deeds idle s.calls
  done : s.pc = .done → t.pc = .done
  crashed : ∀ f, s.pc = .crashed f → t.pc = .crashed f

theorem viewTurn_done {pc : Pc α} : viewTurn idle pc = .done ↔ pc = .done := by
  rcases pc with _ | ⟨due, h, si⟩ | _ | f
  · simp [viewTurn]
  · rcases hd : deed? idle h due si with _ | d <;> simp [viewTurn, hd]
  · simp [viewTurn]
  · simp [viewTurn]

theorem viewTurn_crashed {pc : Pc α} {f : Fault} : viewTurn idle pc = .crashed f ↔ pc = .crashed f := by
  rcases pc with _ | ⟨due, h, si⟩ | _ | f
  · simp [viewTurn]
  · rcases hd : deed? idle h due si with _ | d <;> simp [viewTurn, hd]
  · simp [viewTurn]
  · simp [viewTurn]

theorem agrees_of_view {events events' : List (SchedulerEvent α)} {s t : RunState α ρ}
    (h : orderView idle events' t = orderView idle events s) : Agrees idle s t := by
  simp only [orderView, OrderState.mk.injEq] at h
  obtain ⟨-, hturn, hworld, hdeeds⟩ := h
  refine ⟨hworld, hdeeds, ?_, ?_⟩
  · intro hs
    rwa [(viewTurn_done idle).mpr hs, viewTurn_done] at hturn
  · intro f hs
    rwa [(viewTurn_crashed idle).mpr hs, viewTurn_crashed] at hturn

theorem qsortEvents_times (es : List (SchedulerEvent α)) : (qsortEvents es).Pairwise fun a b => a.timeMs ≤ b.timeMs := by
  refine (qsortEvents_sorted es).imp fun h => ?_
  rw [schedulerCompareEvent_le] at h
  rw [UInt64.le_iff_toNat_le]
  obtain h | ⟨h, -⟩ := h
  · exact Nat.le_of_lt (UInt64.lt_iff_toNat_lt.mp h)
  · rw [h]

/-- Without idle actions any sorted table will do. -/
theorem busy_all {es : List (SchedulerEvent α)} (h : es.Pairwise fun a b => a.timeMs ≤ b.timeMs) :
    Busy (fun _ => false) es :=
  ⟨h, fun _ _ => rfl⟩

/-- **The clock decides when a handler is called, never which one.** Of the calls that two runs of one table have
    made by any two points, under any two clocks, one list is a prefix of the other, and whatever one run reaches, a
    fault or the end included, the other one reaches too if its clock never goes back and grows without bound. -/
theorem clock_free (ctx : SchedulerCtx α) (w : TcpCtx × ρ) (clock clock' : Nat → Nat) :
    (∀ n m, deeds (fun _ => false) (schedulerRun hs ctx clock w n).calls <+:
          deeds (fun _ => false) (schedulerRun hs ctx clock' w m).calls ∨
        deeds (fun _ => false) (schedulerRun hs ctx clock' w m).calls <+:
          deeds (fun _ => false) (schedulerRun hs ctx clock w n).calls) ∧
      (Monotone clock' → (∀ b, ∃ n, b ≤ clock' n) → ∀ n, ∃ m,
        Agrees (fun _ => false) (schedulerRun hs ctx clock w n) (schedulerRun hs ctx clock' w m)) := by
  have hidle : IdleActions hs (fun _ => false) := fun _ h => by cases h
  have hb : Busy (fun _ => false) (qsortEvents ctx.events) := busy_all (qsortEvents_times _)
  refine ⟨?_, ?_⟩
  · intro n m
    obtain ⟨j, hj⟩ := view_orbit (view_step clock hidle hb) (schedulerStart w) n
    obtain ⟨k, hk⟩ := view_orbit (view_step clock' hidle hb) (schedulerStart w) m
    have hj' := congrArg OrderState.deeds hj
    have hk' := congrArg OrderState.deeds hk
    simp only [orderView] at hj' hk'
    unfold schedulerRun
    rw [hj', hk']
    exact (Nat.le_total j k).imp (orderSteps_deeds _) (orderSteps_deeds _)
  · intro hmono hunb n
    obtain ⟨m, hm⟩ := runs_agree clock hidle hb hb rfl hmono hunb w n
    exact ⟨m, agrees_of_view _ hm⟩

end Runs

/-- The run with one tick before its only event, under a clock that is read every third millisecond. -/
theorem clock_free_late :
    ∃ m, (schedulerRun (totalHandlers (fun _ w => w) fun _ r => r + 1) lateEvent (3 * ·) lateStart m).pc = .done ∧
      deeds (fun _ => false)
        (schedulerRun (totalHandlers (fun _ w => w) fun _ r => r + 1) lateEvent (3 * ·) lateStart m).calls =
          [⟨none, 2, 2⟩, ⟨some (), 3, 2⟩] := by
  have hsort : qsortEvents lateEvent.events = lateEvent.events := qsortEvents_unique (.refl _) (by decide)
  obtain ⟨m, hm⟩ := (clock_free (totalHandlers (fun _ w => w) fun _ r => r + 1) lateEvent lateStart id (3 * ·)).2
    (fun a b h => Nat.mul_le_mul_left 3 h) (fun b => ⟨b, by omega⟩) 7
  rw [schedulerRun, hsort] at hm
  exact ⟨m, hm.done rfl, hm.deeds⟩

end Handoff
