import Handoff.Lib.Iterate
import Handoff.Scheduler

/- How `scheduler_run` merges its events with the ticks of the sampler.

   `Merged` is the schedule the loop is to follow: before the event at time `t` come the
   ticks whose due times, `fire + sample_interval` and then one period later each, are at
   most `t`. `loop_ends` proves that from any state at the loop test the loop follows it to
   the end, or to a handler that faults, as long as the sampler's period is positive and
   the sum does not wrap whenever a tick is due. The inner loop ends because the clock grows
   without bound (`wait_ends`), the outer one because each tick brings `fire` closer to the
   next event (`next_event`). -/
namespace Handoff

open Iterate

/-- `tcp_sched->fire += tcp_sched->sample_interval`. -/
def advance (t : TcpCtx) : TcpCtx := { t with fire := t.fire + UInt64.ofInt t.sampleInterval }

/-- When the tick after `j` more ticks is due. -/
def dueTime (t : TcpCtx) (j : Nat) : UInt64 := getTcpSchedulerFire (advance^[j] t)

theorem dueTime_succ (t : TcpCtx) (j : Nat) : dueTime t (j + 1) = dueTime (advance t) j := by
  rw [dueTime, Function.iterate_succ_apply]
  rfl

/-- The next tick brings `fire` forward. -/
structure Forward (t : TcpCtx) : Prop where
  pos : 0 < t.sampleInterval
  noWrap : t.fire.toNat + t.sampleInterval.toNat < 2^64

theorem Forward.toNat_fire {t : TcpCtx} (h : Forward t) :
    (getTcpSchedulerFire t).toNat = t.fire.toNat + t.sampleInterval.toNat := by
  have h₁ := h.pos
  have h₂ := h.noWrap
  have hi : (UInt64.ofInt t.sampleInterval).toNat = t.sampleInterval.toNat := by
    simp only [UInt64.ofInt, UInt64.toNat_ofNat']
    omega
  rw [getTcpSchedulerFire, UInt64.toNat_add, hi]
  exact Nat.mod_eq_of_lt h₂

section Schedule
variable {α ρ : Type} (hs : Handlers α ρ)

/-- `m` ticks in a row. -/
def ticks : Nat → TcpCtx × ρ → C (TcpCtx × ρ)
  | 0, w => .ok w
  | m + 1, (t, r) => do
    let w ← hs.call .tick (advance t, r)
    ticks m w

/-- An event as the schedule lists it. -/
def eventAt (e : SchedulerEvent α) : Handler α × UInt64 := (.event e, e.timeMs)

/-- The next `m` ticks and when they are due. -/
def tickCalls (t : TcpCtx) (m : Nat) : List (Handler α × UInt64) :=
  (List.range m).map fun j => (.tick, dueTime t j)

theorem tickCalls_succ (t : TcpCtx) (m : Nat) :
    (tickCalls t (m + 1) : List (Handler α × UInt64)) = (.tick, dueTime t 0) :: tickCalls (advance t) m := by
  rw [tickCalls, List.range_succ_eq_map, List.map_cons, List.map_map]
  refine congrArg _ (List.map_congr_left fun j _ => ?_)
  rw [Function.comp_apply, dueTime_succ]

/-- **The schedule.** Between two events `m` ticks are called: those that are due at the next event's time
    or before, and not the one after them. Then comes the event. -/
inductive Merged : TcpCtx × ρ → List (SchedulerEvent α) → List (Handler α × UInt64) → TcpCtx × ρ → Prop
  | nil (w : TcpCtx × ρ) : Merged w [] [] w
  | cons {w w₁ w₂ w' : TcpCtx × ρ} {e : SchedulerEvent α} {es : List (SchedulerEvent α)}
      {cs : List (Handler α × UInt64)} (m : Nat) (due : ∀ j ≤ m, j < m ↔ dueTime w.1 j ≤ e.timeMs)
      (ticked : ticks hs m w = .ok w₁) (fired : hs.event e.action w₁ = .ok w₂) (rest : Merged w₂ es cs w') :
      Merged w (e :: es) (tickCalls w.1 m ++ eventAt e :: cs) w'

theorem Merged.events {w w' : TcpCtx × ρ} {es : List (SchedulerEvent α)} {cs : List (Handler α × UInt64)}
    (h : Merged hs w es cs w') :
    cs.filterMap (fun c => match c.1 with | .event e => some e | .tick => none) = es := by
  induction h with
  | nil => rfl
  | cons m _ _ _ _ ih => simp [tickCalls, eventAt, List.filterMap_append, ih]

end Schedule

/-! One step. -/

section Step
variable {α ρ : Type} (hs : Handlers α ρ) (events : List (SchedulerEvent α)) (clock : Nat → Nat)

/-- All a step of the loop can do. -/
inductive Moves (s : RunState α ρ) : RunState α ρ → Prop
  | finish (hpc : s.pc = .head) (hev : events[s.i]? = none) : Moves s { s with pc := .done }
  | event (e : SchedulerEvent α) (hpc : s.pc = .head) (hev : events[s.i]? = some e)
      (hlt : e.timeMs < getTcpSchedulerFire s.world.1) :
      Moves s { s with i := s.i + 1, pc := .wait e.timeMs (.event e) s.world.1.sampleInterval }
  | tick (e : SchedulerEvent α) (hpc : s.pc = .head) (hev : events[s.i]? = some e)
      (hle : getTcpSchedulerFire s.world.1 ≤ e.timeMs) :
      Moves s { s with pc := .wait (getTcpSchedulerFire s.world.1) .tick s.world.1.sampleInterval
                       world := (advance s.world.1, s.world.2) }
  | early (fire : UInt64) (h : Handler α) (si : Int) (hpc : s.pc = .wait fire h si)
      (hearly : clock (s.reads + 1) - clock 0 < fire.toNat) : Moves s { s with reads := s.reads + 1 }
  | call (fire : UInt64) (h : Handler α) (si : Int) (w : TcpCtx × ρ) (hpc : s.pc = .wait fire h si)
      (hlate : fire.toNat ≤ clock (s.reads + 1) - clock 0) (hcall : hs.call h s.world = .ok w) :
      Moves s { s with reads := s.reads + 1, pc := .head, world := w,
                       calls := s.calls ++ [⟨h, fire, clock (s.reads + 1) - clock 0, si⟩] }
  | fault (fire : UInt64) (h : Handler α) (si : Int) (f : Fault) (hpc : s.pc = .wait fire h si)
      (hlate : fire.toNat ≤ clock (s.reads + 1) - clock 0) (hcall : hs.call h s.world = .error f) :
      Moves s { s with reads := s.reads + 1, pc := .crashed f }
  | halted (hpc : s.pc = .done ∨ ∃ f, s.pc = .crashed f) : Moves s s

theorem schedulerStep_moves (s : RunState α ρ) : Moves hs events clock s (schedulerStep hs events clock s) := by
  unfold schedulerStep
  split
  · next hpc =>
    split
    · next hev => exact .finish hpc hev
    · next e hev =>
      simp only
      split
      · next hlt => exact .event e hpc hev hlt
      · next hlt => exact .tick e hpc hev (UInt64.not_lt.mp hlt)
  · next fire h si hpc =>
    simp only
    split
    · next hearly => exact .early fire h si hpc hearly
    · next hlate =>
      split
      · next f hcall => exact .fault fire h si f hpc (Nat.le_of_not_lt hlate) hcall
      · next w hcall => exact .call fire h si w hpc (Nat.le_of_not_lt hlate) hcall
  · next hpc => exact .halted (.inl hpc)
  · next f hpc => exact .halted (.inr ⟨f, hpc⟩)

end Step

/-! The inner loop. -/

section Loop
variable {α ρ : Type} (hs : Handlers α ρ) (events : List (SchedulerEvent α)) {clock : Nat → Nat}

/-- The state after the call of a handler, from the inner loop. -/
def afterCall (s : RunState α ρ) (fire : UInt64) (h : Handler α) (si : Int) (k elapsed : Nat) : RunState α ρ :=
  match hs.call h s.world with
  | .error f => { s with reads := k, pc := .crashed f }
  | .ok w => { s with reads := k, pc := .head, world := w, calls := s.calls ++ [⟨h, fire, elapsed, si⟩] }

theorem wait_late {fire : UInt64} {h : Handler α} {si : Int} (s : RunState α ρ) (hpc : s.pc = .wait fire h si)
    (hlate : ¬ clock (s.reads + 1) - clock 0 < fire.toNat) :
    schedulerStep hs events clock s =
      afterCall hs s fire h si (s.reads + 1) (clock (s.reads + 1) - clock 0) := by
  rcases hc : hs.call h s.world with f | w <;> simp only [schedulerStep, hpc, if_neg hlate, afterCall, hc]

/-- **The inner loop ends**, and the handler is called once the clock has reached its due time. -/
theorem wait_ends (hmono : Monotone clock) (hunb : ∀ b, ∃ n, b ≤ clock n) {fire : UInt64} {h : Handler α}
    {si : Int} (s : RunState α ρ) (hpc : s.pc = .wait fire h si) :
    ∃ k elapsed, fire.toNat ≤ elapsed ∧
      Reaches (schedulerStep hs events clock) s (afterCall hs s fire h si k elapsed) := by
  obtain ⟨N, hN⟩ := hunb (clock 0 + fire.toNat)
  -- all readings up to `N` may come too early, none after it
  induction hn : N - s.reads generalizing s with
  | zero =>
    have hlate : clock N ≤ clock (s.reads + 1) := hmono (by omega)
    exact ⟨_, _, by omega, 1, wait_late hs events s hpc (by omega)⟩
  | succ n ih =>
    by_cases hearly : clock (s.reads + 1) - clock 0 < fire.toNat
    · have hstep : schedulerStep hs events clock s = { s with reads := s.reads + 1 } := by
        simp only [schedulerStep, hpc, if_pos hearly]
      obtain ⟨k, el, hel, hr⟩ := ih { s with reads := s.reads + 1 } hpc (by simp only; omega)
      refine ⟨k, el, hel, Reaches.head ?_⟩
      rw [hstep]
      exact hr
    · exact ⟨_, _, by omega, 1, wait_late hs events s hpc hearly⟩

/-! The outer loop. -/

/-- At the loop test the next tick brings `fire` forward if it is due before the next event. -/
def TickReady (s : RunState α ρ) : Prop :=
  s.pc = .head → ∀ e, events[s.i]? = some e → getTcpSchedulerFire s.world.1 ≤ e.timeMs → Forward s.world.1

/-- A call in good order: not early, and a tick only with a positive period. -/
def CallOk (c : Call α) : Prop :=
  c.due.toNat ≤ c.elapsed ∧ (c.handler = .tick → 0 < c.sampleInterval)

/-- What a call was and when it was due. -/
def Call.entry (c : Call α) : Handler α × UInt64 := (c.handler, c.due)

/-- From `s` the loop reaches a fault, or `t` having made the calls `cs`. -/
def EndsIn (clock : Nat → Nat) (s : RunState α ρ) (Q : RunState α ρ → List (Call α) → Prop) : Prop :=
  ∃ t, Reaches (schedulerStep hs events clock) s t ∧
    ((∃ f, t.pc = .crashed f) ∨ ∃ cs, t.calls = s.calls ++ cs ∧ (∀ c ∈ cs, CallOk c) ∧ Q t cs)

variable {hs events}

theorem EndsIn.crash {s t : RunState α ρ} {f : Fault} {Q : RunState α ρ → List (Call α) → Prop}
    (hr : Reaches (schedulerStep hs events clock) s t) (h : t.pc = .crashed f) :
    EndsIn hs events clock s Q :=
  ⟨t, hr, .inl ⟨f, h⟩⟩

theorem step_event {s : RunState α ρ} {e : SchedulerEvent α} (hpc : s.pc = .head) (hev : events[s.i]? = some e)
    (hlt : e.timeMs < getTcpSchedulerFire s.world.1) :
    schedulerStep hs events clock s =
      { s with i := s.i + 1, pc := .wait e.timeMs (.event e) s.world.1.sampleInterval } := by
  simp only [schedulerStep, hpc, hev, if_pos hlt]

theorem step_tick {s : RunState α ρ} {e : SchedulerEvent α} (hpc : s.pc = .head) (hev : events[s.i]? = some e)
    (hle : getTcpSchedulerFire s.world.1 ≤ e.timeMs) :
    schedulerStep hs events clock s =
      { s with pc := .wait (getTcpSchedulerFire s.world.1) .tick s.world.1.sampleInterval
               world := (advance s.world.1, s.world.2) } := by
  simp only [schedulerStep, hpc, hev, if_neg (UInt64.not_lt.mpr hle)]
  rfl

theorem step_done {s : RunState α ρ} (hpc : s.pc = .head) (hev : events[s.i]? = none) :
    schedulerStep hs events clock s = { s with pc := .done } := by
  simp only [schedulerStep, hpc, hev]

theorem call_tick {w w' : TcpCtx × ρ} (h : hs.call .tick w = .ok w') : w'.1 = w.1 := by
  simp only [Handlers.call, C.bind_ok] at h
  obtain ⟨r, -, h⟩ := h
  rw [C.pure_eq_ok, Except.ok.injEq] at h
  rw [← h]

variable (hs events)

/-- One round of the outer loop, from a choice already made to the next loop test. -/
theorem call_round (hmono : Monotone clock) (hunb : ∀ b, ∃ n, b ≤ clock n) {fire : UInt64} {h : Handler α}
    {si : Int} {s : RunState α ρ} (hpc : s.pc = .wait fire h si) (hsi : h = .tick → 0 < si) :
    EndsIn hs events clock s (fun t cs => t.pc = .head ∧ t.i = s.i ∧ hs.call h s.world = .ok t.world ∧
      cs.map Call.entry = [(h, fire)]) := by
  obtain ⟨k, el, hel, hr⟩ := wait_ends hs events hmono hunb s hpc
  unfold afterCall at hr
  rcases hc : hs.call h s.world with f | w
  · rw [hc] at hr
    exact .crash hr rfl
  · rw [hc] at hr
    refine ⟨_, hr, .inr ⟨[⟨h, fire, el, si⟩], rfl, ?_, rfl, rfl, rfl, rfl⟩⟩
    intro c hcm
    rw [List.mem_singleton.mp hcm]
    exact ⟨hel, hsi⟩

/-- **The next event.** The ticks due before it are called, then the event's handler. -/
theorem next_event (hmono : Monotone clock) (hunb : ∀ b, ∃ n, b ≤ clock n) (e : SchedulerEvent α) :
    ∀ s : RunState α ρ, s.pc = .head → events[s.i]? = some e →
      Always (schedulerStep hs events clock) (TickReady events) s →
      EndsIn hs events clock s (fun t cs => t.pc = .head ∧ t.i = s.i + 1 ∧
        ∃ m w₁, (∀ j ≤ m, j < m ↔ dueTime s.world.1 j ≤ e.timeMs) ∧ ticks hs m s.world = .ok w₁ ∧
          hs.event e.action w₁ = .ok t.world ∧ cs.map Call.entry = tickCalls s.world.1 m ++ [eventAt e]) := by
  intro s
  -- each tick brings the deadline closer to the event
  induction hn : e.timeMs.toNat + 1 - s.world.1.fire.toNat using Nat.strongRecOn generalizing s with
  | ind n ih =>
    intro hpc hev hall
    by_cases hlt : e.timeMs < getTcpSchedulerFire s.world.1
    · -- the event is due first
      obtain ⟨t, hr, ht⟩ := call_round hs events hmono hunb
        (s := { s with i := s.i + 1, pc := .wait e.timeMs (.event e) s.world.1.sampleInterval }) rfl
        (fun h => by cases h)
      refine ⟨t, Reaches.head (step_event hpc hev hlt ▸ hr), ht.imp_right ?_⟩
      rintro ⟨cs, hcs, hok, htpc, hti, hcall, hmap⟩
      refine ⟨cs, hcs, hok, htpc, hti, 0, s.world, ?_, rfl, hcall, hmap⟩
      intro j hj
      obtain rfl := Nat.le_zero.mp hj
      exact ⟨fun h => absurd h (Nat.lt_irrefl 0), fun h => absurd hlt (UInt64.not_lt.mpr h)⟩
    · -- a tick is due first
      have hle : getTcpSchedulerFire s.world.1 ≤ e.timeMs := UInt64.not_lt.mp hlt
      have hfwd := hall.now hpc e hev hle
      have hfire := hfwd.toNat_fire
      have hsi := hfwd.pos
      have hle' := hle
      rw [UInt64.le_iff_toNat_le, hfire] at hle'
      let s₁ : RunState α ρ := { s with
        pc := .wait (getTcpSchedulerFire s.world.1) .tick s.world.1.sampleInterval
        world := (advance s.world.1, s.world.2) }
      have hr₁ : Reaches (schedulerStep hs events clock) s s₁ := ⟨1, step_tick hpc hev hle⟩
      obtain ⟨t, hr, ht⟩ := call_round hs events hmono hunb (s := s₁) rfl (fun _ => hsi)
      rcases ht with hcrash | ⟨cs, hcs, hok, htpc, hti, hcall, hmap⟩
      · exact ⟨t, hr₁.trans hr, .inl hcrash⟩
      · have htcp : t.world.1 = advance s.world.1 := call_tick hcall
        have hfire' : t.world.1.fire.toNat = s.world.1.fire.toNat + s.world.1.sampleInterval.toNat := by
          rw [htcp]
          exact hfire
        obtain ⟨u, hru, hu⟩ := ih _ (by omega) t rfl htpc (by rw [hti]; exact hev)
          (hall.later (hr₁.trans hr))
        refine ⟨u, hr₁.trans (hr.trans hru), hu.imp_right ?_⟩
        rintro ⟨cs', hcs', hok', hupc, hui, m, w₁, hm, hticks, hfired, hmap'⟩
        refine ⟨cs ++ cs', ?_, ?_, hupc, by rw [hui, hti], m + 1, w₁, ?_, ?_, hfired, ?_⟩
        · rw [hcs', hcs, List.append_assoc]
        · exact fun c hc => (List.mem_append.mp hc).elim (hok c) (hok' c)
        · intro j hj
          cases j with
          | zero => exact ⟨fun _ => hle, fun _ => Nat.succ_pos m⟩
          | succ j =>
            rw [dueTime_succ, ← htcp, ← hm j (Nat.le_of_succ_le_succ hj)]
            exact Nat.succ_lt_succ_iff
        · rw [show s.world = (s.world.1, s.world.2) from rfl, ticks]
          exact C.bind_ok.mpr ⟨_, hcall, hticks⟩
        · rw [List.map_append, hmap, hmap', htcp, tickCalls_succ]
          rfl

/-- **The loop follows the schedule.** From the loop test it calls the handlers of a merged schedule of
    the events that are left, none early, and ends, unless a handler faults. -/
theorem loop_ends (hmono : Monotone clock) (hunb : ∀ b, ∃ n, b ≤ clock n) :
    ∀ (es : List (SchedulerEvent α)) (s : RunState α ρ), events.drop s.i = es → s.pc = .head →
      Always (schedulerStep hs events clock) (TickReady events) s →
      EndsIn hs events clock s (fun t cs => t.pc = .done ∧ Merged hs s.world es (cs.map Call.entry) t.world) := by
  intro es
  induction es with
  | nil =>
    intro s hes hpc _
    have hnone : events[s.i]? = none := by
      rw [List.getElem?_eq_none_iff]
      exact List.drop_eq_nil_iff.mp hes
    exact ⟨{ s with pc := .done }, ⟨1, step_done hpc hnone⟩, .inr ⟨[], by simp, by simp, rfl, .nil _⟩⟩
  | cons e es ih =>
    intro s hes hpc hall
    have hev : events[s.i]? = some e := by
      rw [← List.head?_drop, hes]
      rfl
    obtain ⟨t, hr, ht⟩ := next_event hs events hmono hunb e s hpc hev hall
    rcases ht with hcrash | ⟨cs, hcs, hok, htpc, hti, m, w₁, hm, hticks, hfired, hmap⟩
    · exact ⟨t, hr, .inl hcrash⟩
    · have hes' : events.drop t.i = es := by
        rw [hti, ← List.drop_drop, hes]
        rfl
      obtain ⟨u, hru, hu⟩ := ih t hes' htpc (hall.later hr)
      refine ⟨u, hr.trans hru, hu.imp_right ?_⟩
      rintro ⟨cs', hcs', hok', hupc, hmerged⟩
      refine ⟨cs ++ cs', by rw [hcs', hcs, List.append_assoc], ?_, hupc, ?_⟩
      · exact fun c hc => (List.mem_append.mp hc).elim (hok c) (hok' c)
      · rw [List.map_append, hmap, List.append_assoc]
        exact .cons m hm hticks hfired hmerged

end Loop

end Handoff
