import Handoff.Progress
import Handoff.QueueTable

/- The events a run has executed so far.

   They are the first ones of the sorted array, in its order (`indexed_run`), so that what is due and what
   has been executed can be told from the trace alone; an executed event is one that sorts before
   the one that waits (`mem_take_iff`). What the actions, the ticks and the packet threads
   keep of the state and of the events executed holds along every run (`history_run`). -/
namespace Handoff

open Iterate

/-! The history of the loop. -/

section History
variable {α ρ : Type}

/-- The events whose handlers have returned, in this order. -/
def executed (s : RunState α ρ) : List (SchedulerEvent α) := s.calls.filterMap Call.event?

variable {hs : Handlers α ρ} {events : List (SchedulerEvent α)} {clock : Nat → Nat} {s : RunState α ρ}

theorem executed_snoc {s s' : RunState α ρ} {c : Call α} (h : s'.calls = s.calls ++ [c]) :
    executed s' = executed s ++ c.event?.toList := by
  rw [executed, executed, h, List.filterMap_append]
  rcases hc : c.event? with _ | e <;> simp [hc]

theorem executed_step :
    executed (schedulerStep hs events clock s) = executed s ∨
      ∃ e, executed (schedulerStep hs events clock s) = executed s ++ [e] := by
  have hmoves := schedulerStep_moves hs events clock s
  generalize schedulerStep hs events clock s = s' at hmoves ⊢
  cases hmoves with
  | call fire h si w hpc hlate hcall =>
    rw [@executed_snoc _ _ s _ ⟨h, fire, clock (s.reads + 1) - clock 0, si⟩ rfl]
    cases h with
    | tick => exact .inl (List.append_nil _)
    | event e => exact .inr ⟨e, rfl⟩
  | _ => exact .inl rfl

theorem executed_mono {m n : Nat} (hmn : m ≤ n) :
    executed ((schedulerStep hs events clock)^[m] s) <+: executed ((schedulerStep hs events clock)^[n] s) := by
  induction n, hmn using Nat.le_induction with
  | base => exact List.prefix_refl _
  | succ n _ ih =>
    rw [Function.iterate_succ_apply']
    obtain h | ⟨e, h⟩ := @executed_step _ _ hs events clock ((schedulerStep hs events clock)^[n] s)
    · rwa [h]
    · rw [h]
      exact ih.trans (List.prefix_append _ _)

/-- Every beginning of the history was the history at some time. -/
theorem executed_attained (h0 : executed s = []) {n : Nat} {es : List (SchedulerEvent α)}
    (h : es <+: executed ((schedulerStep hs events clock)^[n] s)) :
    ∃ m ≤ n, executed ((schedulerStep hs events clock)^[m] s) = es := by
  induction n with
  | zero =>
    refine ⟨0, Nat.le_refl 0, ?_⟩
    rw [Function.iterate_zero_apply, h0] at h ⊢
    exact (List.prefix_nil.mp h).symm
  | succ n ih =>
    by_cases hes : es <+: executed ((schedulerStep hs events clock)^[n] s)
    · obtain ⟨m, hm, heq⟩ := ih hes
      exact ⟨m, by omega, heq⟩
    · -- the last step added the last event of `es`
      refine ⟨n + 1, Nat.le_refl _, ?_⟩
      rw [Function.iterate_succ_apply'] at h ⊢
      obtain hstep | ⟨e, hstep⟩ := @executed_step _ _ hs events clock ((schedulerStep hs events clock)^[n] s)
      · rw [hstep] at h
        exact absurd h hes
      · rw [hstep] at h ⊢
        exact ((List.prefix_concat_iff.mp h).resolve_right hes).symm

/-- Where the history stands in the array: up to the next event, but for one that waits for its time. -/
def Indexed (events : List (SchedulerEvent α)) (s : RunState α ρ) : Prop :=
  match s.pc with
  | .wait _ (.event e) _ => ∃ k, s.i = k + 1 ∧ executed s = events.take k ∧ events[k]? = some e
  | .crashed _ => executed s <+: events
  | _ => executed s = events.take s.i

theorem indexed_step (h : Indexed events s) : Indexed events (schedulerStep hs events clock s) := by
  have hmoves := schedulerStep_moves hs events clock s
  generalize schedulerStep hs events clock s = s' at hmoves ⊢
  cases hmoves with
  | finish hpc hev =>
    simp only [Indexed, hpc, executed] at h ⊢
    exact h
  | event e hpc hev hlt =>
    simp only [Indexed, hpc] at h
    exact ⟨s.i, rfl, h, hev⟩
  | tick e hpc hev hle =>
    simp only [Indexed, hpc, executed] at h ⊢
    exact h
  | early fire hd si hpc hearly =>
    simp only [Indexed, hpc, executed] at h ⊢
    exact h
  | call fire hd si w hpc hlate hcall =>
    cases hd with
    | tick =>
      simp only [Indexed, hpc] at h
      simpa only [Indexed, executed, List.filterMap_append, Call.event?, List.filterMap_cons, List.filterMap_nil,
        List.append_nil] using h
    | event e =>
      simp only [Indexed, hpc] at h
      obtain ⟨k, hi, hes, hev⟩ := h
      simp only [executed] at hes
      simp only [Indexed, executed, List.filterMap_append, hes, hi, List.take_add_one, hev, Call.event?,
        List.filterMap_cons, List.filterMap_nil, Option.toList_some]
  | fault fire hd si f hpc hlate hcall =>
    cases hd with
    | tick =>
      simp only [Indexed, hpc, executed] at h ⊢
      exact h ▸ List.take_prefix s.i events
    | event e =>
      simp only [Indexed, hpc, executed] at h ⊢
      obtain ⟨k, -, hes, -⟩ := h
      exact hes ▸ List.take_prefix k events
  | halted hpc => exact h

theorem Indexed.executed_prefix (h : Indexed events s) : executed s <+: events := by
  unfold Indexed at h
  split at h
  · obtain ⟨k, -, hes, -⟩ := h
    exact hes ▸ List.take_prefix k events
  · exact h
  · exact h ▸ List.take_prefix s.i events

theorem indexed_run (w : TcpCtx × ρ) :
    Always (schedulerStep hs events clock) (Indexed events) (schedulerStart w) :=
  always_of_step rfl fun _ h => indexed_step h

end History

/-! The events of a trace sort strictly. -/

section Numbered

/-- Every event bears its position as its index. -/
def Numbered (scheduler : SchedulerCtx Action) : Prop :=
  ∀ (i : Nat) (e : SchedulerEvent Action), scheduler.events[i]? = some e → e.idx = i

theorem addRequests_numbered (rs : List Request) : ∀ {s : SchedulerCtx Action}, Numbered s →
    Numbered (addRequests s rs) := by
  induction rs with
  | nil => exact fun h => h
  | cons r rs ih =>
    intro s h
    apply ih
    unfold schedulerAddEvent
    split
    · exact h
    · intro i e he
      simp only [List.getElem?_append] at he
      split at he
      · exact h i e he
      · next hi =>
        rw [List.getElem?_singleton] at he
        split at he
        · next hz =>
          cases he
          simp only
          omega
        · cases he

theorem parseTrace_numbered {lines : List (List Char)} :
    ∀ {s s' : SchedulerCtx Action}, Numbered s → parseTrace s lines = .ok s' → Numbered s' := by
  induction lines with
  | nil =>
    intro s s' h hparse
    cases hparse
    exact h
  | cons line lines ih =>
    intro s s' h hparse
    simp only [parseTrace, parseEvent, C.bind_ok, C.pure_eq_ok, Except.ok.injEq, Prod.exists, Prod.mk.injEq] at hparse
    obtain ⟨_, _, ⟨rs, ret, -, rfl, -⟩, hrest⟩ := hparse
    exact ih (addRequests_numbered rs h) hrest

theorem qsortEvents_strict {scheduler : SchedulerCtx Action} (h : Numbered scheduler) :
    (qsortEvents scheduler.events).Pairwise fun a b => schedulerCompareEvent a b < 0 := by
  -- no two events have one index
  have hne : scheduler.events.Pairwise fun a b => a.idx ≠ b.idx := by
    rw [List.pairwise_iff_getElem]
    intro i j hi hj hij
    rw [h i _ (List.getElem?_eq_getElem hi), h j _ (List.getElem?_eq_getElem hj)]
    omega
  have hne' := hne.perm (qsortEvents_perm scheduler.events).symm fun hab => hab.symm
  refine (hne'.and (qsortEvents_sorted scheduler.events)).imp ?_
  intro a b ⟨hidx, hle⟩
  obtain hlt | heq := Int.lt_or_eq_of_le hle
  · exact hlt
  · unfold schedulerCompareEvent at heq
    split_ifs at heq <;> omega

theorem schedulerCompareEvent_asymm {a b : SchedulerEvent Action} (hab : schedulerCompareEvent a b < 0) :
    ¬ schedulerCompareEvent b a < 0 :=
  fun hba => schedulerCompareEvent_not_le hab (le_of_lt hba)

/-- The events before the `k`-th are those that sort before it. -/
theorem mem_take_iff {events : List (SchedulerEvent Action)}
    (hs : events.Pairwise fun a b => schedulerCompareEvent a b < 0) {k : Nat} {e : SchedulerEvent Action}
    (he : events[k]? = some e) {a : SchedulerEvent Action} :
    a ∈ events.take k ↔ a ∈ events ∧ schedulerCompareEvent a e < 0 := by
  rw [List.pairwise_iff_getElem] at hs
  obtain ⟨hk, rfl⟩ := List.getElem?_eq_some_iff.mp he
  constructor
  · intro ha
    obtain ⟨j, hj, rfl⟩ := List.mem_take_iff_getElem.mp ha
    exact ⟨List.getElem_mem _, hs j k (by omega) hk (by omega)⟩
  · intro ⟨ha, hlt⟩
    obtain ⟨j, hj, rfl⟩ := List.mem_iff_getElem.mp ha
    apply List.mem_take_iff_getElem.mpr
    refine ⟨j, ?_, rfl⟩
    by_contra hjk
    by_cases hkj : k < j
    · exact schedulerCompareEvent_asymm hlt (hs k j hk hj hkj)
    · obtain rfl : j = k := by omega
      exact schedulerCompareEvent_asymm hlt hlt

end Numbered

/-! The history of the emulator. -/

section Emulator
variable {env : Env} {events : List (SchedulerEvent Action)} {clock : Nat → Nat} {s : EmuState}

theorem disturb_get (env : Env) (k : Nat) (x : ActionCtx) (p : Nat) :
    (env.disturb k x).heap[p]? = (x.heap[p]?).map fun o => { o with worker := env.threads k p o.worker } := by
  simp [Env.disturb, List.getElem?_mapIdx]

theorem Tagged.disturb {x : ActionCtx} (h : Tagged x) (k : Nat) : Tagged (env.disturb k x) := by
  refine ⟨h.same, ?_⟩
  intro q p hp
  obtain ⟨o, ho, htag⟩ := h.tag q p hp
  exact ⟨{ o with worker := env.threads k p o.worker }, by rw [disturb_get, ho]; rfl, htag⟩

theorem map_set_same {β : Type} {f : QueueObj → β} {heap : List QueueObj} {p : Nat} {o o' : QueueObj}
    (ho : heap[p]? = some o) (h : f o' = f o) : (heap.set p o').map f = heap.map f := by
  apply List.ext_getElem?
  intro r
  rw [List.getElem?_map, List.getElem?_map]
  by_cases hr : p = r
  · subst hr
    rw [List.getElem?_set_self (List.getElem?_eq_some_iff.mp ho).1, ho, Option.map_some, Option.map_some, h]
  · rw [List.getElem?_set_ne hr]

theorem statusOf_congr {x x' : ActionCtx} (hq : x'.queues = x.queues)
    (hheap : x'.heap.map QueueObj.nfq = x.heap.map QueueObj.nfq) (q : UInt16) : statusOf x' q = statusOf x q := by
  have hview : ∀ y : ActionCtx, statusOf y q =
      (entry y.queues q).bind fun p => ((y.heap.map QueueObj.nfq)[p]?).map NfqCtx.status := by
    intro y
    unfold statusOf view
    rcases entry y.queues q with _ | p
    · rfl
    · simp only [Option.bind_some, List.getElem?_map, Option.map_map]
      rfl
  rw [hview, hview, hq, hheap]

theorem statusOf_disturb (k : Nat) (x : ActionCtx) (q : UInt16) :
    statusOf (env.disturb k x) q = statusOf x q := by
  refine @statusOf_congr x (env.disturb k x) rfl ?_ q
  apply List.ext_getElem?
  intro p
  rw [List.getElem?_map, disturb_get, List.getElem?_map, Option.map_map]
  rfl

/-- **Run rule.** What the actions, the ticks and the packet threads keep of the sampler, the queues and the
    history, the run keeps. -/
theorem history_run {I : List (SchedulerEvent Action) → TcpCtx → ActionCtx → Prop}
    (h0 : I (executed s) s.world.1 s.world.2.1)
    (hthreads : ∀ es t x k, I es t x → I es t (env.disturb k x))
    (hadvance : ∀ es t x, I es t x → I es (advance t) x)
    (haction : ∀ es t x k (e : SchedulerEvent Action) emu, I es t x →
      runAction (env.lib k) ⟨t, x⟩ e.action = .ok emu → I (es ++ [e]) emu.tcp emu.action)
    (htick : ∀ es t x x', I es t x → tick t x = .ok x' → I es t x') :
    Always (schedulerStep (emuHandlers env) events clock)
      (fun s => I (executed s) s.world.1 s.world.2.1) s := by
  refine always_of_step ?_ ?_
  · exact h0
  intro s h
  have hmoves := schedulerStep_moves (emuHandlers env) events clock s
  generalize schedulerStep (emuHandlers env) events clock s = s' at hmoves ⊢
  cases hmoves with
  | tick e hpc hev hle => exact hadvance _ _ _ h
  | call fire hd si w hpc hlate hcall =>
    cases hd with
    | tick =>
      have ht : w.1 = s.world.1 := call_tick hcall
      simp only [Handlers.call, emuHandlers, C.bind_ok, C.pure_eq_ok, Except.ok.injEq] at hcall
      obtain ⟨_, ⟨x, hx, rfl⟩, rfl⟩ := hcall
      rw [@executed_snoc _ _ s _ ⟨.tick, fire, clock (s.reads + 1) - clock 0, si⟩ rfl]
      simp only [Call.event?, Option.toList_none, List.append_nil]
      exact htick _ _ _ _ (hthreads _ _ _ _ h) hx
    | event e =>
      simp only [Handlers.call, emuHandlers, C.bind_ok, C.pure_eq_ok, Except.ok.injEq] at hcall
      obtain ⟨emu, hemu, rfl⟩ := hcall
      rw [@executed_snoc _ _ s _ ⟨.event e, fire, clock (s.reads + 1) - clock 0, si⟩ rfl]
      exact haction _ _ _ _ _ _ (hthreads _ _ _ _ h) hemu
  | _ => exact h

end Emulator

end Handoff
