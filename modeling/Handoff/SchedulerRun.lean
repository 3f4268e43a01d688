import Handoff.SchedulerLoop

/- `scheduler_run` as a whole, for handlers that always return.

   The events are sorted by time and then by index (`qsortEvents_sorted`), the loop ends,
   and the handler calls it has made by then are the merged schedule of the sorted
   events, none of them early (`scheduler_run_merges`). -/
namespace Handoff

open Iterate

/-! The order of the events. -/

section Order
variable {α : Type}

theorem schedulerCompareEvent_le {a b : SchedulerEvent α} :
    schedulerCompareEvent a b ≤ 0 ↔ a.timeMs < b.timeMs ∨ a.timeMs = b.timeMs ∧ a.idx ≤ b.idx := by
  unfold schedulerCompareEvent
  rw [← UInt64.toNat_inj]
  simp only [UInt64.lt_iff_toNat_lt]
  split_ifs <;> omega

theorem schedulerCompareEvent_lt {a b : SchedulerEvent α} :
    schedulerCompareEvent a b < 0 ↔ a.timeMs < b.timeMs ∨ a.timeMs = b.timeMs ∧ a.idx < b.idx := by
  unfold schedulerCompareEvent
  rw [← UInt64.toNat_inj]
  simp only [UInt64.lt_iff_toNat_lt]
  split_ifs <;> omega

theorem qsortEvents_perm (es : List (SchedulerEvent α)) : (qsortEvents es).Perm es := List.mergeSort_perm es _

theorem qsortEvents_sorted (es : List (SchedulerEvent α)) :
    (qsortEvents es).Pairwise (fun a b => schedulerCompareEvent a b ≤ 0) := by
  let le (a b : SchedulerEvent α) : Bool := schedulerCompareEvent a b ≤ 0
  have htrans : ∀ a b c, le a b = true → le b c = true → le a c = true := by
    intro a b c
    simp only [le, decide_eq_true_eq, schedulerCompareEvent_le, ← UInt64.toNat_inj, UInt64.lt_iff_toNat_lt]
    omega
  have htotal : ∀ a b, (le a b || le b a) = true := by
    intro a b
    simp only [le, Bool.or_eq_true, decide_eq_true_eq, schedulerCompareEvent_le, ← UInt64.toNat_inj,
      UInt64.lt_iff_toNat_lt]
    omega
  exact (List.pairwise_mergeSort htrans htotal es).imp fun hab => of_decide_eq_true hab

theorem schedulerCompareEvent_not_le {a b : SchedulerEvent α} (hab : schedulerCompareEvent a b < 0) :
    ¬ schedulerCompareEvent b a ≤ 0 := by
  rw [schedulerCompareEvent_le, ← UInt64.toNat_inj]
  unfold schedulerCompareEvent at hab
  simp only [UInt64.lt_iff_toNat_lt] at hab ⊢
  split_ifs at hab <;> omega

/-- A strictly sorted arrangement of the events is the one `qsort` gives. -/
theorem qsortEvents_unique {es fs : List (SchedulerEvent α)} (hperm : fs.Perm es)
    (hs : fs.Pairwise (fun a b => schedulerCompareEvent a b < 0)) : qsortEvents es = fs := by
  have hantisymm : ∀ {a}, a ∈ fs → ∀ {b}, b ∈ fs →
      schedulerCompareEvent a b ≤ 0 → schedulerCompareEvent b a ≤ 0 → a = b := by
    apply List.Pairwise.forall_of_forall_of_flip
    · exact fun _ _ _ _ => rfl
    · exact hs.imp fun hab _ hba => absurd hba (schedulerCompareEvent_not_le hab)
    · exact hs.imp fun hab hba _ => absurd hba (schedulerCompareEvent_not_le hab)
  have hsort := (qsortEvents_perm es).trans hperm.symm
  apply hsort.eq_of_pairwise ?_ (qsortEvents_sorted es) (hs.imp le_of_lt)
  exact fun a b ha hb => hantisymm (hsort.subset ha) hb

end Order

section Run
variable {α ρ : Type}

/-- The event a handler call is for. -/
def Call.event? (c : Call α) : Option (SchedulerEvent α) :=
  match c.handler with
  | .event e => some e
  | .tick => none

theorem Merged.calls {hs : Handlers α ρ} {w w' : TcpCtx × ρ} {es : List (SchedulerEvent α)} {cs : List (Call α)}
    (h : Merged hs w es (cs.map Call.entry) w') : cs.filterMap Call.event? = es := by
  have he := h.events
  rwa [List.filterMap_map] at he

/-- Handlers that always return. -/
def totalHandlers (event : α → TcpCtx × ρ → TcpCtx × ρ) (tick : TcpCtx → ρ → ρ) : Handlers α ρ :=
  ⟨fun a w => .ok (event a w), fun t r => .ok (tick t r)⟩

theorem halted_stays {hs : Handlers α ρ} {es : List (SchedulerEvent α)} {clock : Nat → Nat} {s : RunState α ρ}
    {m n : Nat} (h : ((schedulerStep hs es clock)^[m] s).pc = .done ∨
      ∃ f, ((schedulerStep hs es clock)^[m] s).pc = .crashed f) (hmn : m ≤ n) :
    (schedulerStep hs es clock)^[n] s = (schedulerStep hs es clock)^[m] s := by
  obtain ⟨k, rfl⟩ := Nat.exists_eq_add_of_le' hmn
  rw [Function.iterate_add_apply]
  apply Function.iterate_fixed
  obtain h | ⟨f, h⟩ := h <;> simp only [schedulerStep, h]

variable (event : α → TcpCtx × ρ → TcpCtx × ρ) (tick : TcpCtx → ρ → ρ)

theorem total_never_crashes (es : List (SchedulerEvent α)) (clock : Nat → Nat) (w : TcpCtx × ρ) :
    Always (schedulerStep (totalHandlers event tick) es clock) (fun s => ∀ f, s.pc ≠ .crashed f)
      (schedulerStart w) := by
  refine always_of_step (fun f h => by cases h) ?_
  intro s hs f
  have hmoves := schedulerStep_moves (totalHandlers event tick) es clock s
  generalize schedulerStep (totalHandlers event tick) es clock s = s' at hmoves ⊢
  cases hmoves with
  | fault fire h si g hpc hlate hcall => cases h <;> cases hcall
  | early fire h si hpc hearly => simp [hpc]
  | halted hpc => exact hs f
  | _ => simp

/-- **`scheduler_run` merges events and ticks.** If the sampler's period is positive and its sum does not
    wrap whenever a tick is due, then for every non-decreasing clock without a bound the loop ends, the
    events' handlers have each been called once, in the order of the sorted array, with the ticks due
    before each event between them, and no call was early. -/
theorem scheduler_run_merges (ctx : SchedulerCtx α) (clock : Nat → Nat) (w : TcpCtx × ρ)
    (hmono : Monotone clock) (hunb : ∀ b, ∃ n, b ≤ clock n)
    (hready : ∀ n, TickReady (qsortEvents ctx.events) (schedulerRun (totalHandlers event tick) ctx clock w n)) :
    ∃ n, (schedulerRun (totalHandlers event tick) ctx clock w n).pc = .done ∧
      (schedulerRun (totalHandlers event tick) ctx clock w n).calls.filterMap Call.event? =
        qsortEvents ctx.events ∧
      (qsortEvents ctx.events).Perm ctx.events ∧
      (qsortEvents ctx.events).Pairwise (fun a b => schedulerCompareEvent a b ≤ 0) ∧
      Merged (totalHandlers event tick) w (qsortEvents ctx.events)
        ((schedulerRun (totalHandlers event tick) ctx clock w n).calls.map Call.entry)
        (schedulerRun (totalHandlers event tick) ctx clock w n).world ∧
      ∀ c ∈ (schedulerRun (totalHandlers event tick) ctx clock w n).calls, c.due.toNat ≤ c.elapsed := by
  obtain ⟨t, ⟨n, hn⟩, ht⟩ := loop_ends (totalHandlers event tick) (qsortEvents ctx.events) hmono hunb _
    (schedulerStart w) rfl rfl hready
  have hrun : schedulerRun (totalHandlers event tick) ctx clock w n = t := hn
  rcases ht with ⟨f, hf⟩ | ⟨cs, hcs, hok, hpc, hmerged⟩
  · rw [← hrun] at hf
    exact absurd hf (total_never_crashes event tick (qsortEvents ctx.events) clock w n f)
  · have hcalls : t.calls = cs := hcs
    refine ⟨n, ?_⟩
    rw [hrun, hcalls]
    exact ⟨hpc, hmerged.calls, qsortEvents_perm _, qsortEvents_sorted _, hmerged, fun c hc => (hok c hc).1⟩

end Run

/-! A run with one tick before its only event. -/

def lateEvent : SchedulerCtx Unit := ⟨[⟨3, (), 0⟩]⟩

/-- The tick counts itself, the event does nothing. -/
def lateStart : TcpCtx × Nat := ({ zeroTcp with sampleInterval := 2 }, 0)

theorem lateEvent_ready (n : Nat) :
    TickReady (qsortEvents lateEvent.events)
      (schedulerRun (totalHandlers (fun _ w => w) fun _ r => r + 1) lateEvent id lateStart n) := by
  have hsort : qsortEvents lateEvent.events = lateEvent.events := qsortEvents_unique (.refl _) (by decide)
  rw [schedulerRun, hsort]
  intro hpc e he
  match n with
  | 0 | 3 => exact fun _ => ⟨by decide, by decide⟩
  | 1 | 2 | 4 | 6 => cases hpc
  | 5 => cases he
  | n + 7 =>
    rw [halted_stays (m := 7) (.inl rfl) (by omega)] at hpc
    cases hpc

theorem scheduler_run_merges_late :
    ∃ n, (schedulerRun (totalHandlers (fun _ w => w) fun _ r => r + 1) lateEvent id lateStart n).pc = .done := by
  obtain ⟨n, hn, -⟩ := scheduler_run_merges (fun _ w => w) (fun _ r => r + 1) lateEvent id lateStart
    monotone_id (fun b => ⟨b, Nat.le_refl b⟩) lateEvent_ready
  exact ⟨n, hn⟩

end Handoff
