import Handoff.Lib.StableSort
import Handoff.SchedulerRun

/- The events of a scheduler, sorted.

   `scheduler_add_event` numbers the events as it stores them (`addEvents_table`), and
   `scheduler_compare_event` breaks a tie of the times by these numbers. So `qsort`, of which C only
   says that it leaves some permutation that the comparator finds in order, has one result: the events
   stably sorted by time (`events_fire_stably`). -/
namespace Handoff

open StableSort

section Calls
variable {α : Type}

/-- A sequence of `scheduler_add_event` calls, each a time and an action. -/
def addEvents (ctx : SchedulerCtx α) : List (UInt64 × α) → SchedulerCtx α
  | [] => ctx
  | c :: cs => addEvents (schedulerAddEvent ctx c.1 c.2).1 cs

/-- The events of such calls, numbered from `n` on. -/
def numberedEvents (n : Nat) (cs : List (UInt64 × α)) : List (SchedulerEvent α) :=
  (cs.zipIdx n).map fun c => ⟨c.1.1, c.1.2, c.2⟩

@[simp] theorem numberedEvents_nil (n : Nat) : numberedEvents n ([] : List (UInt64 × α)) = [] := rfl

@[simp] theorem numberedEvents_cons (n : Nat) (c : UInt64 × α) (cs : List (UInt64 × α)) :
    numberedEvents n (c :: cs) = ⟨c.1, c.2, n⟩ :: numberedEvents (n + 1) cs := rfl

theorem addEvents_table (cs : List (UInt64 × α)) :
    ∀ ctx : SchedulerCtx α, (addEvents ctx cs).events =
      ctx.events ++ numberedEvents ctx.events.length (cs.take (schedulerMaxEvent - ctx.events.length)) := by
  induction cs with
  | nil => simp [addEvents]
  | cons c cs ih =>
    intro ctx
    rw [addEvents, ih]
    unfold schedulerAddEvent
    split
    · next hfull => simp [Nat.sub_eq_zero_of_le hfull]
    · next hroom =>
      have hleft : schedulerMaxEvent - ctx.events.length = schedulerMaxEvent - (ctx.events.length + 1) + 1 := by omega
      rw [hleft, List.take_succ_cons, numberedEvents_cons]
      simp

theorem numberedEvents_idx (cs : List (UInt64 × α)) :
    ∀ n : Nat, (∀ e ∈ numberedEvents n cs, n ≤ e.idx) ∧
      (numberedEvents n cs).Pairwise fun a b => a.idx < b.idx := by
  induction cs with
  | nil => simp
  | cons c cs ih =>
    intro n
    obtain ⟨hle, hpair⟩ := ih (n + 1)
    rw [numberedEvents_cons]
    refine ⟨?_, List.pairwise_cons.mpr ⟨?_, hpair⟩⟩
    · intro e he
      obtain rfl | he := List.mem_cons.mp he
      · exact Int.le_refl _
      · have := hle e he
        push_cast at this
        omega
    · intro e he
      have := hle e he
      push_cast at this
      simp only
      omega

theorem numberedEvents_calls (cs : List (UInt64 × α)) :
    ∀ n : Nat, (numberedEvents n cs).map (fun e => (e.timeMs, e.action)) = cs := by
  induction cs with
  | nil => exact fun _ => rfl
  | cons c cs ih => exact fun n => by rw [numberedEvents_cons, List.map_cons, ih]

end Calls

section Sorted
variable {α : Type} {events : List (SchedulerEvent α)}

/-- On events of different numbers the comparator is a strict total order. -/
theorem schedulerCompareEvent_strictTotal (hidx : events.Pairwise fun a b => a.idx < b.idx) :
    IsStrictTotalOrder {e // e ∈ events} fun a b => schedulerCompareEvent a.1 b.1 < 0 where
  irrefl a := by
    rw [schedulerCompareEvent_lt]
    simp
  trans a b c := by
    simp only [schedulerCompareEvent_lt, ← UInt64.toNat_inj, UInt64.lt_iff_toNat_lt]
    omega
  trichotomous a b hab hba := by
    simp only [schedulerCompareEvent_lt, ← UInt64.toNat_inj, UInt64.lt_iff_toNat_lt] at hab hba
    have hnodup : (events.map SchedulerEvent.idx).Nodup := List.pairwise_map.mpr (hidx.imp ne_of_lt)
    exact Subtype.ext (List.inj_on_of_nodup_map hnodup a.2 b.2 (by omega))

/-- The time of an event, as a number. -/
def SchedulerEvent.time (e : SchedulerEvent α) : Nat := e.timeMs.toNat

/-- Whatever permutation the comparator finds in order is the stable sort by time. -/
theorem sorted_stably {fs : List (SchedulerEvent α)} (hidx : events.Pairwise fun a b => a.idx < b.idx)
    (hperm : fs.Perm events) (hsort : fs.Pairwise fun a b => schedulerCompareEvent a b ≤ 0) :
    StablySorted SchedulerEvent.time events fs := by
  apply stablySorted_of_tieBreak hidx hperm
  refine hsort.imp fun h => ?_
  rw [schedulerCompareEvent_le, UInt64.lt_iff_toNat_lt, ← UInt64.toNat_inj] at h
  exact h

end Sorted

/-- The table after a sequence of calls on a fresh scheduler. -/
def eventTable {α : Type} (calls : List (UInt64 × α)) : List (SchedulerEvent α) := (addEvents schedulerInitCtx calls).events

/-- **Events fire stably sorted.** After any sequence of calls the table holds the first 65535 of them, in order and
    numbered by their positions. The comparator orders them strictly and totally, and every permutation of them
    that it finds in order, hence whatever `qsort` leaves, is the stable sort of the calls by time. -/
theorem events_fire_stably {α : Type} (calls : List (UInt64 × α)) :
    eventTable calls = numberedEvents 0 (calls.take schedulerMaxEvent) ∧
      IsStrictTotalOrder {e // e ∈ eventTable calls} (fun a b => schedulerCompareEvent a.1 b.1 < 0) ∧
      ∀ fs : List (SchedulerEvent α), fs.Perm (eventTable calls) →
        fs.Pairwise (fun a b => schedulerCompareEvent a b ≤ 0) →
        StablySorted SchedulerEvent.time (eventTable calls) fs ∧ fs = qsortEvents (eventTable calls) ∧
          fs.map (fun e => (e.timeMs, e.action)) = (calls.take schedulerMaxEvent).mergeSort (fun c d => c.1 ≤ d.1) := by
  have htable : eventTable calls = numberedEvents 0 (calls.take schedulerMaxEvent) :=
    addEvents_table calls schedulerInitCtx
  have hidx := (numberedEvents_idx (calls.take schedulerMaxEvent) 0).2
  rw [htable]
  refine ⟨rfl, schedulerCompareEvent_strictTotal hidx, ?_⟩
  intro fs hperm hsort
  have hstable := sorted_stably hidx hperm hsort
  refine ⟨hstable, hstable.unique (sorted_stably hidx (qsortEvents_perm _) (qsortEvents_sorted _)), ?_⟩
  have hle : ∀ a b : SchedulerEvent α, decide (a.time ≤ b.time) = decide (a.timeMs ≤ b.timeMs) :=
    fun a b => decide_eq_decide.mpr UInt64.le_iff_toNat_le.symm
  rw [hstable.unique (stablySorted_mergeSort _ _), List.map_mergeSort (s := fun c d => c.1 ≤ d.1) fun a _ b _ => hle a b,
    numberedEvents_calls]

/-- Two calls at 5 around one at 3. -/
theorem events_fire_stably_three :
    [⟨3, 'b', 1⟩, ⟨5, 'a', 0⟩, ⟨5, 'c', 2⟩] = qsortEvents (eventTable [(5, 'a'), (3, 'b'), (5, 'c')]) :=
  ((events_fire_stably [(5, 'a'), (3, 'b'), (5, 'c')]).2.2 [⟨3, 'b', 1⟩, ⟨5, 'a', 0⟩, ⟨5, 'c', 2⟩]
    (by decide) (by decide)).2.1

end Handoff
