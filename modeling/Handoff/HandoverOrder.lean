import Handoff.EventTable
import Handoff.RadioGap

/- The order in which the events of one `HO` line are executed.

   The parser adds the start of the queue right after its stop, before the mark, the drop and the
   reorder event. The sort is stable, so with a gap of 0 the queue reopens first; and a time below 0 is
   a huge one once it is stored, so a gap that crosses 0 puts the end of the gap before its beginning
   (`reopens_last_iff`). -/
namespace Handoff

/-! Two events of a sorted array. -/

section Before
variable {events : List (SchedulerEvent Action)} {a b : SchedulerEvent Action}

/-- `a` comes before `b`. -/
def Before (events : List (SchedulerEvent Action)) (a b : SchedulerEvent Action) : Prop := [a, b].Sublist events

theorem before_iff (hs : events.Pairwise fun a b => schedulerCompareEvent a b < 0) :
    Before events a b ↔ a ∈ events ∧ b ∈ events ∧ schedulerCompareEvent a b < 0 := by
  constructor
  · intro h
    have hsub : [a, b].Sublist events := h
    have hpair : [a, b].Pairwise fun a b => schedulerCompareEvent a b < 0 := hs.sublist hsub
    exact ⟨hsub.subset (by simp), hsub.subset (by simp), (List.pairwise_cons.mp hpair).1 b (by simp)⟩
  · intro h
    obtain ⟨ha, hb, hlt⟩ := h
    obtain ⟨pre, post, rfl⟩ := List.append_of_mem hb
    obtain ⟨-, hafter, -⟩ := List.pairwise_append.mp hs
    have hpre : a ∈ pre := by
      obtain ha | ha := List.mem_append.mp ha
      · exact ha
      · obtain rfl | ha := List.mem_cons.mp ha
        · exact absurd hlt (schedulerCompareEvent_asymm hlt)
        · exact absurd hlt (schedulerCompareEvent_asymm ((List.pairwise_cons.mp hafter).1 a ha))
    exact (List.singleton_sublist.mpr hpre).append (List.singleton_sublist.mpr List.mem_cons_self)

end Before

/-! The events of a line. -/

/-- Of the events of an `HO` line the stop comes first, and the start after all the others. -/
def ReopensLast (order : List (SchedulerEvent Action)) : List (SchedulerEvent Action) → Prop
  | stop :: start :: sets => ∀ e ∈ sets, Before order stop e ∧ Before order e start
  | _ => False

/-- The events that set the mark, the losses and the reordering. -/
def hoSets (timeMs : Int) (f : HoFields) : List Request :=
  (timeMs, .setMark (UInt16.ofInt f.queueNum) (UInt32.ofInt f.mark)) ::
    ((if 0 < hoLoss f then [(timeMs, .setDrop (UInt16.ofInt f.queueNum) 1 (hoLoss f))] else []) ++
      (if 0 < f.reordCnt then
        [(timeMs, .setReorder (UInt16.ofInt f.queueNum) 1 (UInt16.ofInt f.reordCnt) (UInt16.ofInt f.reordOffset))]
      else []))

theorem hoExpansion_sets (timeMs : Int) (f : HoFields) :
    hoExpansion timeMs f = (timeMs, .stopNfqueue (UInt16.ofInt f.queueNum)) ::
      (timeMs + f.gapTime, .startNfqueue (UInt16.ofInt f.queueNum)) :: hoSets timeMs f := by
  simp [hoExpansion, hoSets]

theorem hoSets_time {timeMs : Int} {f : HoFields} {r : Request} (h : r ∈ hoSets timeMs f) : r.1 = timeMs := by
  simp only [hoSets, List.mem_cons, List.mem_append] at h
  obtain rfl | h | h := h
  · rfl
  all_goals
    split at h
    · rw [List.mem_singleton.mp h]
    · cases h

theorem mem_expansion {n : Nat} {rs : List Request} {e : SchedulerEvent Action} :
    e ∈ expansion n rs ↔ ∃ i r, rs[i]? = some r ∧ e = ⟨UInt64.ofInt r.1, r.2, (n + i : Nat)⟩ := by
  induction rs generalizing n with
  | nil => simp
  | cons r rs ih =>
    rw [expansion_cons, List.mem_cons, ih]
    constructor
    · intro h
      obtain rfl | ⟨i, r', hr', rfl⟩ := h
      · exact ⟨0, r, rfl, rfl⟩
      · exact ⟨i + 1, r', hr', by rw [Nat.add_assoc, Nat.add_comm 1 i]⟩
    · intro h
      obtain ⟨i, r', hr', rfl⟩ := h
      obtain _ | i := i
      · cases hr'
        exact .inl rfl
      · exact .inr ⟨i, r', hr', by rw [Nat.add_assoc, Nat.add_comm 1 i]⟩

/-- As event times, two `int`s at most a gap apart are in order unless the gap crosses 0. -/
theorem ofInt_lt_iff {t gap : Int} (ht : InInt t) (hsum : InInt (t + gap)) (hgap : 0 ≤ gap) :
    UInt64.ofInt t < UInt64.ofInt (t + gap) ↔ 0 < gap ∧ (0 ≤ t ∨ t + gap < 0) := by
  unfold InInt intMin intMax at ht hsum
  simp only [UInt64.lt_iff_toNat_lt, UInt64.ofInt, UInt64.toNat_ofNat']
  omega

/-! The line in its trace. -/

theorem toInt_inInt (x : Int) : InInt (toInt x) := by
  have hge := Int.le_bmod (x := x) (m := 2^32) (by decide)
  refine ⟨?_, toInt_le x⟩
  rw [toInt, intMin]
  omega

theorem SplitsInto.inInt {text : List Char} {timeMs : Int} {type : EventType} {tok : Option (List Char)}
    {rest : List Char} (h : SplitsInto text timeMs type tok rest) : InInt timeMs := by
  obtain ⟨time, fields, event, args, -, rfl, -⟩ := h
  exact toInt_inInt _

theorem readEvent_ho {text : List Char} {timeMs : Int} {tok : Option (List Char)} {rest : List Char} {f : HoFields}
    (h : SplitsInto text timeMs .ho tok rest) (hf : readHo tok rest = .ok f) :
    readEvent text = (do let rs ← hoRequests timeMs f; return (rs, 0)) := by
  obtain ⟨time, fields, event, args, htime, rfl, hevent, htype, hthird⟩ := h
  rcases hargs : strtok args with _ | ⟨t, args⟩ <;> rw [hargs] at hthird <;> cases hthird <;>
    simp only [readEvent, htime, hevent, htype, hargs, parseHo, hf, C.ok_bind]

theorem addRequests_length_le {s : SchedulerCtx Action} (rs : List Request) (h : s.events.length ≤ schedulerMaxEvent) :
    (addRequests s rs).events.length ≤ schedulerMaxEvent := by
  rw [addRequests_table, List.length_append, expansion_length, List.length_take]
  omega

theorem parseTrace_length_le {lines : List (List Char)} {scheduler : SchedulerCtx Action}
    (hparse : parseTrace schedulerInitCtx lines = .ok scheduler) : scheduler.events.length ≤ schedulerMaxEvent := by
  obtain ⟨rss, -, rfl⟩ := parseTrace_readInto hparse
  exact addRequests_length_le _ (Nat.zero_le _)

section Line
variable {before after : List (List Char)} {line : List Char} {timeMs : Int} {tok : Option (List Char)}
  {rest : List Char} {f : HoFields} {scheduler s₀ : SchedulerCtx Action}

/-- An `HO` line that has been accepted was read in full, and its gap ends within the range of `int`. -/
theorem ho_accepted (hbefore : parseTrace schedulerInitCtx before = .ok s₀)
    (hparse : parseTrace schedulerInitCtx (before ++ line :: after) = .ok scheduler)
    (hho : SplitsInto line timeMs .ho tok rest) (hf : readHo tok rest = .ok f) :
    readEvent line = .ok (hoExpansion timeMs f, 0) ∧ InInt (timeMs + f.gapTime) := by
  obtain ⟨rs, ret, hread, -⟩ := parseTrace_line hbefore hparse
  rw [readEvent_ho hho hf, C.bind_ok] at hread
  obtain ⟨rs', hrs, -⟩ := hread
  constructor
  · rw [readEvent_ho hho hf, hrs, hoRequests_ok hrs]
    rfl
  · by_contra hsum
    rw [hoRequests_eq, if_neg fun h => hsum h.1] at hrs
    cases hrs

theorem line_in_table {rs : List Request} {ret : Int} (hread : readEvent line = .ok (rs, ret))
    (hbefore : parseTrace schedulerInitCtx before = .ok s₀)
    (hparse : parseTrace schedulerInitCtx (before ++ line :: after) = .ok scheduler) (hroom : Room s₀ rs) :
    ∀ e ∈ expansion s₀.events.length rs, e ∈ scheduler.events := by
  intro e he
  obtain ⟨_, _, hline, hafter⟩ := parseTrace_line hbefore hparse
  cases hread.symm.trans hline
  apply (parseTrace_extends hafter).subset
  rw [hroom.table]
  exact List.mem_append_right _ he

theorem Numbered.idx_lt (h : Numbered scheduler) {e : SchedulerEvent Action} (he : e ∈ scheduler.events) :
    e.idx < scheduler.events.length := by
  obtain ⟨i, hi⟩ := List.getElem?_of_mem he
  rw [h i e hi]
  exact_mod_cast (List.getElem?_eq_some_iff.mp hi).1

/-- **The queue reopens last if and only if the gap is positive, on one side of 0, and the line fits the table.** For
    every `HO` line with a gap that is not negative, in every trace. The order is the one every run follows. -/
theorem reopens_last_iff (hparse : parseTrace schedulerInitCtx (before ++ line :: after) = .ok scheduler)
    (hbefore : parseTrace schedulerInitCtx before = .ok s₀) (hho : SplitsInto line timeMs .ho tok rest)
    (hf : readHo tok rest = .ok f) (hgap : 0 ≤ f.gapTime) :
    (∀ env clock mem n, executed (emuRun env scheduler clock mem n) <+: qsortEvents scheduler.events) ∧
      (ReopensLast (qsortEvents scheduler.events) (expansion s₀.events.length (hoExpansion timeMs f)) ↔
        0 < f.gapTime ∧ (0 ≤ timeMs ∨ timeMs + f.gapTime < 0) ∧ Room s₀ (hoExpansion timeMs f)) := by
  have hnumbered : Numbered scheduler := parseTrace_numbered (by intro i e he; cases he) hparse
  have hstrict := qsortEvents_strict hnumbered
  have hmem : ∀ {e}, e ∈ qsortEvents scheduler.events ↔ e ∈ scheduler.events := (qsortEvents_perm _).mem_iff
  obtain ⟨hread, hsum⟩ := ho_accepted hbefore hparse hho hf
  have htimes := ofInt_lt_iff hho.inInt hsum hgap
  refine ⟨fun env clock mem n => Indexed.executed_prefix (indexed_run _ n), ?_⟩
  constructor
  · intro h
    rw [hoExpansion_sets, expansion_cons, expansion_cons] at h
    -- the last of the events that set something
    obtain ⟨m, hm⟩ : ∃ m, (hoSets timeMs f).length = m + 1 := ⟨_, rfl⟩
    let r := (hoSets timeMs f)[m]
    have hr : (hoSets timeMs f)[m]? = some r := List.getElem?_eq_getElem (by omega)
    obtain ⟨hstop, hstart⟩ := h _ (mem_expansion.mpr ⟨m, r, hr, rfl⟩)
    obtain ⟨hin, -, hlt⟩ := (before_iff hstrict).mp hstart
    have hidx := hnumbered.idx_lt (hmem.mp hin)
    have hmax := parseTrace_length_le hparse
    rw [schedulerCompareEvent_lt, hoSets_time (List.mem_of_getElem? hr)] at hlt
    simp only at hlt hidx
    obtain ⟨hpos, hsign⟩ := htimes.mp (hlt.resolve_right fun h => by omega)
    refine ⟨hpos, hsign, ?_⟩
    rw [Room, hoExpansion_sets]
    simp only [List.length_cons]
    omega
  · intro h
    obtain ⟨hpos, hsign, hroom⟩ := h
    have hlt := htimes.mpr ⟨hpos, hsign⟩
    have htable := line_in_table hread hbefore hparse hroom
    rw [hoExpansion_sets, expansion_cons, expansion_cons] at htable ⊢
    intro e he
    have hein := hmem.mpr (htable e (List.mem_cons_of_mem _ (List.mem_cons_of_mem _ he)))
    have hstop := hmem.mpr (htable _ List.mem_cons_self)
    have hstart := hmem.mpr (htable _ (List.mem_cons_of_mem _ List.mem_cons_self))
    obtain ⟨i, r, hr, rfl⟩ := mem_expansion.mp he
    have htime := hoSets_time (List.mem_of_getElem? hr)
    refine ⟨(before_iff hstrict).mpr ⟨hstop, hein, ?_⟩, (before_iff hstrict).mpr ⟨hein, hstart, ?_⟩⟩
    · rw [schedulerCompareEvent_lt]
      refine .inr ⟨by rw [htime], ?_⟩
      simp only
      omega
    · rw [schedulerCompareEvent_lt]
      exact .inl (by rw [htime]; exact hlt)

end Line

/-! A handover without a gap. -/

def gaplessScheduler : SchedulerCtx Action :=
  ⟨[⟨0, .initNfqueue 0, 0⟩, ⟨100, .teardownNfqueue 0, 1⟩, ⟨0, .startNfqueue 0, 2⟩, ⟨10, .stopNfqueue 0, 3⟩,
    ⟨10, .startNfqueue 0, 4⟩, ⟨10, .setMark 0 2, 5⟩]⟩

/-- The queue reopens before the mark is set. -/
theorem gapless_reopens_first :
    parseTrace schedulerInitCtx ["0,INIT,0,0,100".toList, "10,HO,0,2,0,0,0,0".toList] = .ok gaplessScheduler ∧
      qsortEvents gaplessScheduler.events =
        [⟨0, .initNfqueue 0, 0⟩, ⟨0, .startNfqueue 0, 2⟩, ⟨10, .stopNfqueue 0, 3⟩, ⟨10, .startNfqueue 0, 4⟩,
          ⟨10, .setMark 0 2, 5⟩, ⟨100, .teardownNfqueue 0, 1⟩] ∧
      ¬ ReopensLast (qsortEvents gaplessScheduler.events)
        [⟨10, .stopNfqueue 0, 3⟩, ⟨10, .startNfqueue 0, 4⟩, ⟨10, .setMark 0 2, 5⟩] := by
  refine ⟨rfl, ?_, ?_⟩
  · apply qsortEvents_unique
    · decide
    · simp [schedulerCompareEvent]
  · intro h
    have hstrict : (qsortEvents gaplessScheduler.events).Pairwise fun a b => schedulerCompareEvent a b < 0 :=
      qsortEvents_strict (parseTrace_numbered (by intro i e he; cases he)
        (show parseTrace schedulerInitCtx ["0,INIT,0,0,100".toList, "10,HO,0,2,0,0,0,0".toList] = _ from rfl))
    have hlt := ((before_iff hstrict).mp (h _ List.mem_cons_self).2).2.2
    exact absurd hlt (by decide)

theorem reopens_last_iff_overlap :
    ReopensLast (qsortEvents overlapScheduler.events)
      [⟨10, .stopNfqueue 0, 3⟩, ⟨40, .startNfqueue 0, 4⟩, ⟨10, .setMark 0 1, 5⟩] := by
  have hparse : parseTrace schedulerInitCtx (["0,INIT,0,0,100".toList] ++ "10,HO,0,1,30,0,0,0".toList ::
      ["20,HO,0,1,50,0,0,0".toList]) = .ok overlapScheduler := rfl
  have hbefore : parseTrace schedulerInitCtx ["0,INIT,0,0,100".toList] =
      .ok ⟨[⟨0, .initNfqueue 0, 0⟩, ⟨100, .teardownNfqueue 0, 1⟩, ⟨0, .startNfqueue 0, 2⟩]⟩ := rfl
  have hho : SplitsInto "10,HO,0,1,30,0,0,0".toList 10 .ho (some "0".toList) "1,30,0,0,0".toList :=
    ⟨_, _, _, _, rfl, rfl, rfl, rfl, rfl⟩
  have hf : readHo (some "0".toList) "1,30,0,0,0".toList = .ok ⟨0, 1, 30, 0, 0, 0⟩ := rfl
  exact (reopens_last_iff hparse hbefore hho hf (by decide)).2.mpr ⟨by decide, .inl (by decide), by decide⟩

end Handoff
