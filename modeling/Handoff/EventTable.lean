import Handoff.StableEvents
import Handoff.TraceActions

/- The event table after a trace.

   The parser issues the calls of a line one by one and ignores what they return, so a table that
   is filling up takes as many events as it has room for, in the middle of a line if need be
   (`addRequests_table`). A line takes effect entirely or not at all exactly if all its events fit, and
   the table of a whole trace holds whole lines only exactly if the trace fits or a line ends where the
   table does (`line_whole_iff`). -/
namespace Handoff

/-- The events of requests, from index `n` on. -/
def expansion (n : Nat) (rs : List Request) : List (SchedulerEvent Action) :=
  (rs.zipIdx n).map fun r => ⟨UInt64.ofInt r.1.1, r.1.2, r.2⟩

@[simp] theorem expansion_nil (n : Nat) : expansion n [] = [] := rfl

@[simp] theorem expansion_cons (n : Nat) (r : Request) (rs : List Request) :
    expansion n (r :: rs) = ⟨UInt64.ofInt r.1, r.2, n⟩ :: expansion (n + 1) rs := rfl

@[simp] theorem expansion_length (n : Nat) (rs : List Request) : (expansion n rs).length = rs.length := by
  simp [expansion]

theorem expansion_append (n : Nat) (rs rs' : List Request) :
    expansion n (rs ++ rs') = expansion n rs ++ expansion (n + rs.length) rs' := by
  simp [expansion, List.zipIdx_append]

theorem expansion_mem {n : Nat} {rs : List Request} {e : SchedulerEvent Action} (h : e ∈ expansion n rs) :
    ∃ r ∈ rs, e.timeMs = UInt64.ofInt r.1 ∧ e.action = r.2 := by
  obtain ⟨r, hr, rfl⟩ := List.mem_map.mp h
  exact ⟨r.1, List.fst_mem_of_mem_zipIdx hr, rfl, rfl⟩

/-- An event of several lines is an event of one of them. -/
theorem mem_expansion_flatten {e : SchedulerEvent Action} {rss : List (List Request)} :
    ∀ {n : Nat}, e ∈ expansion n rss.flatten →
      ∃ rs ∈ rss, ∃ m, e ∈ expansion m rs ∧ expansion m rs ⊆ expansion n rss.flatten := by
  induction rss with
  | nil => exact fun he => by cases he
  | cons rs rss ih =>
    intro n he
    rw [List.flatten_cons, expansion_append] at he ⊢
    obtain he | he := List.mem_append.mp he
    · exact ⟨rs, List.mem_cons_self, n, he, List.subset_append_left _ _⟩
    · obtain ⟨rs', hrs', m, hem, hsub⟩ := ih he
      exact ⟨rs', List.mem_cons_of_mem _ hrs', m, hem, fun x hx => List.mem_append_right _ (hsub hx)⟩

/-! What the calls of a line leave. -/

theorem addRequests_append (rs rs' : List Request) :
    ∀ s : SchedulerCtx Action, addRequests s (rs ++ rs') = addRequests (addRequests s rs) rs' := by
  induction rs with
  | nil => exact fun _ => rfl
  | cons r rs ih => exact fun s => ih _

/-- The `scheduler_add_event` calls of requests. -/
def schedulerCalls (rs : List Request) : List (UInt64 × Action) := rs.map fun r => (UInt64.ofInt r.1, r.2)

theorem addRequests_calls (rs : List Request) :
    ∀ s : SchedulerCtx Action, addRequests s rs = addEvents s (schedulerCalls rs) := by
  induction rs with
  | nil => exact fun _ => rfl
  | cons r rs ih => exact fun s => ih _

theorem expansion_calls (rs : List Request) : ∀ n : Nat, expansion n rs = numberedEvents n (schedulerCalls rs) := by
  induction rs with
  | nil => exact fun _ => rfl
  | cons r rs ih => exact fun n => congrArg _ (ih (n + 1))

/-- The table takes the events there is room for. -/
theorem addRequests_table (rs : List Request) (s : SchedulerCtx Action) :
    (addRequests s rs).events =
      s.events ++ expansion s.events.length (rs.take (schedulerMaxEvent - s.events.length)) := by
  rw [addRequests_calls, addEvents_table, expansion_calls, schedulerCalls, schedulerCalls, List.map_take]

/-- All the events of the requests fit. -/
def Room (s : SchedulerCtx Action) (rs : List Request) : Prop :=
  s.events.length + rs.length ≤ schedulerMaxEvent

instance (s : SchedulerCtx Action) (rs : List Request) : Decidable (Room s rs) :=
  inferInstanceAs (Decidable (_ ≤ _))

theorem Room.table {s : SchedulerCtx Action} {rs : List Request} (h : Room s rs) :
    (addRequests s rs).events = s.events ++ expansion s.events.length rs := by
  rw [addRequests_table, List.take_of_length_le (Nat.le_sub_of_add_le' h)]

/-! What a trace leaves. -/

/-- The lines are read, each into its requests. -/
def ReadInto (lines : List (List Char)) (rss : List (List Request)) : Prop :=
  List.Forall₂ (fun line rs => ∃ ret, readEvent line = .ok (rs, ret)) lines rss

theorem ReadInto.line {lines : List (List Char)} {rss : List (List Request)} (h : ReadInto lines rss) :
    ∀ rs ∈ rss, ∃ line ∈ lines, ∃ ret, readEvent line = .ok (rs, ret) := by
  induction h with
  | nil => exact fun rs hrs => by cases hrs
  | @cons line rs lines rss hread _ ih =>
    intro rs' hrs'
    obtain rfl | hrs' := List.mem_cons.mp hrs'
    · exact ⟨line, List.mem_cons_self, hread⟩
    · obtain ⟨line', hline', hread'⟩ := ih rs' hrs'
      exact ⟨line', List.mem_cons_of_mem _ hline', hread'⟩

theorem ReadInto.read {lines : List (List Char)} {rss : List (List Request)} (h : ReadInto lines rss) :
    ∀ line ∈ lines, ∃ r, readEvent line = .ok r := by
  induction h with
  | nil => exact fun line hline => by cases hline
  | cons hread _ ih =>
    obtain ⟨ret, hread⟩ := hread
    exact List.forall_mem_cons.mpr ⟨⟨_, hread⟩, ih⟩

theorem parseTrace_requests {lines : List (List Char)} {rss : List (List Request)} (h : ReadInto lines rss) :
    ∀ s : SchedulerCtx Action, parseTrace s lines = .ok (addRequests s rss.flatten) := by
  induction h with
  | nil => exact fun _ => rfl
  | cons hline _ ih =>
    intro s
    obtain ⟨ret, hread⟩ := hline
    simp only [parseTrace, parseEvent, hread, C.ok_bind, C.pure_eq_ok, ih, List.flatten_cons, addRequests_append]

/-- A trace that is parsed has its requests. -/
theorem parseTrace_readInto {lines : List (List Char)} :
    ∀ {s s' : SchedulerCtx Action}, parseTrace s lines = .ok s' →
      ∃ rss, ReadInto lines rss ∧ s' = addRequests s rss.flatten := by
  induction lines with
  | nil =>
    intro s s' h
    cases h
    exact ⟨[], .nil, rfl⟩
  | cons line lines ih =>
    intro s s' h
    simp only [parseTrace, parseEvent, C.bind_ok, C.pure_eq_ok, Except.ok.injEq, Prod.exists, Prod.mk.injEq] at h
    obtain ⟨s₁, ret, ⟨rs, ret', hread, rfl, rfl⟩, hrest⟩ := h
    obtain ⟨rss, hrss, rfl⟩ := ih hrest
    exact ⟨rs :: rss, .cons ⟨ret', hread⟩ hrss, (addRequests_append rs rss.flatten s).symm⟩

/-! Every known line has an event. -/

section NonEmpty
variable {timeMs : Int} {data : Option (List Char)} {rest : List Char}

theorem hoRequests_nonempty {f : HoFields} : Returns (· ≠ []) (hoRequests timeMs f) :=
  Returns.bind_any fun _ => Returns.bind_any fun _ => .ok (by simp)

theorem parseInit_nonempty : Returns (· ≠ []) (parseInit timeMs data rest) :=
  Returns.bind_any fun _ => Returns.bind_any fun _ => Returns.bind_any fun _ => .ok (by simp)

theorem solHoRequests_nonempty {f : SolHoFields} : Returns (· ≠ []) (solHoRequests timeMs f) := by
  refine ⟨?_⟩
  intro rs hrs
  rw [(solHoRequests_ok hrs).1]
  simp [solHoExpansion]

theorem readEvent_nonempty (text : List Char) : Returns (fun r => r.2 = 0 → r.1 ≠ []) (readEvent text) := by
  refine readEvent_rule (fun h => by cases h) ?_ ?_ ?_ ?_ ?_ ?_
  · exact fun _ _ _ _ => parseInit_nonempty.mono fun _ h _ => h
  · exact fun _ _ _ _ => parseCmd_rule fun _ _ => List.cons_ne_nil _ _
  · exact fun _ _ _ _ => Returns.bind_any fun _ => hoRequests_nonempty.mono fun _ h _ => h
  · exact fun _ _ _ _ => Returns.bind_any fun _ => Returns.bind_any fun _ => .ok fun _ => List.cons_ne_nil _ _
  · intro timeMs tok rest _
    unfold parseInitSched
    iterate 8 refine Returns.bind_any fun _ => ?_
    exact .ok fun _ => List.cons_ne_nil _ _
  · exact fun _ _ _ _ => Returns.bind_any fun _ => solHoRequests_nonempty.mono fun _ h _ => h

end NonEmpty

/-! Lines taken whole. -/

/-- The line takes effect entirely or not at all: its expansion `rs` is appended and the parser returns 0, or
    it does not fit, the table stays as it was and the parser returns something else. -/
def Whole (s : SchedulerCtx Action) (text : List Char) (rs : List Request) : Prop :=
  ∃ s' ret, parseEvent s text = .ok (s', ret) ∧
    (s'.events = s.events ++ expansion s.events.length rs ∧ ret = 0 ∨ ¬ Room s rs ∧ s' = s ∧ ret ≠ 0)

theorem whole_iff {s : SchedulerCtx Action} {text : List Char} {rs : List Request}
    (h : readEvent text = .ok (rs, 0)) : Whole s text rs ↔ Room s rs := by
  have hparse : parseEvent s text = .ok (addRequests s rs, 0) := by
    simp only [parseEvent, h, C.ok_bind, C.pure_eq_ok]
  refine ⟨?_, fun hroom => ⟨_, 0, hparse, .inl ⟨hroom.table, rfl⟩⟩⟩
  intro hwhole
  obtain ⟨s', ret, hok, hcase⟩ := hwhole
  cases hparse.symm.trans hok
  obtain ⟨hall, -⟩ | ⟨-, -, hret⟩ := hcase
  · have hne : 0 < rs.length := List.length_pos_iff.mpr ((readEvent_nonempty text).value _ h rfl)
    have hlen := congrArg List.length hall
    rw [addRequests_table] at hlen
    simp only [List.length_append, expansion_length, List.length_take] at hlen
    unfold Room
    omega
  · exact absurd rfl hret

/-- The table consists of whole lines, from the first one on. -/
def WholeLines (s : SchedulerCtx Action) (rss : List (List Request)) : Prop :=
  ∃ k, s.events = expansion 0 (rss.take k).flatten

theorem wholeLines_iff (rss : List (List Request)) :
    WholeLines (addRequests schedulerInitCtx rss.flatten) rss ↔
      rss.flatten.length ≤ schedulerMaxEvent ∨ ∃ k, (rss.take k).flatten.length = schedulerMaxEvent := by
  have htable : (addRequests schedulerInitCtx rss.flatten).events = expansion 0 (rss.flatten.take schedulerMaxEvent) :=
    addRequests_table _ _
  unfold WholeLines
  rw [htable]
  refine ⟨?_, ?_⟩
  · intro h
    obtain ⟨k, hk⟩ := h
    have hlen := congrArg List.length hk
    simp only [expansion_length, List.length_take] at hlen
    by_cases hfit : rss.flatten.length ≤ schedulerMaxEvent
    · exact .inl hfit
    · exact .inr ⟨k, by omega⟩
  · intro h
    obtain hfit | ⟨k, hk⟩ := h
    · refine ⟨rss.length, ?_⟩
      rw [List.take_of_length_le hfit, List.take_length]
    · refine ⟨k, ?_⟩
      have hsplit : rss.flatten = (rss.take k).flatten ++ (rss.drop k).flatten := by
        rw [← List.flatten_append, List.take_append_drop]
      rw [hsplit, List.take_append_of_le_length hk.ge, ← hk, List.take_length]

/-- **Lines taken whole.** In any state a well-formed line takes effect entirely or not at all iff its whole
    expansion fits. The table of a trace of well-formed lines holds whole lines only iff the trace fits, or
    the table ends where a line does. -/
theorem line_whole_iff {s : SchedulerCtx Action} {text : List Char} {rs : List Request}
    (htext : readEvent text = .ok (rs, 0)) {lines : List (List Char)} {rss : List (List Request)}
    (hlines : List.Forall₂ (fun line rs => readEvent line = .ok (rs, 0)) lines rss) :
    (Whole s text rs ↔ Room s rs) ∧
      ∃ s', parseTrace schedulerInitCtx lines = .ok s' ∧
        (WholeLines s' rss ↔
          rss.flatten.length ≤ schedulerMaxEvent ∨ ∃ k, (rss.take k).flatten.length = schedulerMaxEvent) :=
  ⟨whole_iff htext, _, parseTrace_requests (hlines.imp fun _ _ h => ⟨0, h⟩) _, wholeLines_iff rss⟩

/-- Three lines, and the requests of each. -/
def threeLines : List (List Char) := ["0,INIT,0,1,100".toList, "1,HO,0,2,5,0,0,0".toList, "7,CMD,date".toList]

def threeRequests : List (List Request) :=
  [[(0, .initNfqueue 0), (100, .teardownNfqueue 0), (0, .startNfqueue 0), (0, .setMark 0 1)],
   [(1, .stopNfqueue 0), (6, .startNfqueue 0), (1, .setMark 0 2)], [(7, .command "date".toList)]]

theorem line_whole_iff_init :
    Whole schedulerInitCtx "0,INIT,0,1,100".toList
        [(0, .initNfqueue 0), (100, .teardownNfqueue 0), (0, .startNfqueue 0), (0, .setMark 0 1)] ∧
      ∃ s', parseTrace schedulerInitCtx threeLines = .ok s' ∧ WholeLines s' threeRequests := by
  have hlines : List.Forall₂ (fun line rs => readEvent line = .ok (rs, 0)) threeLines threeRequests :=
    .cons (by decide +kernel) (.cons (by decide +kernel) (.cons (by decide +kernel) .nil))
  have htext : readEvent "0,INIT,0,1,100".toList = .ok ([(0, .initNfqueue 0), (100, .teardownNfqueue 0),
      (0, .startNfqueue 0), (0, .setMark 0 1)], 0) := by decide +kernel
  obtain ⟨hline, s', hs', htrace⟩ := line_whole_iff (s := schedulerInitCtx) htext hlines
  exact ⟨hline.mpr (by decide), s', hs', htrace.mpr (.inl (by decide))⟩

/-- A table with room for one event. -/
def crowdedLines : List (List Char) := List.replicate 65534 "0,CMD,x".toList

def crowded : SchedulerCtx Action :=
  addRequests schedulerInitCtx (List.replicate 65534 (0, .command "x".toList))

theorem crowded_parsed : parseTrace schedulerInitCtx crowdedLines = .ok crowded := by
  have hread : ReadInto crowdedLines (List.replicate 65534 [(0, .command "x".toList)]) := by
    unfold ReadInto crowdedLines
    generalize 65534 = n
    induction n with
    | zero => exact .nil
    | succ n ih => exact .cons ⟨0, by decide +kernel⟩ ih
  rw [parseTrace_requests hread, List.flatten_replicate_singleton]
  rfl

theorem crowded_events : crowded.events = expansion 0 (List.replicate 65534 (0, .command "x".toList)) := by
  refine (Room.table ?_).trans (List.nil_append _)
  rw [Room, List.length_replicate]
  decide

/-- **A handover cut in two.** With room for one event an `HO` line adds its stop and loses its start, and
    the parser returns 0: the table then holds a stop of the queue and no start. -/
theorem handover_cut :
    parseTrace schedulerInitCtx crowdedLines = .ok crowded ∧
      ∃ s', parseEvent crowded "1,HO,0,2,5,0,0,0".toList = .ok (s', 0) ∧
        s'.events = crowded.events ++ [⟨1, .stopNfqueue 0, 65534⟩] ∧
          ∀ e ∈ s'.events, e.action ≠ .startNfqueue 0 := by
  refine ⟨crowded_parsed, ?_⟩
  have hlen : crowded.events.length = 65534 := by rw [crowded_events, expansion_length, List.length_replicate]
  have hread : readEvent "1,HO,0,2,5,0,0,0".toList =
      .ok ([(1, .stopNfqueue 0), (6, .startNfqueue 0), (1, .setMark 0 2)], 0) := by decide +kernel
  have htable : (addRequests crowded [(1, .stopNfqueue 0), (6, .startNfqueue 0), (1, .setMark 0 2)]).events =
      crowded.events ++ [⟨1, .stopNfqueue 0, 65534⟩] := by
    rw [addRequests_table, hlen]
    rfl
  refine ⟨_, by rw [parseEvent, hread]; rfl, htable, ?_⟩
  intro e he
  rw [htable] at he
  obtain he | he := List.mem_append.mp he
  · rw [crowded_events] at he
    obtain ⟨r, hr, -, hact⟩ := expansion_mem he
    rw [hact, (List.mem_replicate.mp hr).2]
    exact Action.noConfusion
  · rw [List.mem_singleton.mp he]
    exact Action.noConfusion

end Handoff
