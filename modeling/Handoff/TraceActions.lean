import Handoff.Event
import Handoff.Lib.Returns

/- The actions of a trace, whatever its fields.

   Only `SOL_INIT_SCHED` brings numbers of its own to the sampler; of every other action it is
   enough to know its kind. So a property of actions holds of all the events of a trace once
   it holds of the actions of every other kind and of the ones `parse_init_sched` makes
   (`parseTrace_actions`). -/
namespace Handoff

/-! The readers of a line. -/

/-- How `parse_event` splits a line: the time, the type, and the third token and the rest of the line, which it
    hands to the reader of the type. -/
def SplitsInto (text : List Char) (timeMs : Int) (type : EventType) (tok : Option (List Char)) (rest : List Char) :
    Prop :=
  ∃ time fields event args, strtok text = some (time, fields) ∧ toInt (strtol time) = timeMs ∧
    strtok fields = some (event, args) ∧ getEventType event = type ∧
    (match strtok args with
      | none => (none, [])
      | some (t, rest) => (some t, rest)) = (tok, rest)

/-- The type of a line. -/
def lineType? (text : List Char) : Option EventType :=
  match strtok text with
  | none => none
  | some (_, rest) => (strtok rest).map fun r => getEventType r.1

theorem SplitsInto.lineType {text : List Char} {timeMs : Int} {type : EventType} {tok : Option (List Char)}
    {rest : List Char} (h : SplitsInto text timeMs type tok rest) : lineType? text = some type := by
  obtain ⟨time, fields, event, args, htime, -, hevent, htype, -⟩ := h
  simp [lineType?, htime, hevent, htype]

/-- **One reader is called.** What every reader gives on the line as it is split, the parser gives. -/
theorem readEvent_rule {R : List Request × Int → Prop} {text : List Char} (unknown : R ([], -1))
    (init : ∀ timeMs tok rest, SplitsInto text timeMs .init tok rest →
      Returns (fun rs => R (rs, 0)) (parseInit timeMs tok rest))
    (cmd : ∀ timeMs tok rest, SplitsInto text timeMs .cmd tok rest →
      Returns (fun rs => R (rs, 0)) (parseCmd timeMs tok))
    (ho : ∀ timeMs tok rest, SplitsInto text timeMs .ho tok rest →
      Returns (fun rs => R (rs, 0)) (parseHo timeMs tok rest))
    (solHandledup : ∀ timeMs tok rest, SplitsInto text timeMs .solHandledup tok rest →
      Returns (fun rs => R (rs, 0)) (parseHandleDup timeMs tok rest))
    (solInitSched : ∀ timeMs tok rest, SplitsInto text timeMs .solInitSched tok rest →
      Returns (fun rs => R (rs, 0)) (parseInitSched timeMs tok rest))
    (solHo : ∀ timeMs tok rest, SplitsInto text timeMs .solHo tok rest →
      Returns (fun rs => R (rs, 0)) (parseHandleSolution timeMs tok rest)) :
    Returns R (readEvent text) := by
  have hcalls : ∀ {rs : C (List Request)}, Returns (fun rs => R (rs, 0)) rs →
      Returns R (do let rs ← rs; return (rs, (0 : Int)) : C (List Request × Int)) :=
    fun hrs => hrs.bind fun _ h => .ok h
  unfold readEvent
  split
  · exact .error _
  · next time fields htime =>
    dsimp only
    split
    · exact .error _
    · next event args hevent =>
      have hsplit : SplitsInto text (toInt (strtol time)) (getEventType event) _ _ :=
        ⟨time, fields, event, args, htime, rfl, hevent, rfl, rfl⟩
      split
      · next htype => exact hcalls (init _ _ _ (htype ▸ hsplit))
      · next htype => exact hcalls (cmd _ _ _ (htype ▸ hsplit))
      · next htype => exact hcalls (ho _ _ _ (htype ▸ hsplit))
      · next htype => exact hcalls (solHandledup _ _ _ (htype ▸ hsplit))
      · next htype => exact hcalls (solInitSched _ _ _ (htype ▸ hsplit))
      · next htype => exact hcalls (solHo _ _ _ (htype ▸ hsplit))
      · exact .ok unknown

theorem parseCmd_rule {R : List Request → Prop} {timeMs : Int} {tok : Option (List Char)}
    (h : ∀ cmd, R [(timeMs, .command cmd)]) : Returns R (parseCmd timeMs tok) := by
  unfold parseCmd
  split
  · exact .error _
  · exact .ok (h _)

theorem nextInt_le {s : List Char} : Returns (fun r => r.1 ≤ intMax) (nextInt s) := by
  unfold nextInt
  split
  · exact .error _
  · exact .ok (toInt_le _)

/-- The requests are for actions with the property. -/
def AllActions (Q : Action → Prop) (rs : List Request) : Prop := ∀ r ∈ rs, Q r.2

section Requests
variable {Q : Action → Prop}

theorem AllActions.nil : AllActions Q [] := by
  intro r hr
  cases hr

theorem AllActions.cons {t : Int} {a : Action} {rs : List Request} (ha : Q a) (h : AllActions Q rs) :
    AllActions Q ((t, a) :: rs) := by
  intro r hr
  obtain rfl | hr := List.mem_cons.mp hr
  · exact ha
  · exact h r hr

theorem AllActions.append {rs rs' : List Request} (h : AllActions Q rs) (h' : AllActions Q rs') :
    AllActions Q (rs ++ rs') := by
  intro r hr
  exact (List.mem_append.mp hr).elim (h r) (h' r)

theorem AllActions.ite {c : Prop} [Decidable c] {rs : List Request} (h : AllActions Q rs) :
    AllActions Q (if c then rs else []) := by
  split
  · exact h
  · exact .nil

theorem phase_actions {R : List Request → Prop} {c : Prop} [Decidable c] {t d : Int} {a b : Action}
    {k : List Request → C (List Request)} (ha : Q a) (hb : Q b)
    (hk : ∀ rs, AllActions Q rs → Returns R (k rs)) :
    Returns R (if c then do
        let stop ← addInt t d
        let rs ← pure [(t, a), (stop, b)]
        k rs
      else do
        let rs ← pure []
        k rs) := by
  apply Returns.ite
  · exact fun _ => Returns.bind_any fun _ => hk _ (.cons ha (.cons hb .nil))
  · exact fun _ => hk _ .nil

theorem hoRequests_actions {timeMs : Int} {f : HoFields} (hstop : Q (.stopNfqueue (UInt16.ofInt f.queueNum)))
    (hstart : Q (.startNfqueue (UInt16.ofInt f.queueNum)))
    (hmark : Q (.setMark (UInt16.ofInt f.queueNum) (UInt32.ofInt f.mark)))
    (hdrop : ∀ dropCnt, Q (.setDrop (UInt16.ofInt f.queueNum) 1 dropCnt))
    (hreorder : ∀ count offset, Q (.setReorder (UInt16.ofInt f.queueNum) 1 count offset)) :
    Returns (AllActions Q) (hoRequests timeMs f) := by
  apply Returns.bind_any
  intro restart
  apply Returns.bind_any
  intro dropCnt
  apply Returns.ok
  apply AllActions.append
  · apply AllActions.append
    · exact .cons hstop (.cons hstart (.cons hmark .nil))
    · exact .ite (.cons (hdrop _) .nil)
  · exact .ite (.cons (hreorder _ _) .nil)

theorem parseInit_actions {timeMs : Int} {data : Option (List Char)} {rest : List Char}
    (hinit : ∀ q, Q (.initNfqueue q)) (hteardown : ∀ q, Q (.teardownNfqueue q)) (hstart : ∀ q, Q (.startNfqueue q))
    (hmark : ∀ queueNum mark r, intOf data = .ok queueNum → nextInt rest = .ok (mark, r) →
      Q (.setMark (UInt16.ofInt queueNum) (UInt32.ofInt mark))) :
    Returns (AllActions Q) (parseInit timeMs data rest) := by
  apply Returns.bind_eq
  intro queueNum hq
  apply Returns.bind_eq
  intro mark hm
  apply Returns.bind_any
  intro endMs
  apply Returns.ok
  apply AllActions.append
  · exact .cons (hinit _) (.cons (hteardown _) (.cons (hstart _) .nil))
  · exact .ite (.cons (hmark queueNum mark.1 mark.2 hq hm) .nil)

theorem parseInitSched_action {timeMs : Int} {data : Option (List Char)} {rest : List Char}
    (h : ∀ q args, Q (.initTcpSched q args)) : Returns (AllActions Q) (parseInitSched timeMs data rest) := by
  unfold parseInitSched
  iterate 8 refine Returns.bind_any fun _ => ?_
  exact .ok (.cons (h _ _) .nil)

theorem solHoRequests_actions {timeMs : Int} {f : SolHoFields}
    (hsol : Q (.solUpdate (UInt16.ofInt f.queueNum) (UInt32.ofInt f.mark)))
    (hfreeze : Q (.setRwnd (UInt16.ofInt f.queueNum) (UInt16.ofInt f.mark)))
    (hdedup : ∀ enable, Q (.setDedup (UInt16.ofInt f.queueNum) enable))
    (hburst : ∀ enable, Q (.setBurst (UInt16.ofInt f.queueNum) enable))
    (hadapt : Q (.setAdapt (UInt16.ofInt f.queueNum) f.enableAdapt)) :
    Returns (AllActions Q) (solHoRequests timeMs f) := by
  apply Returns.bind_any
  intro afterFreeze
  apply phase_actions (hdedup 1) (hdedup 0)
  intro dedup hd
  apply phase_actions (hburst 1) (hburst 0)
  intro burst hb
  apply Returns.bind_any
  intro afterBurst
  apply Returns.ok
  apply AllActions.append
  · exact (((AllActions.nil.cons hsol).append (.ite (AllActions.nil.cons hfreeze))).append hd).append hb
  · exact .ite (AllActions.nil.cons hadapt)

end Requests

/-- The requests of a `SOL_HO` line whose times are `int`s. -/
def solHoExpansion (timeMs : Int) (f : SolHoFields) : List Request :=
  let q := UInt16.ofInt f.queueNum
  let afterFreeze := timeMs + f.freezeMs
  let afterBurst := afterFreeze + f.burstDuration
  [(timeMs, .solUpdate q (UInt32.ofInt f.mark))] ++
    (if 0 < f.enableFreeze then [(timeMs, .setRwnd q (UInt16.ofInt f.mark))] else []) ++
    (if 0 < f.enableDedup then [(afterFreeze, .setDedup q 1), (afterFreeze + f.smoothMs, .setDedup q 0)] else []) ++
    (if 0 < f.burstDuration then [(afterFreeze, .setBurst q 1), (afterBurst, .setBurst q 0)] else []) ++
    (if 0 < f.enableAdapt then [(afterBurst, .setAdapt q f.enableAdapt)] else [])

/-- A sum that is an `int`. -/
def InInt (x : Int) : Prop := intMin ≤ x ∧ x ≤ intMax

instance (x : Int) : Decidable (InInt x) := inferInstanceAs (Decidable (_ ∧ _))

/-- The loss a line asks for. -/
def hoLoss (f : HoFields) : Int := if 0 < f.reordCnt then f.reordCnt + 10 else f.dropCnt

/-- The requests of an `HO` line whose sums are `int`s. -/
def hoExpansion (timeMs : Int) (f : HoFields) : List Request :=
  let q := UInt16.ofInt f.queueNum
  [(timeMs, .stopNfqueue q), (timeMs + f.gapTime, .startNfqueue q), (timeMs, .setMark q (UInt32.ofInt f.mark))] ++
    (if 0 < hoLoss f then [(timeMs, .setDrop q 1 (hoLoss f))] else []) ++
    (if 0 < f.reordCnt then
      [(timeMs, .setReorder q 1 (UInt16.ofInt f.reordCnt) (UInt16.ofInt f.reordOffset))] else [])

/-- The sums of an `HO` and of a `SOL_HO` line. -/
def HoSums (timeMs : Int) (f : HoFields) : Prop :=
  InInt (timeMs + f.gapTime) ∧ (0 < f.reordCnt → InInt (f.reordCnt + 10))

def SolHoSums (timeMs : Int) (f : SolHoFields) : Prop :=
  InInt (timeMs + f.freezeMs) ∧ (0 < f.enableDedup → InInt (timeMs + f.freezeMs + f.smoothMs)) ∧
    InInt (timeMs + f.freezeMs + f.burstDuration)

instance (timeMs : Int) (f : HoFields) : Decidable (HoSums timeMs f) := inferInstanceAs (Decidable (_ ∧ _))
instance (timeMs : Int) (f : SolHoFields) : Decidable (SolHoSums timeMs f) := inferInstanceAs (Decidable (_ ∧ _))

theorem addInt_eq (x y : Int) : addInt x y = if InInt (x + y) then .ok (x + y) else .error .overflow := rfl

theorem hoRequests_eq (timeMs : Int) (f : HoFields) :
    hoRequests timeMs f = if HoSums timeMs f then .ok (hoExpansion timeMs f) else .error .overflow := by
  unfold hoRequests HoSums hoExpansion hoDropCnt hoLoss
  by_cases hgap : InInt (timeMs + f.gapTime)
  · by_cases hre : 0 < f.reordCnt
    · by_cases hsum : InInt (f.reordCnt + 10) <;> simp [addInt_eq, hgap, hre, hsum]
    · simp [addInt_eq, hgap, hre]
  · simp [addInt_eq, hgap]

theorem hoRequests_ok {timeMs : Int} {f : HoFields} {rs : List Request} (h : hoRequests timeMs f = .ok rs) :
    rs = hoExpansion timeMs f := by
  rw [hoRequests_eq] at h
  split at h
  · cases h
    rfl
  · cases h

theorem solHoRequests_eq (timeMs : Int) (f : SolHoFields) :
    solHoRequests timeMs f = if SolHoSums timeMs f then .ok (solHoExpansion timeMs f) else .error .overflow := by
  unfold solHoRequests SolHoSums solHoExpansion
  by_cases hfreeze : InInt (timeMs + f.freezeMs)
  · by_cases hd : 0 < f.enableDedup <;> by_cases hb : 0 < f.burstDuration <;>
      by_cases hsmooth : InInt (timeMs + f.freezeMs + f.smoothMs) <;>
      by_cases hburst : InInt (timeMs + f.freezeMs + f.burstDuration) <;>
      simp [addInt_eq, hfreeze, hd, hb, hsmooth, hburst]
  · simp [addInt_eq, hfreeze]

/-- A line that the parser accepts expands into these, and the window of its duplicate suppression is in range. -/
theorem solHoRequests_ok {timeMs : Int} {f : SolHoFields} {rs : List Request} (h : solHoRequests timeMs f = .ok rs) :
    rs = solHoExpansion timeMs f ∧ intMin ≤ timeMs + f.freezeMs ∧ timeMs + f.freezeMs ≤ intMax ∧
      (0 < f.enableDedup → timeMs + f.freezeMs + f.smoothMs ≤ intMax) := by
  rw [solHoRequests_eq] at h
  split at h
  · next hsums =>
    cases h
    exact ⟨rfl, hsums.1.1, hsums.1.2, fun hd => (hsums.2.1 hd).2⟩
  · cases h

/-! The trace. -/

section Events
variable {P : SchedulerEvent Action → Prop}

theorem addRequests_events {rs : List Request} (hrs : ∀ r ∈ rs, ∀ idx, P ⟨UInt64.ofInt r.1, r.2, idx⟩) :
    ∀ s : SchedulerCtx Action, (∀ e ∈ s.events, P e) → ∀ e ∈ (addRequests s rs).events, P e := by
  induction rs with
  | nil => exact fun _ hs => hs
  | cons r rs ih =>
    intro s hs
    obtain ⟨time, a⟩ := r
    apply ih fun r hr => hrs r (List.mem_cons_of_mem _ hr)
    unfold schedulerAddEvent
    split
    · exact hs
    · intro e he
      obtain he | he := List.mem_append.mp he
      · exact hs e he
      · rw [List.mem_singleton.mp he]
        exact hrs (time, a) List.mem_cons_self _

/-- What every request of every line has, the events of the trace have. -/
theorem parseTrace_events {lines : List (List Char)}
    (hlines : ∀ line ∈ lines, Returns (fun r => ∀ x ∈ r.1, ∀ idx, P ⟨UInt64.ofInt x.1, x.2, idx⟩) (readEvent line)) :
    ∀ {s : SchedulerCtx Action}, (∀ e ∈ s.events, P e) →
      Returns (fun s' => ∀ e ∈ s'.events, P e) (parseTrace s lines) := by
  induction lines with
  | nil => exact fun hs => .ok hs
  | cons line lines ih =>
    intro s hs
    have hevent : Returns (fun r => ∀ e ∈ r.1.events, P e) (parseEvent s line) :=
      (hlines line List.mem_cons_self).bind fun _ hrs => .ok (addRequests_events hrs s hs)
    apply Returns.bind hevent
    intro r hr
    exact ih (fun l hl => hlines l (List.mem_cons_of_mem _ hl)) hr

end Events

/-- The action is not one of `SOL_INIT_SCHED`. -/
def Action.NoConfig : Action → Prop
  | .initTcpSched _ _ => False
  | _ => True

section Trace
variable {Q : Action → Prop} (hother : ∀ a : Action, a.NoConfig → Q a)
  (hconfig : ∀ timeMs data rest, Returns (AllActions Q) (parseInitSched timeMs data rest))
include hother

include hconfig

theorem readEvent_actions (text : List Char) : Returns (fun r => AllActions Q r.1) (readEvent text) := by
  refine readEvent_rule .nil ?_ ?_ ?_ ?_ ?_ ?_
  · intro timeMs tok rest _
    exact parseInit_actions (fun _ => hother _ trivial) (fun _ => hother _ trivial) (fun _ => hother _ trivial)
      (fun _ _ _ _ _ => hother _ trivial)
  · exact fun _ _ _ _ => parseCmd_rule fun _ => .cons (hother _ trivial) .nil
  · intro timeMs tok rest _
    apply Returns.bind_any
    intro f
    exact hoRequests_actions (hother _ trivial) (hother _ trivial) (hother _ trivial) (fun _ => hother _ trivial)
      (fun _ _ => hother _ trivial)
  · exact fun _ _ _ _ => Returns.bind_any fun _ => Returns.bind_any fun _ => .ok (.cons (hother _ trivial) .nil)
  · exact fun _ _ _ _ => hconfig _ _ _
  · intro timeMs tok rest _
    apply Returns.bind_any
    intro f
    exact solHoRequests_actions (hother _ trivial) (hother _ trivial) (fun _ => hother _ trivial)
      (fun _ => hother _ trivial) (hother _ trivial)

/-- **The actions of a trace.** -/
theorem parseTrace_actions (lines : List (List Char)) :
    Returns (fun s' => ∀ e ∈ s'.events, Q e.action) (parseTrace schedulerInitCtx lines) := by
  apply parseTrace_events (P := fun e => Q e.action)
  · intro line _
    exact (readEvent_actions hother hconfig line).mono fun _ h x hx _ => h x hx
  · exact fun e he => by cases he

end Trace

end Handoff
