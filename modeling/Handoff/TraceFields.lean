import Handoff.TraceActions

/- What the parser makes of a trace whose fields are numbers an `int` can hold and not negative.

   The parser checks none of its fields. Reading them one after the other
   (`nextInt_returns`) and adding their values without overflow (`addInt_returns`) keeps them
   in that range, so every event of such a trace is due before 2^31 and every
   `SOL_INIT_SCHED` event carries a start time and periods in it (`parseTrace_fits`). -/
namespace Handoff

/-! The fields of a line. -/

/-- A number that an `int` can hold and that is not negative. -/
def NonNegInt (x : Int) : Prop := 0 ≤ x ∧ x ≤ intMax

instance (x : Int) : Decidable (NonNegInt x) := inferInstanceAs (Decidable (_ ∧ _))

/-- Every field that `strtok` finds in a string is such a number. -/
inductive NonNegFields : List Char → Prop
  | done {s : List Char} (h : strtok s = none) : NonNegFields s
  | field {s t rest : List Char} (h : strtok s = some (t, rest)) (ht : NonNegInt (strtol t))
      (hr : NonNegFields rest) : NonNegFields s

/-- The time of a line and, unless it is a command, every field after its type is such a number. -/
def NonNegLine (text : List Char) : Prop :=
  ∃ time rest event fields, strtok text = some (time, rest) ∧ NonNegInt (strtol time) ∧
    strtok rest = some (event, fields) ∧ (getEventType event ≠ .cmd → NonNegFields fields)

theorem NonNegInt.toInt {x : Int} (h : NonNegInt x) : toInt x = x := by
  obtain ⟨h0, h1⟩ := h
  rw [intMax] at h1
  apply Int.bmod_eq_of_le <;> omega

/-- As an event time it is below 2^31. -/
theorem NonNegInt.time {x : Int} (h : NonNegInt x) : (UInt64.ofInt x).toNat = x.toNat ∧ x.toNat < 2^31 := by
  obtain ⟨h0, h1⟩ := h
  rw [intMax] at h1
  simp only [UInt64.ofInt, UInt64.toNat_ofNat']
  omega

theorem addInt_returns {x y : Int} (hx : NonNegInt x) (hy : NonNegInt y) : Returns NonNegInt (addInt x y) := by
  constructor
  intro z hz
  obtain ⟨-, hmax, rfl⟩ := addInt_ok.mp hz
  exact ⟨Int.add_nonneg hx.1 hy.1, hmax⟩

/-- Reading a field leaves the fields after it. -/
theorem NonNegFields.next {s t rest : List Char} (hs : NonNegFields s) (h : strtok s = some (t, rest)) :
    NonNegInt (Handoff.toInt (strtol t)) ∧ NonNegFields rest := by
  cases hs with
  | done hnone => cases hnone.symm.trans h
  | field h' ht hr =>
    cases h'.symm.trans h
    rw [ht.toInt]
    exact ⟨ht, hr⟩

theorem nextInt_returns {s : List Char} (hs : NonNegFields s) :
    Returns (fun r => NonNegInt r.1 ∧ NonNegFields r.2) (nextInt s) := by
  unfold nextInt
  split
  · exact .error _
  · next h => exact .ok (hs.next h)

/-! The requests of a line. -/

/-- The RTTs of the two links. -/
def InitTcpSchedArgs.rtt₁ (args : InitTcpSchedArgs) : Int := (args.initParam.get 1).rtt
def InitTcpSchedArgs.rtt₂ (args : InitTcpSchedArgs) : Int := (args.initParam.get 2).rtt

/-- The times and periods of an action. -/
def Action.Fits : Action → Prop
  | .initTcpSched _ args =>
    NonNegInt args.fire ∧ NonNegInt args.sampleInterval ∧ args.mark = 1 ∧
      NonNegInt args.rtt₁ ∧ NonNegInt args.rtt₂
  | _ => True

/-- The requests are for times in range, and so are the numbers in them. -/
def Fit (rs : List Request) : Prop := ∀ r ∈ rs, NonNegInt r.1 ∧ r.2.Fits

theorem Fit.nil : Fit [] := by
  intro r hr
  cases hr

theorem Fit.cons {t : Int} {a : Action} {rs : List Request} (ht : NonNegInt t) (ha : a.Fits) (h : Fit rs) :
    Fit ((t, a) :: rs) := by
  intro r hr
  obtain rfl | hr := List.mem_cons.mp hr
  · exact ⟨ht, ha⟩
  · exact h r hr

theorem Fit.append {rs rs' : List Request} (h : Fit rs) (h' : Fit rs') : Fit (rs ++ rs') := by
  intro r hr
  exact (List.mem_append.mp hr).elim (h r) (h' r)

theorem Fit.ite {c : Prop} [Decidable c] {rs : List Request} (h : Fit rs) : Fit (if c then rs else []) := by
  split
  · exact h
  · exact .nil

section Lines
variable {timeMs : Int} {data : Option (List Char)} {rest : List Char}

theorem hoRequests_returns (ht : NonNegInt timeMs) {f : HoFields} (hgap : NonNegInt f.gapTime) :
    Returns Fit (hoRequests timeMs f) := by
  apply Returns.bind (addInt_returns ht hgap)
  intro restart hr
  apply Returns.bind_any
  intro dropCnt
  apply Returns.ok
  apply Fit.append
  · apply Fit.append
    · exact .cons ht trivial (.cons hr trivial (.cons ht trivial .nil))
    · exact .ite (.cons ht trivial .nil)
  · exact .ite (.cons ht trivial .nil)

theorem readHo_returns (hs : NonNegFields rest) :
    Returns (fun f => NonNegInt f.gapTime) (readHo data rest) := by
  apply Returns.bind_any
  intro queueNum
  apply Returns.bind (nextInt_returns hs)
  intro mark hmark
  apply Returns.bind (nextInt_returns hmark.2)
  intro gapTime hgap
  exact Returns.bind_any fun _ => Returns.bind_any fun _ => Returns.bind_any fun _ => .ok hgap.1

theorem parseHo_returns (ht : NonNegInt timeMs) (hs : NonNegFields rest) :
    Returns Fit (parseHo timeMs data rest) :=
  (readHo_returns hs).bind fun _ hf => hoRequests_returns ht hf

theorem parseInit_returns (ht : NonNegInt timeMs) (hs : NonNegFields rest) :
    Returns Fit (parseInit timeMs data rest) := by
  apply Returns.bind_any
  intro queueNum
  apply Returns.bind (nextInt_returns hs)
  intro mark hmark
  apply Returns.bind (nextInt_returns hmark.2)
  intro endMs hend
  apply Returns.ok
  apply Fit.append
  · exact .cons ht trivial (.cons hend.1 trivial (.cons ht trivial .nil))
  · exact .ite (.cons ht trivial .nil)

theorem parseHandleDup_returns (ht : NonNegInt timeMs) : Returns Fit (parseHandleDup timeMs data rest) :=
  Returns.bind_any fun _ => Returns.bind_any fun _ => .ok (.cons ht trivial .nil)

theorem parseCmd_returns (ht : NonNegInt timeMs) : Returns Fit (parseCmd timeMs data) :=
  parseCmd_rule fun _ => .cons ht trivial .nil

theorem nextLong_returns (hs : NonNegFields rest) :
    Returns (fun r => NonNegFields r.2) (parseInitSched.nextLong rest) := by
  unfold parseInitSched.nextLong
  split
  · exact .error _
  · next h => exact .ok (hs.next h).2

theorem nextLink_returns (hs : NonNegFields rest) :
    Returns (fun r => NonNegInt r.1.rtt ∧ NonNegFields r.2) (parseInitSched.nextLink rest) := by
  apply Returns.bind (nextInt_returns hs)
  intro mark hmark
  apply Returns.bind (nextInt_returns hmark.2)
  intro histRw hrw
  apply Returns.bind (nextInt_returns hrw.2)
  intro rtt hrtt
  exact .ok hrtt

theorem parseInitSched_returns (ht : NonNegInt timeMs) (hs : NonNegFields rest) :
    Returns Fit (parseInitSched timeMs data rest) := by
  apply Returns.bind_any
  intro queueNum
  apply Returns.bind (nextInt_returns hs)
  intro enableRw henable
  apply Returns.bind (nextInt_returns henable.2)
  intro sampleInterval hsample
  apply Returns.bind (nextLong_returns hsample.2)
  intro threshold hthreshold
  apply Returns.bind (nextLong_returns hthreshold)
  intro pace hpace
  apply Returns.bind (nextInt_returns hpace)
  intro startTime hstart
  apply Returns.bind (nextLink_returns hstart.2)
  intro p₁ hp₁
  apply Returns.bind (nextLink_returns hp₁.2)
  intro p₂ hp₂
  exact .ok (.cons ht ⟨hstart.1, hsample.1, rfl, hp₁.1, hp₂.1⟩ .nil)

/-- The two requests of a phase: `a` when it starts at `t`, `b` when it stops `d` later. -/
theorem phase_returns {c : Prop} [Decidable c] {t d : Int} {a b : Action} {k : List Request → C (List Request)}
    (ht : NonNegInt t) (hd : NonNegInt d) (ha : a.Fits) (hb : b.Fits) (hk : ∀ rs, Fit rs → Returns Fit (k rs)) :
    Returns Fit (if c then do
        let stop ← addInt t d
        let rs ← pure [(t, a), (stop, b)]
        k rs
      else do
        let rs ← pure []
        k rs) := by
  apply Returns.ite
  · intro _
    apply Returns.bind (addInt_returns ht hd)
    intro stop hstop
    exact hk _ (.cons ht ha (.cons hstop hb .nil))
  · exact fun _ => hk _ .nil

theorem solHoRequests_returns (ht : NonNegInt timeMs) {f : SolHoFields} (hfreeze : NonNegInt f.freezeMs)
    (hsmooth : NonNegInt f.smoothMs) (hburst : NonNegInt f.burstDuration) :
    Returns Fit (solHoRequests timeMs f) := by
  apply Returns.bind (addInt_returns ht hfreeze)
  intro afterFreeze hafter
  apply phase_returns hafter hsmooth (by trivial) (by trivial)
  intro dedup hdedup
  apply phase_returns hafter hburst (by trivial) (by trivial)
  intro burst hb
  apply Returns.bind (addInt_returns hafter hburst)
  intro afterBurst hadapt
  have hhead : Fit [(timeMs, Action.solUpdate (UInt16.ofInt f.queueNum) (UInt32.ofInt f.mark))] :=
    .cons ht trivial .nil
  apply Returns.ok
  apply Fit.append
  · exact ((hhead.append (.ite (.cons ht (by trivial) .nil))).append hdedup).append hb
  · exact .ite (.cons hadapt trivial .nil)

theorem readSolHo_returns (hs : NonNegFields rest) :
    Returns (fun f => NonNegInt f.freezeMs ∧ NonNegInt f.smoothMs ∧ NonNegInt f.burstDuration)
      (readSolHo data rest) := by
  apply Returns.bind_any
  intro queueNum
  apply Returns.bind (nextInt_returns hs)
  intro mark hmark
  apply Returns.bind (nextInt_returns hmark.2)
  intro enableFreeze henable
  apply Returns.bind (nextInt_returns henable.2)
  intro freezeMs hfreeze
  apply Returns.bind (nextInt_returns hfreeze.2)
  intro enableDedup hdedup
  apply Returns.bind (nextInt_returns hdedup.2)
  intro smoothMs hsmooth
  apply Returns.bind (nextInt_returns hsmooth.2)
  intro burstDuration hburst
  exact Returns.bind_any fun _ => .ok ⟨hfreeze.1, hsmooth.1, hburst.1⟩

theorem parseHandleSolution_returns (ht : NonNegInt timeMs) (hs : NonNegFields rest) :
    Returns Fit (parseHandleSolution timeMs data rest) :=
  (readSolHo_returns hs).bind fun _ hf => solHoRequests_returns ht hf.1 hf.2.1 hf.2.2

end Lines

/-! The trace. -/

/-- What follows the third token, as `parse_event` leaves it for the readers. -/
theorem NonNegFields.afterThird {fields rest : List Char} {tok : Option (List Char)} (h : NonNegFields fields)
    (hthird : (match strtok fields with
      | none => (none, [])
      | some (t, rest) => (some t, rest)) = (tok, rest)) : NonNegFields rest := by
  split at hthird
  · cases hthird
    exact .done rfl
  · next hf =>
    cases hthird
    exact (h.next hf).2

/-- The time and the fields of such a line are in range where the parser splits it. -/
theorem NonNegLine.splits {text : List Char} (h : NonNegLine text) {timeMs : Int} {type : EventType}
    {tok : Option (List Char)} {rest : List Char} (hs : SplitsInto text timeMs type tok rest) :
    NonNegInt timeMs ∧ (type ≠ .cmd → NonNegFields rest) := by
  obtain ⟨time, r, event, fields, htime, ht, hevent, hfields⟩ := h
  obtain ⟨time', r', event', args, htime', rfl, hevent', rfl, hthird⟩ := hs
  cases htime.symm.trans htime'
  cases hevent.symm.trans hevent'
  exact ⟨ht.toInt.symm ▸ ht, fun hcmd => (hfields hcmd).afterThird hthird⟩

theorem readEvent_returns {text : List Char} (h : NonNegLine text) :
    Returns (fun r => Fit r.1) (readEvent text) := by
  refine readEvent_rule .nil ?_ ?_ ?_ ?_ ?_ ?_ <;> intro timeMs tok rest hs <;> obtain ⟨ht, hrest⟩ := h.splits hs
  · exact parseInit_returns ht (hrest nofun)
  · exact parseCmd_returns ht
  · exact parseHo_returns ht (hrest nofun)
  · exact parseHandleDup_returns ht
  · exact parseInitSched_returns ht (hrest nofun)
  · exact parseHandleSolution_returns ht (hrest nofun)

/-- The event is due before 2^31 and its numbers are in range. -/
def SchedulerEvent.Fits (e : SchedulerEvent Action) : Prop := e.timeMs.toNat < 2^31 ∧ e.action.Fits

/-- **The events of a trace in range.** -/
theorem parseTrace_fits {lines : List (List Char)} (hlines : ∀ line ∈ lines, NonNegLine line) :
    ∀ s : SchedulerCtx Action, (∀ e ∈ s.events, e.Fits) →
      Returns (fun s' => ∀ e ∈ s'.events, e.Fits) (parseTrace s lines) := by
  intro s hs
  apply parseTrace_events (P := SchedulerEvent.Fits) ?_ hs
  intro line hline
  apply (readEvent_returns (hlines line hline)).mono
  intro r hr x hx idx
  obtain ⟨ht, ha⟩ := hr x hx
  exact ⟨ht.time.1 ▸ ht.time.2, ha⟩

end Handoff
