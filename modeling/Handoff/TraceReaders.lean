import Handoff.Digits

/- Two readers of a trace: `parse_event`, whose events the emulator runs, and `parse_trace` of metrics.py, after which
   the analysis aligns its samples.

   Both find the handovers in the `HO` lines, and take time and mark from the same fields. On lines with the documented
   fields they differ in three ways (`ReadAlike`): a number with leading zeros is octal to `parse_event`, its sums of
   times may leave `int`, and its table of events may be full. Each loses or changes a handover of its own, so the
   lists are the same only if none of the three happens (`same_handovers_iff`). -/
namespace Handoff

/-! `parse_trace` of metrics.py. -/

namespace Metrics

/-- The two lists `parse_trace` returns. -/
structure HoLists where
  hoTime : List ℚ
  targetLink : List Int
  deriving DecidableEq, Repr

/-- The body of the loop: the lists it leaves, and the exception that ends the loop, if any. A time is in its list
    before the link is read. -/
def traceLine (offset : ℚ) (lists : HoLists) (line : List Char) : HoLists × Option PyError :=
  let tokens := csvFields line
  match getItem tokens 1 with
  | .error e => (lists, some e)
  | .ok event =>
    if event = "HO".toList then
      match getItem tokens 0 >>= pyInt with
      | .error e => (lists, some e)
      | .ok time =>
        let lists := { lists with hoTime := lists.hoTime ++ [(time : ℚ) / 1000 - offset] }
        match getItem tokens 3 >>= pyInt with
        | .error e => (lists, some e)
        | .ok link => ({ lists with targetLink := lists.targetLink ++ [link] }, none)
    else (lists, none)

def traceLines (offset : ℚ) (lists : HoLists) : List (List Char) → HoLists × Option PyError
  | [] => (lists, none)
  | line :: lines =>
    match traceLine offset lists line with
    | (lists, some e) => (lists, some e)
    | (lists, none) => traceLines offset lists lines

/-- `parse_trace` of a file with this text: the lists, and the exception it prints, if any. -/
def parseTrace (offset : ℚ) (data : List Char) : HoLists × Option PyError :=
  traceLines offset ⟨[], []⟩ (readlines data)

end Metrics

/-! The marks of the handovers. -/

def SchedulerEvent.mark? (e : SchedulerEvent Action) : Option (UInt64 × UInt32) :=
  match e.action with
  | .setMark _ mark => some (e.timeMs, mark)
  | _ => none

/-- The time and the mark of the `set_mark` events `parse_event` adds for the `HO` lines. -/
def hoMarks (scheduler : SchedulerCtx Action) : List (List Char) → C (List (UInt64 × UInt32))
  | [] => .ok []
  | text :: lines => do
    let (scheduler', _) ← parseEvent scheduler text
    let marks ← hoMarks scheduler' lines
    let added := scheduler'.events.drop scheduler.events.length
    return (if (tokens text)[1]? = some "HO".toList then added.filterMap SchedulerEvent.mark? else []) ++ marks

/-- **The same handovers**: `parse_event` reads all lines, and the marks of its `HO` lines are what `parse_trace`
    finds, its times in milliseconds. -/
def SameHandovers (file : List Char) : Prop :=
  ∃ marks, hoMarks schedulerInitCtx (fileLines file) = .ok marks ∧
    ((Metrics.parseTrace 0 file).1.hoTime.map (· * 1000)).zip (Metrics.parseTrace 0 file).1.targetLink =
      marks.map fun m => ((m.1.toNat : ℚ), (m.2.toNat : Int))

/-! Documented lines. -/

/-- The line without its newline. -/
def lineBody (text : List Char) : List Char := text.takeWhile (· != '\n')

/-- A command: a string that holds neither a line ending nor a terminator. -/
def IsCommand (s : List Char) : Prop := s ≠ [] ∧ '\n' ∉ s ∧ '\r' ∉ s ∧ '\x00' ∉ s

instance (s : List Char) : Decidable (IsCommand s) := inferInstanceAs (Decidable (_ ∧ _))

/-- `time_ms,EVENT_TYPE,params...`: the fields of the type, all of them numbers but for the one of `CMD`. -/
def DocumentedLine (text : List Char) : Prop :=
  ∃ time event params, csvFields (lineBody text) = time :: event :: params ∧ IsNumber time ∧
    (getEventType event).params = some params.length ∧
    ∀ field ∈ params, if event = "CMD".toList then IsCommand field else IsNumber field

instance (text : List Char) : Decidable (DocumentedLine text) :=
  match hfields : csvFields (lineBody text) with
  | time :: event :: params =>
    decidable_of_iff (IsNumber time ∧ (getEventType event).params = some params.length ∧
      ∀ field ∈ params, if event = "CMD".toList then IsCommand field else IsNumber field)
      ⟨fun h => ⟨time, event, params, hfields, h⟩, fun ⟨_, _, _, hsame, h⟩ => by cases hfields.symm.trans hsame; exact h⟩
  | [] => isFalse fun ⟨_, _, _, hsame, _⟩ => by cases hfields.symm.trans hsame
  | [_] => isFalse fun ⟨_, _, _, hsame, _⟩ => by cases hfields.symm.trans hsame

/-- The time and the mark of an `HO` line. -/
def hoPair? (text : List Char) : Option (List Char × List Char) :=
  match csvFields text with
  | time :: event :: _ :: mark :: _ => if event = "HO".toList then some (time, mark) else none
  | _ => none

/-- The lines are read alike, `n` events being in the table before. -/
structure ReadAlike (n : Nat) (lines : List (List Char)) : Prop where
  sums : ∀ text ∈ lines, ∀ l ∈ completeLine? text, l.Sums
  plain : ∀ text ∈ lines, ∀ p ∈ hoPair? text, PlainNumber p.1 ∧ PlainNumber p.2
  room : ∀ pre text, pre ++ [text] <+: lines → (hoPair? text).isSome →
    n + (pre.map lineRequests).flatten.length + 3 ≤ schedulerMaxEvent

/-! The fields of a documented line. -/

section Fields
variable {c : Char} {s last : List Char} {init : List (List Char)}

theorem csvFields_comma (s : List Char) : csvFields (',' :: s) = [] :: csvFields s :=
  List.splitOn_append_cons_self [] s

theorem csvFields_cons (hc : c ≠ ',') {field : List Char} {fields : List (List Char)}
    (h : csvFields s = field :: fields) : csvFields (c :: s) = (c :: field) :: fields := by
  unfold csvFields at h ⊢
  rw [List.splitOn_cons_eq_if_modifyHead, if_neg (by simpa using hc), h]
  rfl

theorem csvFields_snoc (hc : c ≠ ',') (h : csvFields s = init ++ [last]) :
    csvFields (s ++ [c]) = init ++ [last ++ [c]] := by
  induction s generalizing init last with
  | nil =>
    have hnil : [] ++ [[]] = init ++ [last] := h
    obtain ⟨rfl, hlast⟩ := List.append_inj' hnil rfl
    cases hlast
    exact csvFields_cons hc rfl
  | cons x s ih =>
    obtain ⟨init', last', hs⟩ : ∃ init' last', csvFields s = init' ++ [last'] := by
      obtain hnil | ⟨init', last', hs⟩ := List.eq_nil_or_concat (csvFields s)
      · exact absurd hnil (List.splitOn_ne_nil ',' s)
      · exact ⟨init', last', by rw [hs, List.concat_eq_append]⟩
    have hrest := ih hs
    by_cases hx : x = ','
    · subst hx
      rw [csvFields_comma, hs, ← List.cons_append] at h
      obtain ⟨rfl, hlast⟩ := List.append_inj' h rfl
      cases hlast
      rw [List.cons_append, csvFields_comma, hrest]
      rfl
    · cases init' with
      | nil =>
        rw [csvFields_cons hx hs, ← List.nil_append [x :: last']] at h
        obtain ⟨rfl, hlast⟩ := List.append_inj' h rfl
        cases hlast
        exact csvFields_cons hx hrest
      | cons field fields =>
        rw [csvFields_cons hx hs] at h
        have hfields : ((x :: field) :: fields) ++ [last'] = init ++ [last] := h
        obtain ⟨rfl, hlast⟩ := List.append_inj' hfields rfl
        cases hlast
        exact csvFields_cons hx hrest

theorem mem_csvFields (hc : c ≠ ',') (h : c ∈ s) : ∃ field ∈ csvFields s, c ∈ field := by
  induction s with
  | nil => cases h
  | cons x s ih =>
    obtain ⟨field, fields, hs⟩ := List.exists_cons_of_ne_nil (List.splitOn_ne_nil ',' s)
    change csvFields s = field :: fields at hs
    rw [hs] at ih
    by_cases hx : x = ','
    · subst hx
      obtain ⟨f, hf, hcf⟩ := ih (by simpa [hc] using h)
      rw [csvFields_comma, hs]
      exact ⟨f, List.mem_cons_of_mem _ hf, hcf⟩
    · rw [csvFields_cons hx hs]
      obtain rfl | h := List.mem_cons.mp h
      · exact ⟨_, List.mem_cons_self, List.mem_cons_self⟩
      · obtain ⟨f, hf, hcf⟩ := ih h
        obtain rfl | hf := List.mem_cons.mp hf
        · exact ⟨_, List.mem_cons_self, List.mem_cons_of_mem _ hcf⟩
        · exact ⟨f, List.mem_cons_of_mem _ hf, hcf⟩

theorem fileLines_body {file text : List Char} (h : text ∈ fileLines file) :
    text = lineBody text ∨ text = lineBody text ++ ['\n'] := by
  induction file generalizing text with
  | nil => cases h
  | cons c file ih =>
    unfold fileLines at h
    split at h
    · next hc =>
      subst hc
      obtain rfl | h := List.mem_cons.mp h
      · exact .inr rfl
      · exact ih h
    · next hc =>
      split at h
      · obtain rfl := List.mem_singleton.mp h
        exact .inl (by simp [lineBody, hc])
      · next line lines hlines =>
        rw [hlines] at ih
        obtain rfl | h := List.mem_cons.mp h
        · have hbody : lineBody (c :: line) = c :: lineBody line := by simp [lineBody, hc]
          rw [hbody]
          exact (ih List.mem_cons_self).imp (congrArg (c :: ·)) (congrArg (c :: ·))
        · exact ih (List.mem_cons_of_mem _ h)

theorem fileLines_flatten (file : List Char) : (fileLines file).flatten = file := by
  induction file with
  | nil => rfl
  | cons c file ih =>
    unfold fileLines
    split
    · exact congrArg (c :: ·) ih
    · split
      · next hnil =>
        rw [fileLines_nil hnil]
        rfl
      · next line lines hlines =>
        rw [hlines] at ih
        exact congrArg (c :: ·) ih

end Fields

/-- The fields of the line, the newline included. -/
structure LineSplit (text time event : List Char) (params : List (List Char)) : Prop where
  fields : csvFields text = time :: event :: params
  time : IsNumber time
  known : (getEventType event).params = some params.length
  filled : ∀ field ∈ params, Filled field
  ho : event = "HO".toList → ∃ q mark gap cnt offset drop, params = [q, mark, gap, cnt, offset, drop] ∧ IsNumber mark

section Documented
variable {file text event : List Char} {c : Char} {n : Nat}

theorem params_pos {type : EventType} (h : type.params = some n) : 0 < n := by
  cases type <;> cases h <;> decide

theorem known_event (h : (getEventType event).params = some n) : '\r' ∉ event := by
  unfold getEventType at h
  split at h
  · next he => subst he; decide
  · split at h
    · next he => subst he; decide
    · split at h
      · next he => subst he; decide
      · split at h
        · next he => subst he; decide
        · split at h
          · next he => subst he; decide
          · split at h
            · next he => subst he; decide
            · cases h

theorem IsNumber.not_mem {s : List Char} (h : IsNumber s) (hc : ¬ c.isDigit) : c ∉ s := fun hmem => hc (h.1.2 c hmem)

theorem documented_param {field : List Char} (h : if event = "CMD".toList then IsCommand field else IsNumber field) :
    field ≠ [] ∧ '\n' ∉ field ∧ '\r' ∉ field := by
  split at h
  · exact ⟨h.1, h.2.1, h.2.2.1⟩
  · exact ⟨h.1.1, h.not_mem (by decide), h.not_mem (by decide)⟩

theorem DocumentedLine.noReturn (h : DocumentedLine text) (hmem : text ∈ fileLines file) : '\r' ∉ text := by
  obtain ⟨time, event, params, hfields, htime, hknown, hparams⟩ := h
  have hbody : '\r' ∉ lineBody text := by
    intro hr
    obtain ⟨field, hfield, hr⟩ := mem_csvFields (by decide) hr
    rw [hfields, List.mem_cons, List.mem_cons] at hfield
    obtain rfl | rfl | hfield := hfield
    · exact htime.not_mem (by decide) hr
    · exact known_event hknown hr
    · exact (documented_param (hparams field hfield)).2.2 hr
  obtain htext | htext := fileLines_body hmem
  · rwa [htext]
  · rw [htext, List.mem_append, not_or]
    exact ⟨hbody, by decide⟩

theorem six_fields {params : List (List Char)} (h : params.length = 6) :
    ∃ q mark gap cnt offset drop, params = [q, mark, gap, cnt, offset, drop] :=
  match params, h with
  | [q, mark, gap, cnt, offset, drop], _ => ⟨q, mark, gap, cnt, offset, drop, rfl⟩

theorem documented_body (h : DocumentedLine text) : ∃ time event params, LineSplit (lineBody text) time event params := by
  obtain ⟨time, event, params, hfields, htime, hknown, hparams⟩ := h
  refine ⟨time, event, params, hfields, htime, hknown, fun field hfield => ?_, ?_⟩
  · obtain ⟨hne, hnl, -⟩ := documented_param (hparams field hfield)
    refine ⟨hne, ?_⟩
    rintro rfl
    exact hnl List.mem_cons_self
  · rintro rfl
    obtain ⟨q, mark, gap, cnt, offset, drop, rfl⟩ := six_fields (Option.some.inj hknown).symm
    have hmark := hparams mark (by simp)
    rw [if_neg (by decide)] at hmark
    exact ⟨q, mark, gap, cnt, offset, drop, rfl, hmark⟩

theorem LineSplit.newline {time : List Char} {params : List (List Char)} (h : LineSplit text time event params) :
    ∃ params', LineSplit (text ++ ['\n']) time event params' := by
  obtain ⟨hfields, htime, hknown, hfilled, hho⟩ := h
  obtain rfl | ⟨init, last, rfl⟩ := List.eq_nil_or_concat params
  · exact absurd (params_pos hknown) (Nat.lt_irrefl 0)
  rw [List.concat_eq_append] at *
  have hfields' : csvFields (text ++ ['\n']) = (time :: event :: init) ++ [last ++ ['\n']] :=
    csvFields_snoc (by decide) hfields
  refine ⟨init ++ [last ++ ['\n']], hfields', htime, ?_, ?_, ?_⟩
  · rw [hknown]
    simp
  · intro field hfield
    obtain hfield | hfield := List.mem_append.mp hfield
    · exact hfilled field (List.mem_append_left _ hfield)
    · obtain rfl := List.mem_singleton.mp hfield
      have hlast := (hfilled last (by simp)).1
      exact ⟨by simp, by simpa using hlast⟩
  · intro he
    obtain ⟨q, mark, gap, cnt, offset, drop, heq, hmark⟩ := hho he
    have hsplit : init ++ [last] = [q, mark, gap, cnt, offset] ++ [drop] := heq
    obtain ⟨rfl, -⟩ := List.append_inj' hsplit rfl
    exact ⟨q, mark, gap, cnt, offset, last ++ ['\n'], rfl, hmark⟩

theorem DocumentedLine.split (h : DocumentedLine text) (hmem : text ∈ fileLines file) :
    ∃ time event params, LineSplit text time event params := by
  obtain ⟨time, event, params, hbody⟩ := documented_body h
  obtain htext | htext := fileLines_body hmem
  · rw [htext]
    exact ⟨time, event, params, hbody⟩
  · rw [htext]
    obtain ⟨params', hline⟩ := hbody.newline
    exact ⟨time, event, params', hline⟩

end Documented

/-! What the readers make of a line. -/

theorem getEventType_ho {event : List Char} : getEventType event = .ho ↔ event = "HO".toList := by
  unfold getEventType
  constructor
  · intro h
    split at h
    · cases h
    · split at h
      · cases h
      · split at h
        · assumption
        · split at h
          · cases h
          · split at h
            · cases h
            · split at h <;> cases h
  · rintro rfl
    decide

/-- What `parse_trace` takes from the line. -/
def pythonPair (p : List Char × List Char) : Nat × Nat := (digitsNumber p.1, digitsNumber p.2)

/-- The mark event `parse_event` makes of it. -/
def cPair (p : List Char × List Char) : UInt64 × UInt32 := (UInt64.ofInt (strtol p.1), UInt32.ofInt (strtol p.2))

def requestMark? (r : Request) : Option (UInt64 × UInt32) :=
  match r.2 with
  | .setMark _ mark => some (UInt64.ofInt r.1, mark)
  | _ => none

def markNumbers (m : UInt64 × UInt32) : Nat × Nat := (m.1.toNat, m.2.toNat)

theorem cPair_numbers {p : List Char × List Char} (h₁ : IsNumber p.1) (h₂ : IsNumber p.2) :
    markNumbers (cPair p) = pythonPair p ↔ PlainNumber p.1 ∧ PlainNumber p.2 := by
  have hnn₁ := strtol_nonNeg h₁
  have hnn₂ := strtol_nonNeg h₂
  have htime : (UInt64.ofInt (strtol p.1)).toNat = (strtol p.1).toNat := hnn₁.time.1
  have hmark : (UInt32.ofInt (strtol p.2)).toNat = (strtol p.2).toNat := by
    have ⟨hmin, hmax⟩ := hnn₂
    rw [intMax] at hmax
    simp only [UInt32.ofInt, UInt32.toNat_ofNat']
    omega
  have hnat : ∀ (x : Int) (n : Nat), NonNegInt x → (x.toNat = n ↔ x = n) := by
    intro x n hx
    have h0 := hx.1
    omega
  rw [markNumbers, cPair, pythonPair, Prod.mk.injEq, htime, hmark, hnat _ _ hnn₁, hnat _ _ hnn₂, strtol_eq_iff h₁,
    strtol_eq_iff h₂]

section Line
variable {text time event : List Char} {params : List (List Char)}

theorem LineSplit.tokens_eq (h : LineSplit text time event params) : tokens text = time :: event :: params := by
  have hevent : event ≠ [] := by
    rintro rfl
    cases h.known
  have hparams : params.filter (· ≠ []) = params := List.filter_eq_self.mpr fun f hf => by simpa using (h.filled f hf).1
  rw [tokens, h.fields, List.filter_cons_of_pos (by simpa using h.time.1.1), List.filter_cons_of_pos (by simpa using hevent),
    hparams]

theorem LineSplit.complete (h : LineSplit text time event params) :
    completeLine? text = some ⟨getEventType event, strtol time, params⟩ := by
  have hfull : time ≠ [] ∧ params.length ≤ params.length ∧ ∀ field ∈ params.take params.length, Filled field :=
    ⟨h.time.1.1, Nat.le_refl _, fun f hf => h.filled f (List.mem_of_mem_take hf)⟩
  unfold completeLine?
  rw [h.fields]
  dsimp only
  rw [h.known]
  dsimp only
  rw [if_pos hfull, List.take_length, (strtol_nonNeg h.time).toInt]

theorem hoPair_mark {text : List Char} {p : List Char × List Char} (h : hoPair? text = some p) :
    (csvFields text)[3]? = some p.2 := by
  unfold hoPair? at h
  split at h
  · next heq =>
    split at h
    · cases h
      rw [heq]
      rfl
    · cases h
  · cases h

theorem LineSplit.no_pair (h : LineSplit text time event params) (he : event ≠ "HO".toList) : hoPair? text = none := by
  unfold hoPair?
  rw [h.fields]
  split
  · next heq =>
    cases heq
    exact if_neg he
  · rfl

theorem LineSplit.ho_pair (h : LineSplit text time event params) (he : event = "HO".toList) :
    ∃ mark r₁ r₂ r₃ rest, hoPair? text = some (time, mark) ∧ IsNumber mark ∧
      lineRequests text = r₁ :: r₂ :: r₃ :: rest ∧ requestMark? r₁ = none ∧ requestMark? r₂ = none ∧
      requestMark? r₃ = some (cPair (time, mark)) ∧ ∀ r ∈ rest, requestMark? r = none := by
  obtain ⟨q, mark, gap, cnt, offset, drop, hparams, hmark⟩ := h.ho he
  have hnumber : number params 1 = strtol mark := by
    rw [hparams]
    exact (strtol_nonNeg hmark).toInt
  have hrequests : lineRequests text = hoExpansion (strtol time) (hoFields params) := by
    rw [lineRequests, h.complete, getEventType_ho.mpr he]
    rfl
  have hpair : hoPair? text = some (time, mark) := by
    unfold hoPair?
    rw [h.fields, hparams]
    exact if_pos he
  rw [hrequests, hoExpansion, List.append_assoc]
  simp only [List.cons_append, List.nil_append]
  refine ⟨mark, _, _, _, _, hpair, hmark, rfl, rfl, rfl, ?_, ?_⟩
  · exact congrArg (fun m => some (UInt64.ofInt (strtol time), UInt32.ofInt m)) hnumber
  · intro r hr
    obtain hr | hr := List.mem_append.mp hr
    · split at hr
      · obtain rfl := List.mem_singleton.mp hr
        rfl
      · cases hr
    · split at hr
      · obtain rfl := List.mem_singleton.mp hr
        rfl
      · cases hr

theorem LineSplit.parse (h : LineSplit text time event params) (s : SchedulerCtx Action) :
    parseEvent s text =
      if ∀ l ∈ completeLine? text, l.Sums then .ok (addRequests s (lineRequests text), 0) else .error .overflow := by
  have hread := readEvent_complete h.complete
  rw [parseEvent, hread, lineRequests, h.complete]
  by_cases hs : (TraceLine.mk (getEventType event) (strtol time) params).Sums
  · rw [if_pos hs, if_pos (by simpa using hs)]
    rfl
  · rw [if_neg hs, if_neg (by simpa using hs)]
    rfl

theorem LineSplit.pair_number (h : LineSplit text time event params) {p : List Char × List Char}
    (hp : hoPair? text = some p) : IsNumber p.1 ∧ IsNumber p.2 := by
  by_cases he : event = "HO".toList
  · obtain ⟨mark, _, _, _, _, hpair, hmark, -⟩ := h.ho_pair he
    cases hp.symm.trans hpair
    exact ⟨h.time, hmark⟩
  · cases hp.symm.trans (h.no_pair he)

theorem expansion_mark (n : Nat) (rs : List Request) :
    (expansion n rs).filterMap SchedulerEvent.mark? = rs.filterMap requestMark? := by
  induction rs generalizing n with
  | nil => rfl
  | cons r rs ih =>
    rw [expansion_cons, List.filterMap_cons, List.filterMap_cons, ih]
    rfl

/-- A table that has no room for three events takes no mark. -/
theorem third_mark {r₁ r₂ r₃ : Request} {rest : List Request} {m : UInt64 × UInt32} (h₁ : requestMark? r₁ = none)
    (h₂ : requestMark? r₂ = none) (h₃ : requestMark? r₃ = some m) (hrest : ∀ r ∈ rest, requestMark? r = none) (k : Nat) :
    ((r₁ :: r₂ :: r₃ :: rest).take k).filterMap requestMark? = if 3 ≤ k then [m] else [] := by
  match k with
  | 0 => rfl
  | 1 => simp [h₁]
  | 2 => simp [h₁, h₂]
  | k + 3 =>
    have hnil : (rest.take k).filterMap requestMark? = [] :=
      List.filterMap_eq_nil_iff.mpr fun r hr => hrest r (List.mem_of_mem_take hr)
    simp [h₁, h₂, h₃, hnil]

/-- The marks a line adds, `n` events being in the table. -/
def lineMarks (n : Nat) (text : List Char) : List (UInt64 × UInt32) :=
  if n + 3 ≤ schedulerMaxEvent then (hoPair? text).toList.map cPair else []

theorem LineSplit.marks (h : LineSplit text time event params) (s : SchedulerCtx Action) :
    (if (tokens text)[1]? = some "HO".toList then
        ((addRequests s (lineRequests text)).events.drop s.events.length).filterMap SchedulerEvent.mark?
      else []) = lineMarks s.events.length text := by
  rw [h.tokens_eq, lineMarks]
  by_cases he : event = "HO".toList
  · obtain ⟨mark, r₁, r₂, r₃, rest, hpair, -, hrequests, h₁, h₂, h₃, hrest⟩ := h.ho_pair he
    rw [if_pos (by simp [he]), addRequests_table, List.drop_left, hpair, expansion_mark, hrequests,
      third_mark h₁ h₂ h₃ hrest]
    exact if_congr (by omega) rfl rfl
  · rw [h.no_pair he, if_neg (by simpa using he)]
    simp

theorem LineSplit.python (h : LineSplit text time event params) (offset : ℚ) (lists : Metrics.HoLists) :
    Metrics.traceLine offset lists text =
      (⟨lists.hoTime ++ (hoPair? text).toList.map fun p => (digitsNumber p.1 : ℚ) / 1000 - offset,
        lists.targetLink ++ (hoPair? text).toList.map fun p => (digitsNumber p.2 : Int)⟩, none) := by
  have hevent : getItem (csvFields text) 1 = .ok event := (getItem_ok (n := 1)).mpr (by rw [h.fields]; rfl)
  by_cases he : event = "HO".toList
  · obtain ⟨mark, _, _, _, _, hpair, hmark, -⟩ := h.ho_pair he
    have htime : getItem (csvFields text) 0 = .ok time := (getItem_ok (n := 0)).mpr (by rw [h.fields]; rfl)
    have hlink : getItem (csvFields text) 3 = .ok mark := (getItem_ok (n := 3)).mpr (hoPair_mark hpair)
    simp only [Metrics.traceLine, hevent, if_pos he, htime, hlink, Py.ok_bind, pyInt_digits h.time.1,
      pyInt_digits hmark.1, hpair]
    rfl
  · simp only [Metrics.traceLine, hevent, if_neg he, h.no_pair he]
    simp

end Line

section Lines
variable {lines : List (List Char)}

/-- All lines are split. -/
def Split (lines : List (List Char)) : Prop := ∀ text ∈ lines, ∃ time event params, LineSplit text time event params

theorem filterMap_hoPair (text : List Char) (lines : List (List Char)) :
    (text :: lines).filterMap hoPair? = (hoPair? text).toList ++ lines.filterMap hoPair? := by
  rw [List.filterMap_cons]
  rcases hoPair? text with _ | p
  · rfl
  · rfl

theorem python_lines (h : Split lines) (offset : ℚ) (lists : Metrics.HoLists) :
    Metrics.traceLines offset lists lines =
      (⟨lists.hoTime ++ (lines.filterMap hoPair?).map fun p => (digitsNumber p.1 : ℚ) / 1000 - offset,
        lists.targetLink ++ (lines.filterMap hoPair?).map fun p => (digitsNumber p.2 : Int)⟩, none) := by
  induction lines generalizing lists with
  | nil => simp [Metrics.traceLines]
  | cons text lines ih =>
    obtain ⟨⟨time, event, params, hsplit⟩, hrest⟩ := List.forall_mem_cons.mp h
    rw [Metrics.traceLines, hsplit.python]
    dsimp only
    rw [ih hrest, filterMap_hoPair]
    simp

theorem hoMarks_cons {text : List Char} (h : ∃ time event params, LineSplit text time event params)
    {s : SchedulerCtx Action} {marks : List (UInt64 × UInt32)} :
    hoMarks s (text :: lines) = .ok marks ↔ (∀ l ∈ completeLine? text, l.Sums) ∧
      ∃ rest, hoMarks (addRequests s (lineRequests text)) lines = .ok rest ∧
        marks = lineMarks s.events.length text ++ rest := by
  obtain ⟨time, event, params, hsplit⟩ := h
  rw [hoMarks, hsplit.parse]
  by_cases hsums : ∀ l ∈ completeLine? text, l.Sums
  · rw [if_pos hsums, C.ok_bind]
    dsimp only
    rw [hsplit.marks, C.bind_ok]
    constructor
    · intro hm
      obtain ⟨rest, hr, hm⟩ := hm
      cases hm
      exact ⟨hsums, rest, hr, rfl⟩
    · intro hm
      obtain ⟨-, rest, hr, rfl⟩ := hm
      exact ⟨rest, hr, rfl⟩
  · rw [if_neg hsums, C.error_bind]
    exact iff_of_false nofun fun hm => hsums hm.1

/-- No line adds more than the mark it holds. -/
theorem hoMarks_length (h : Split lines) {s : SchedulerCtx Action} {marks : List (UInt64 × UInt32)}
    (hmarks : hoMarks s lines = .ok marks) : marks.length ≤ (lines.filterMap hoPair?).length := by
  induction lines generalizing s marks with
  | nil =>
    cases hmarks
    exact Nat.le_refl 0
  | cons text lines ih =>
    obtain ⟨hfirst, hrest⟩ := List.forall_mem_cons.mp h
    obtain ⟨-, rest, hr, rfl⟩ := (hoMarks_cons hfirst).mp hmarks
    have hle := ih hrest hr
    have hline : (lineMarks s.events.length text).length ≤ (hoPair? text).toList.length := by
      unfold lineMarks
      split
      · rw [List.length_map]
      · exact Nat.zero_le _
    rw [List.length_append, filterMap_hoPair, List.length_append]
    exact Nat.add_le_add hline hle

/-- The marks of a line agree with its pair, and the others with theirs. Where the first one is lost, the others are
    too few. -/
theorem LineSplit.marks_agree {text time event : List Char} {params : List (List Char)}
    (h : LineSplit text time event params) {n : Nat} {rest : List (UInt64 × UInt32)}
    {pairs : List (List Char × List Char)} (hle : rest.length ≤ pairs.length) :
    (lineMarks n text ++ rest).map markNumbers = ((hoPair? text).toList ++ pairs).map pythonPair ↔
      (∀ p ∈ hoPair? text, PlainNumber p.1 ∧ PlainNumber p.2) ∧
        ((hoPair? text).isSome → n + 3 ≤ schedulerMaxEvent) ∧ rest.map markNumbers = pairs.map pythonPair := by
  rcases hp : hoPair? text with _ | p
  · have hnone : lineMarks n text = [] := by
      unfold lineMarks
      rw [hp]
      split <;> rfl
    rw [hnone]
    exact ⟨fun heq => ⟨nofun, nofun, heq⟩, fun hall => hall.2.2⟩
  · by_cases hroom : n + 3 ≤ schedulerMaxEvent
    · have hone : lineMarks n text = [cPair p] := by
        unfold lineMarks
        rw [if_pos hroom, hp]
        rfl
      have hnumbers := h.pair_number hp
      rw [hone, Option.toList_some, List.singleton_append, List.singleton_append, List.map_cons, List.map_cons,
        List.cons.injEq, cPair_numbers hnumbers.1 hnumbers.2]
      simp [hroom]
    · have hnone : lineMarks n text = [] := if_neg hroom
      refine iff_of_false (fun heq => ?_) fun hall => hroom (hall.2.1 rfl)
      have hlen := congrArg List.length heq
      simp [hnone] at hlen
      omega

theorem readAlike_cons {n n' : Nat} {text : List Char} (hn : n' = min (n + (lineRequests text).length) schedulerMaxEvent) :
    ReadAlike n (text :: lines) ↔
      (∀ l ∈ completeLine? text, l.Sums) ∧ (∀ p ∈ hoPair? text, PlainNumber p.1 ∧ PlainNumber p.2) ∧
        ((hoPair? text).isSome → n + 3 ≤ schedulerMaxEvent) ∧ ReadAlike n' lines := by
  -- a table that is full stays so
  have hroom : ∀ k, n' + k + 3 ≤ schedulerMaxEvent ↔ n + ((lineRequests text).length + k) + 3 ≤ schedulerMaxEvent := by
    intro k
    omega
  constructor
  · intro h
    obtain ⟨hsums, hplain, hfits⟩ := h
    obtain ⟨hsum, hsums⟩ := List.forall_mem_cons.mp hsums
    obtain ⟨hplain₁, hplain⟩ := List.forall_mem_cons.mp hplain
    refine ⟨hsum, hplain₁, fun hsome => hfits [] text ⟨lines, rfl⟩ hsome, hsums, hplain, fun pre text' hp hsome => ?_⟩
    have hfit := hfits (text :: pre) text' (List.cons_prefix_cons.mpr ⟨rfl, hp⟩) hsome
    rw [List.map_cons, List.flatten_cons, List.length_append] at hfit
    exact (hroom _).mpr hfit
  · intro h
    obtain ⟨hsum, hplain₁, hfit, hsums, hplain, hfits⟩ := h
    refine ⟨List.forall_mem_cons.mpr ⟨hsum, hsums⟩, List.forall_mem_cons.mpr ⟨hplain₁, hplain⟩, fun pre text' hp hsome => ?_⟩
    cases pre with
    | nil =>
      obtain ⟨rfl, -⟩ := List.cons_prefix_cons.mp hp
      exact hfit hsome
    | cons first pre =>
      obtain ⟨rfl, hp'⟩ := List.cons_prefix_cons.mp hp
      rw [List.map_cons, List.flatten_cons, List.length_append]
      exact (hroom _).mp (hfits pre text' hp' hsome)

/-- **The readers agree on the lines** iff they are read alike. -/
theorem hoMarks_iff (h : Split lines) (s : SchedulerCtx Action) (hs : s.events.length ≤ schedulerMaxEvent) :
    (∃ marks, hoMarks s lines = .ok marks ∧ marks.map markNumbers = (lines.filterMap hoPair?).map pythonPair) ↔
      ReadAlike s.events.length lines := by
  induction lines generalizing s with
  | nil =>
    refine iff_of_true ⟨[], rfl, rfl⟩ ⟨List.forall_mem_nil _, List.forall_mem_nil _, fun pre text hp => ?_⟩
    simp at hp
  | cons text lines ih =>
    obtain ⟨⟨time, event, params, hsplit⟩, hrest⟩ := List.forall_mem_cons.mp h
    have htable : (addRequests s (lineRequests text)).events.length =
        min (s.events.length + (lineRequests text).length) schedulerMaxEvent := by
      rw [addRequests_table, List.length_append, expansion_length, List.length_take]
      omega
    rw [readAlike_cons htable, ← ih hrest _ (by rw [htable]; exact min_le_right _ _), filterMap_hoPair]
    simp only [hoMarks_cons ⟨time, event, params, hsplit⟩]
    constructor
    · intro hall
      obtain ⟨_, ⟨hsums, rest, hr, rfl⟩, heq⟩ := hall
      obtain ⟨hplain, hroom, heq⟩ := (hsplit.marks_agree (hoMarks_length hrest hr)).mp heq
      exact ⟨hsums, hplain, hroom, rest, hr, heq⟩
    · intro hall
      obtain ⟨hsums, hplain, hroom, rest, hr, heq⟩ := hall
      exact ⟨_, ⟨hsums, rest, hr, rfl⟩, (hsplit.marks_agree (hoMarks_length hrest hr)).mpr ⟨hplain, hroom, heq⟩⟩

end Lines

/-! Files. -/

theorem readlines_documented {file : List Char} (h : ∀ text ∈ fileLines file, DocumentedLine text) :
    readlines file = fileLines file := by
  have hreturn : '\r' ∉ file := by
    rw [← fileLines_flatten file, List.mem_flatten]
    intro hmem
    obtain ⟨text, htext, hr⟩ := hmem
    exact (h text htext).noReturn htext hr
  have hsame := universalNewlines_append hreturn []
  rw [List.append_nil] at hsame
  rw [readlines, hsame]
  exact congrArg fileLines (List.append_nil file)

/-- **The readers find the same handovers** iff every number they both read is plain, every sum is an `int`, and the
    table has room for the mark of every `HO` line. -/
theorem same_handovers_iff {file : List Char} (h : ∀ text ∈ fileLines file, DocumentedLine text) :
    SameHandovers file ↔ ReadAlike 0 (fileLines file) := by
  have hsplit : Split (fileLines file) := fun text htext => (h text htext).split htext
  have hiff : _ ↔ ReadAlike 0 (fileLines file) := hoMarks_iff hsplit schedulerInitCtx (Nat.zero_le _)
  rw [← hiff]
  unfold SameHandovers Metrics.parseTrace
  rw [readlines_documented h, python_lines hsplit]
  refine exists_congr fun marks => and_congr_right fun _ => ?_
  generalize (fileLines file).filterMap hoPair? = pairs
  let cast (p : Nat × Nat) : ℚ × Int := (p.1, p.2)
  have hcast : Function.Injective cast := by
    intro p q hpq
    rw [Prod.mk.injEq, Nat.cast_inj, Nat.cast_inj] at hpq
    exact Prod.ext hpq.1 hpq.2
  have hpython : ((([] : List ℚ) ++ pairs.map fun p => (digitsNumber p.1 : ℚ) / 1000 - 0).map (· * 1000)).zip
      (([] : List Int) ++ pairs.map fun p => (digitsNumber p.2 : Int)) = (pairs.map pythonPair).map cast := by
    rw [List.nil_append, List.nil_append, List.map_map, List.map_map, List.zip_map']
    refine List.map_congr_left fun p _ => ?_
    simp [cast, pythonPair]
  have hc : (marks.map fun m => ((m.1.toNat : ℚ), (m.2.toNat : Int))) = (marks.map markNumbers).map cast := by
    rw [List.map_map]
    rfl
  rw [hc]
  exact (Eq.congr_left hpython).trans ((List.map_injective_iff.mpr hcast).eq_iff.trans eq_comm)

def octalTrace : List Char := "010,HO,0,2,0,0,0,0\n".toList

/-- A time with a leading zero: the emulator hands over after 8 ms, for the analysis it is 10 ms. -/
theorem handovers_octal :
    (∀ text ∈ fileLines octalTrace, DocumentedLine text) ∧ hoMarks schedulerInitCtx (fileLines octalTrace) = .ok [(8, 2)] ∧
      Metrics.parseTrace 0 octalTrace = (⟨[10 / 1000], [2]⟩, none) ∧ ¬ SameHandovers octalTrace := by
  have hmarks : hoMarks schedulerInitCtx (fileLines octalTrace) = .ok [(8, 2)] := by decide +kernel
  have hpython : Metrics.parseTrace 0 octalTrace = (⟨[10 / 1000], [2]⟩, none) := by decide +kernel
  refine ⟨by decide +kernel, hmarks, hpython, ?_⟩
  intro hsame
  obtain ⟨marks, hm, heq⟩ := hsame
  cases hmarks.symm.trans hm
  rw [hpython] at heq
  revert heq
  decide +kernel

/-- A trace with a leading zero that does not matter, and a command. -/
def smallTrace : List Char := "0,INIT,0,1,50000\n07,HO,0,2,30,1,26,0\n1000,CMD,ping -c 1 10.0.0.2 &".toList

theorem same_handovers_iff_small : ReadAlike 0 (fileLines smallTrace) :=
  (same_handovers_iff (by decide +kernel)).mp ⟨[(7, 2)], by decide +kernel, by decide +kernel⟩

end Handoff
