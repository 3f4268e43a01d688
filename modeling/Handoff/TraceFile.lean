import Handoff.LineFields

/- The trace file.

   `main` reads the file with `fgets` into a buffer of `CSV_MAX_LINESZ` bytes and hands what
   it got to `parse_event`. A longer line is cut into pieces, each read as a line of its own. The
   parser in turn looks for its fields with `strtok`, which passes over empty ones, and does not
   check that there are any left: a line with too few of them ends in a null pointer, and one
   whose empty fields are made up for by others is read with its fields shifted.
   `file_taken_iff` says which files are taken as the trace format has them. -/
namespace Handoff

def csvMaxLinesz : Nat := 512

/-- What `fgets` puts in a buffer with room for `n` characters, and the rest of the stream. -/
def fgetsChars : Nat → List Char → List Char × List Char
  | 0, stream => ([], stream)
  | _ + 1, [] => ([], [])
  | n + 1, c :: stream =>
    if c = '\n' then ([c], stream)
    else
      let (line, rest) := fgetsChars n stream
      (c :: line, rest)

/-- `fgets(line, size, stream)`, which keeps the last byte for the terminator. -/
def fgets (size : Nat) (stream : List Char) : Option (List Char × List Char) :=
  match fgetsChars (size - 1) stream with
  | ([], _) => none
  | (line, rest) => some (line, rest)

/-- The string in a buffer. -/
def cString (line : List Char) : List Char := line.takeWhile (· != '\x00')

theorem fgetsChars_append (n : Nat) (s : List Char) : (fgetsChars n s).1 ++ (fgetsChars n s).2 = s := by
  induction n generalizing s with
  | zero => rfl
  | succ n ih =>
    cases s with
    | nil => rfl
    | cons c s =>
      unfold fgetsChars
      split
      · rfl
      · exact congrArg (c :: ·) (ih s)

theorem fgets_some {size : Nat} {s line rest : List Char} (h : fgets size s = some (line, rest)) :
    fgetsChars (size - 1) s = (line, rest) ∧ line ≠ [] := by
  unfold fgets at h
  rcases hchars : fgetsChars (size - 1) s with ⟨_ | ⟨c, cs⟩, rest'⟩ <;> rw [hchars] at h
  · cases h
  · cases h
    exact ⟨rfl, List.cons_ne_nil c cs⟩

theorem fgets_shorter {size : Nat} {s line rest : List Char} (h : fgets size s = some (line, rest)) :
    rest.length < s.length := by
  obtain ⟨hchars, hne⟩ := fgets_some h
  have happend := congrArg List.length (fgetsChars_append (size - 1) s)
  simp only [hchars, List.length_append] at happend
  have := List.length_pos_iff.mpr hne
  omega

/-- The reading loop of `main`. -/
def readInput (scheduler : SchedulerCtx Action) (stream : List Char) : C (SchedulerCtx Action) :=
  match h : fgets csvMaxLinesz stream with
  | none => .ok scheduler
  | some (line, rest) => do
    have := fgets_shorter h
    let (scheduler, _) ← parseEvent scheduler (cString line)
    readInput scheduler rest
termination_by stream.length

/-- The strings it hands to `parse_event`. -/
def handed (stream : List Char) : List (List Char) :=
  match h : fgets csvMaxLinesz stream with
  | none => []
  | some (line, rest) =>
    have := fgets_shorter h
    cString line :: handed rest
termination_by stream.length

theorem handed_none {s : List Char} (h : fgets csvMaxLinesz s = none) : handed s = [] := by
  rw [handed]
  split
  · rfl
  · next h' => cases h.symm.trans h'

theorem handed_some {s line rest : List Char} (h : fgets csvMaxLinesz s = some (line, rest)) :
    handed s = cString line :: handed rest := by
  rw [handed]
  split
  · next h' => cases h.symm.trans h'
  · next h' =>
    cases h.symm.trans h'
    rfl

theorem readInput_handed (stream : List Char) :
    ∀ s : SchedulerCtx Action, readInput s stream = parseTrace s (handed stream) := by
  induction stream using handed.induct with
  | case1 stream h =>
    intro s
    rw [handed_none h, readInput]
    split
    · rfl
    · next h' => cases h.symm.trans h'
  | case2 stream line rest h _ ih =>
    intro s
    rw [handed_some h, readInput]
    split
    · next h' => cases h.symm.trans h'
    · next h' =>
      cases h.symm.trans h'
      simp only [parseTrace, ih]

/-! The lines of a file. -/

/-- The lines of a file, each with its newline; the last one may lack it. -/
def fileLines : List Char → List (List Char)
  | [] => []
  | c :: s =>
    if c = '\n' then [c] :: fileLines s
    else
      match fileLines s with
      | [] => [[c]]
      | line :: lines => (c :: line) :: lines

theorem fileLines_nil {s : List Char} (h : fileLines s = []) : s = [] := by
  cases s with
  | nil => rfl
  | cons c s =>
    unfold fileLines at h
    split at h
    · cases h
    · split at h <;> cases h

theorem fileLines_cons {s line : List Char} {lines : List (List Char)} (h : fileLines s = line :: lines) :
    ∃ rest, s = line ++ rest ∧ fileLines rest = lines ∧ line ≠ [] ∧
      ∀ n, fgetsChars n s = if line.length ≤ n then (line, rest) else (line.take n, line.drop n ++ rest) := by
  induction s generalizing line with
  | nil => cases h
  | cons c s ih =>
    unfold fileLines at h
    split at h
    · next hc =>
      cases h
      refine ⟨s, rfl, rfl, List.cons_ne_nil c [], ?_⟩
      intro n
      cases n with
      | zero => rfl
      | succ n => simp [fgetsChars, hc]
    · next hc =>
      split at h
      · next hnil =>
        cases h
        obtain rfl := fileLines_nil hnil
        refine ⟨[], rfl, rfl, List.cons_ne_nil c [], ?_⟩
        intro n
        rcases n with _ | _ | n <;> simp [fgetsChars, hc]
      · next line' lines' hline =>
        cases h
        obtain ⟨rest, rfl, hrest, -, hchars⟩ := ih hline
        refine ⟨rest, rfl, hrest, List.cons_ne_nil c line', ?_⟩
        intro n
        cases n with
        | zero => rfl
        | succ n =>
          simp only [fgetsChars, hc, if_false, hchars n, List.length_cons, Nat.add_le_add_iff_right]
          split <;> rfl

theorem cString_eq {line : List Char} : cString line = line ↔ '\x00' ∉ line := by
  rw [cString, List.takeWhile_eq_self_iff]
  refine ⟨?_, ?_⟩
  · exact fun h hmem => by simpa using h _ hmem
  · exact fun h c hc => bne_iff_ne.mpr fun hzero => h (hzero ▸ hc)

/-- **Lines are handed over whole** iff they fit the buffer and hold no terminator. -/
theorem handed_iff (file : List Char) :
    handed file = fileLines file ↔ ∀ text ∈ fileLines file, text.length < csvMaxLinesz ∧ '\x00' ∉ text := by
  generalize hlines : fileLines file = lines
  induction lines generalizing file with
  | nil =>
    obtain rfl := fileLines_nil hlines
    exact ⟨fun _ => List.forall_mem_nil _, fun _ => handed_none rfl⟩
  | cons line lines ih =>
    obtain ⟨rest, -, hrest, hne, hchars⟩ := fileLines_cons hlines
    rw [List.forall_mem_cons, ← ih rest hrest]
    have hfgets := hchars (csvMaxLinesz - 1)
    by_cases hfits : line.length < csvMaxLinesz
    · rw [if_pos (Nat.le_sub_one_of_lt hfits)] at hfgets
      have hsome : fgets csvMaxLinesz file = some (line, rest) := by
        unfold fgets
        rw [hfgets]
        cases line with
        | nil => exact absurd rfl hne
        | cons c cs => rfl
      rw [handed_some hsome, List.cons.injEq, cString_eq]
      simp [hfits]
    · have hlong : ¬ line.length ≤ csvMaxLinesz - 1 := fun h => hfits (Nat.lt_of_le_pred (by decide) h)
      rw [if_neg hlong] at hfgets
      simp only [hfits, false_and, iff_false]
      intro heq
      rcases hcut : fgets csvMaxLinesz file with _ | ⟨piece, rest'⟩
      · rw [handed_none hcut] at heq
        cases heq
      · obtain ⟨hpiece, -⟩ := fgets_some hcut
        rw [hfgets] at hpiece
        cases hpiece
        rw [handed_some hcut] at heq
        have hlen := congrArg List.length (List.cons.inj heq).1
        have hle : (cString (line.take (csvMaxLinesz - 1))).length ≤ (line.take (csvMaxLinesz - 1)).length :=
          (List.takeWhile_prefix _).length_le
        rw [List.length_take] at hle
        unfold csvMaxLinesz at *
        omega

/-! The lines the format knows. -/

/-- A line of a known type with all its parameters. -/
structure TraceLine where
  type : EventType
  timeMs : Int
  params : List (List Char)

/-- What the line asks the scheduler for. -/
def TraceLine.requests (l : TraceLine) : List Request := lineExpansion l.type l.timeMs l.params

/-- The sums of its times are `int`s. -/
def TraceLine.Sums (l : TraceLine) : Prop := LineSums l.type l.timeMs l.params

instance (l : TraceLine) : Decidable l.Sums := inferInstanceAs (Decidable (LineSums ..))

/-- A field with something in it, the newline apart. -/
def Filled (field : List Char) : Prop := field ≠ [] ∧ field ≠ ['\n']

instance (field : List Char) : Decidable (Filled field) := inferInstanceAs (Decidable (_ ∧ _))

/-- `time_ms,EVENT_TYPE,params...` with none of the fields of the type missing or empty. -/
def completeLine? (text : List Char) : Option TraceLine :=
  match csvFields text with
  | time :: event :: args =>
    match (getEventType event).params with
    | none => none
    | some n =>
      if time ≠ [] ∧ n ≤ args.length ∧ ∀ field ∈ args.take n, Filled field then
        some ⟨getEventType event, toInt (strtol time), args.take n⟩
      else none
  | _ => none

/-- The requests of the complete lines of a file, in file order. -/
def fileRequests (file : List Char) : List Request :=
  (((fileLines file).filterMap completeLine?).map TraceLine.requests).flatten

section Take
variable {n i : Nat} (fs : List (List Char))

@[simp] theorem number_take (h : i < n) : number (fs.take n) i = number fs i := by
  rw [number, List.getElem?_take_of_lt h]
  rfl

@[simp] theorem longNumber_take (h : i < n) : longNumber (fs.take n) i = longNumber fs i := by
  rw [longNumber, List.getElem?_take_of_lt h]
  rfl

@[simp] theorem hoFields_take : hoFields (fs.take 6) = hoFields fs := by
  simp [hoFields]

@[simp] theorem solHoFields_take : solHoFields (fs.take 8) = solHoFields fs := by
  simp [solHoFields]

@[simp] theorem initTcpSchedArgs_take : initTcpSchedArgs (fs.take 12) = initTcpSchedArgs fs := by
  simp [initTcpSchedArgs, linkParameter]

theorem lineOutcome_take {type : EventType} (h : type.params = some n) (timeMs : Int) :
    lineOutcome type timeMs (fs.take n) = lineOutcome type timeMs fs := by
  have hsums : LineSums type timeMs (fs.take n) ↔ LineSums type timeMs fs := by
    cases type <;> cases h <;> simp [LineSums]
  have hreqs : lineExpansion type timeMs (fs.take n) = lineExpansion type timeMs fs := by
    cases type <;> cases h <;> simp [lineExpansion]
  simp only [lineOutcome, hsums, hreqs]

end Take

theorem take_filter {n : Nat} {args : List (List Char)} (hn : n ≤ args.length)
    (h : ∀ field ∈ args.take n, field ≠ []) :
    n ≤ (args.filter (· ≠ [])).length ∧ (args.filter (· ≠ [])).take n = args.take n := by
  have hsplit : args.filter (· ≠ []) = args.take n ++ (args.drop n).filter (· ≠ []) := by
    conv => lhs; rw [← List.take_append_drop n args]
    rw [List.filter_append, List.filter_eq_self.mpr (by simpa using h)]
  have hlen : (args.take n).length = n := by rw [List.length_take, Nat.min_eq_left hn]
  rw [hsplit]
  refine ⟨?_, List.take_left' hlen⟩
  rw [List.length_append, hlen]
  exact Nat.le_add_right _ _

/-- **A complete line is read as it stands.** -/
theorem readEvent_complete {text : List Char} {l : TraceLine} (h : completeLine? text = some l) :
    readEvent text = if l.Sums then .ok (l.requests, 0) else .error .overflow := by
  unfold completeLine? at h
  split at h
  · next time event args hfields =>
    split at h
    · cases h
    · next n hparams =>
      split at h
      · next hfilled =>
        cases h
        obtain ⟨htime, hn, hargs⟩ := hfilled
        have hevent : event ≠ [] := by
          rintro rfl
          cases hparams
        obtain ⟨hlen, htake⟩ := take_filter hn fun field hf => (hargs field hf).1
        have htokens : tokens text = time :: event :: args.filter (· ≠ []) := by
          simp [tokens, hfields, htime, hevent]
        rw [readEvent_tokens htokens, hparams, ← lineOutcome_take _ hparams, htake]
        dsimp only
        rw [if_neg (Nat.not_lt.mpr hlen)]
        by_cases hsums : LineSums (getEventType event) (toInt (strtol time)) (args.take n) <;>
          simp [lineOutcome, TraceLine.Sums, TraceLine.requests, hsums]
      · cases h
  · cases h

/-! Files that are taken as the format has them. -/

/-- The trace format, for one file: every line is handed over once and whole, no null pointer is read, lines
    that are not complete leave the event list alone, and the list holds the requests of the others. -/
structure Taken (file : List Char) : Prop where
  whole : handed file = fileLines file
  nonNull : ∀ text ∈ handed file, readEvent text ≠ .error .nullDeref
  skipped : ∀ text ∈ handed file, completeLine? text = none →
    ∀ s, ∃ s' ret, parseEvent s text = .ok (s', ret) ∧ s'.events = s.events
  listed : ∃ s', readInput schedulerInitCtx file = .ok s' ∧ s'.events = expansion 0 (fileRequests file)

/-- The line has a time and a type. If the parser knows the type, none of its fields is missing or empty and
    the sums of its times are `int`s. -/
def Sound (text : List Char) : Prop :=
  ∃ event ∈ (tokens text)[1]?, (getEventType event).params = none ∨ ∃ l ∈ completeLine? text, l.Sums

instance (text : List Char) : Decidable (Sound text) := inferInstanceAs (Decidable (∃ event ∈ _, _ ∨ _))

/-- The file has sound lines that fit the buffer, and the table has room for its requests. -/
structure CleanFile (file : List Char) : Prop where
  fits : ∀ text ∈ fileLines file, text.length < csvMaxLinesz ∧ '\x00' ∉ text
  sound : ∀ text ∈ fileLines file, Sound text
  room : (fileRequests file).length ≤ schedulerMaxEvent

/-- The requests of a line. -/
def lineRequests (text : List Char) : List Request := (completeLine? text).elim [] TraceLine.requests

theorem fileRequests_eq (file : List Char) : fileRequests file = ((fileLines file).map lineRequests).flatten := by
  unfold fileRequests
  induction fileLines file with
  | nil => rfl
  | cons text texts ih =>
    rcases hl : completeLine? text with _ | l <;> simp [lineRequests, hl, ih]

theorem Sound.read {text : List Char} (h : Sound text) : ∃ ret, readEvent text = .ok (lineRequests text, ret) := by
  obtain ⟨event, hevent, htype⟩ := h
  obtain ⟨time, args, htokens⟩ : ∃ time args, tokens text = time :: event :: args := by
    rcases htokens : tokens text with _ | ⟨time, _ | ⟨event', args⟩⟩ <;> rw [htokens] at hevent <;> cases hevent
    exact ⟨time, args, rfl⟩
  have hread := readEvent_tokens htokens
  rcases hl : completeLine? text with _ | l
  · obtain hnone | ⟨l, hsome, -⟩ := htype
    · rw [hnone] at hread
      exact ⟨-1, by simpa [lineRequests, hl] using hread⟩
    · cases hl.symm.trans hsome
  · have hcomplete := readEvent_complete hl
    have hsums : l.Sums := by
      obtain hnone | ⟨l', hsome, hsums⟩ := htype
      · rw [hread, hnone] at hcomplete
        dsimp only at hcomplete
        split at hcomplete <;> simp at hcomplete
      · cases hl.symm.trans hsome
        exact hsums
    rw [if_pos hsums] at hcomplete
    exact ⟨0, by simpa [lineRequests, hl] using hcomplete⟩

theorem sound_requests {file : List Char} (h : ∀ text ∈ fileLines file, Sound text) (s : SchedulerCtx Action) :
    parseTrace s (fileLines file) = .ok (addRequests s (fileRequests file)) := by
  rw [fileRequests_eq]
  apply parseTrace_requests
  unfold ReadInto
  rw [List.forall₂_map_right_iff, List.forall₂_same]
  exact fun text htext => (h text htext).read

/-- A line that is read without a null pointer, and that leaves the list alone unless it is complete. -/
theorem sound_of_taken {file : List Char} (h : Taken file) {text : List Char} (htext : text ∈ fileLines file) :
    Sound text := by
  rw [← h.whole] at htext
  obtain ⟨s', hparse, -⟩ := h.listed
  rw [readInput_handed] at hparse
  obtain ⟨rss, hrss, -⟩ := parseTrace_readInto hparse
  obtain ⟨⟨rs, ret⟩, hread⟩ := hrss.read text htext
  rcases htokens : tokens text with _ | ⟨time, _ | ⟨event, args⟩⟩
  · exact absurd (readEvent_short (by simp [htokens])) (h.nonNull text htext)
  · exact absurd (readEvent_short (by simp [htokens])) (h.nonNull text htext)
  · refine ⟨event, by simp [htokens], ?_⟩
    rcases hparams : (getEventType event).params with _ | n
    · exact .inl rfl
    · right
      rcases hl : completeLine? text with _ | l
      · -- the parser would take it as a line of the type all the same
        exfalso
        have hret : ret = 0 := by
          rw [readEvent_tokens htokens, hparams] at hread
          dsimp only at hread
          split at hread
          · cases hread
          · obtain ⟨rs', -, hret⟩ := C.bind_ok.mp hread
            cases hret
            rfl
        have hne : rs ≠ [] := (readEvent_nonempty text).value _ hread hret
        obtain ⟨s₁, ret₁, hskip, hsame⟩ := h.skipped text htext hl schedulerInitCtx
        simp only [parseEvent, hread, C.ok_bind] at hskip
        cases hskip
        rw [addRequests_table] at hsame
        have hlen := congrArg List.length hsame
        have hpos := List.length_pos_iff.mpr hne
        simp only [schedulerInitCtx, List.nil_append, expansion_length, List.length_take, List.length_nil,
          schedulerMaxEvent] at hlen
        omega
      · refine ⟨l, rfl, ?_⟩
        by_contra hsums
        rw [readEvent_complete hl, if_neg hsums] at hread
        cases hread

/-- **The trace format is kept** exactly by clean files. -/
theorem file_taken_iff (file : List Char) : Taken file ↔ CleanFile file := by
  refine ⟨?_, ?_⟩
  · intro h
    have hsound : ∀ text ∈ fileLines file, Sound text := fun text htext => sound_of_taken h htext
    refine ⟨(handed_iff file).mp h.whole, hsound, ?_⟩
    obtain ⟨s', hread, hevents⟩ := h.listed
    rw [readInput_handed, h.whole, sound_requests hsound] at hread
    cases hread
    have hlen := congrArg List.length hevents
    rw [addRequests_table] at hlen
    simp only [schedulerInitCtx, List.nil_append, expansion_length, List.length_take, List.length_nil] at hlen
    omega
  · intro h
    have hwhole := (handed_iff file).mpr h.fits
    refine ⟨hwhole, ?_, ?_, ?_⟩
    · intro text htext hnull
      rw [hwhole] at htext
      obtain ⟨ret, hread⟩ := (h.sound text htext).read
      cases hread.symm.trans hnull
    · intro text htext hnone s
      rw [hwhole] at htext
      obtain ⟨ret, hread⟩ := (h.sound text htext).read
      refine ⟨s, ret, ?_, rfl⟩
      simp only [parseEvent, hread, C.ok_bind, lineRequests, hnone]
      rfl
    · refine ⟨_, (readInput_handed file _).trans (hwhole ▸ sound_requests h.sound _), ?_⟩
      exact (Room.table (by simpa [Room, schedulerInitCtx] using h.room)).trans (List.nil_append _)

example : CleanFile "0,INIT,0,1,100\n5,PAUSE,0\n".toList := by
  refine ⟨?_, ?_, ?_⟩ <;> decide +kernel

/-- **A blank line** is a line with a time and nothing else: the parser compares a null pointer with the names
    of the types. -/
theorem blank_line : handed ['\n'] = [['\n']] ∧ readEvent ['\n'] = .error .nullDeref ∧ ¬ Taken ['\n'] := by
  have hhanded : handed ['\n'] = [['\n']] := (handed_iff ['\n']).mpr (by decide)
  have hread : readEvent ['\n'] = .error .nullDeref := by decide
  refine ⟨hhanded, hread, ?_⟩
  intro h
  exact h.nonNull ['\n'] (by rw [hhanded]; exact List.mem_singleton_self _) hread

end Handoff
