import Handoff.PacketLogFile
import Handoff.TraceMeaning
import Handoff.TraceReaders

/- The scripts that rewrite traces: `generate_trace` (`scripts/run/generate_input.py`), which appends the commands that
   start the measurement to a trace. What it writes is emulated as its input is, call by call
   (`generated_trace_runs`). -/
namespace Handoff

open StableSort

/-! `generate_trace`. -/

/-- `str(n)`. -/
def pyStr (n : Int) : List Char := if n < 0 then '-' :: decimal n.natAbs else decimal n.natAbs

/-- The loop that looks for the `INIT` line and reads its last field. `none` is a loop that has not found it,
    so that the name it assigns is not bound. -/
def executionTime : List (List Char) → Py (Option Int)
  | [] => .ok none
  | line :: lines => do
    let tokens := csvFields line
    let name ← getItem tokens 1
    if name = "INIT".toList then
      let last ← getItem tokens (-1)
      let n ← pyInt last
      return some n
    else executionTime lines

/-- The last line gets a line break if it has none. -/
def breakLast (lines : List (List Char)) : List (List Char) :=
  match lines.getLast? with
  | none => lines
  | some last => if last.getLast? = some '\n' then lines else lines.dropLast ++ [last ++ ['\n']]

/-- The command that starts `iperf3`, and the one that starts the monitor. -/
def iperfCommand (time : Int) (logname : List Char) : List Char :=
  "iperf3 -c 10.0.0.2 -p 5257 -t ".toList ++ pyStr time ++ " -i 0.1 -J --logfile ".toList ++ logname ++ " &\n".toList

def monitorCommand (time : Int) (logname : List Char) : List Char :=
  "/data/ztliu/emulator-test/scripts/run/monitor.sh ".toList ++ logname ++ " ".toList ++ pyStr time ++ " &\n".toList

def cmdLine (timeMs : List Char) (cmd : List Char) : List Char := timeMs ++ ",CMD,".toList ++ cmd

/-- `generate_trace`: the text of the file it writes, or nothing if it skips the input or reports an exception. Its
    division is exact. -/
def generateTrace (input iperfLog ssLog : List Char) : Option (List Char) :=
  let lines := readlines input
  if 3 ≤ lines.length then
    match executionTime lines with
    | .ok (some n) =>
      -- `int(n / 1000 - 5)` cuts the fraction off
      let time := (n - 5000).tdiv 1000
      some (breakLast lines ++ [cmdLine "2000".toList (iperfCommand time iperfLog),
        cmdLine "1000".toList (monitorCommand (time + 1) ssLog)]).flatten
    | _ => none
  else none

/-- The name of a log as a command can hold it. -/
def LogName (s : List Char) : Prop := ',' ∉ s ∧ '\n' ∉ s ∧ '\x00' ∉ s

instance (s : List Char) : Decidable (LogName s) := inferInstanceAs (Decidable (_ ∧ _))

/-! Lines that end. -/

/-- A line with its newline. -/
def Ended (line : List Char) : Prop := ∃ body, '\n' ∉ body ∧ line = body ++ ['\n']

theorem fileLines_body_append {body : List Char} (h : '\n' ∉ body) (s : List Char) :
    fileLines (body ++ '\n' :: s) = (body ++ ['\n']) :: fileLines s := by
  induction body with
  | nil => rfl
  | cons c body ih =>
    rw [List.mem_cons, not_or] at h
    rw [List.cons_append, fileLines, if_neg (Ne.symm h.1), ih h.2]
    rfl

theorem fileLines_ended {lines : List (List Char)} (h : ∀ line ∈ lines, Ended line) :
    fileLines lines.flatten = lines := by
  induction lines with
  | nil => rfl
  | cons line lines ih =>
    obtain ⟨⟨body, hbody, rfl⟩, hlines⟩ := List.forall_mem_cons.mp h
    rw [List.flatten_cons, List.append_assoc, List.singleton_append, fileLines_body_append hbody, ih hlines]

theorem Ended.cons {c : Char} (hc : c ≠ '\n') {line : List Char} (h : Ended line) : Ended (c :: line) := by
  obtain ⟨body, hbody, rfl⟩ := h
  exact ⟨c :: body, by simp [Ne.symm hc, hbody], rfl⟩

theorem fileLines_cases (s : List Char) :
    (∀ line ∈ fileLines s, Ended line) ∨
      ∃ init last, fileLines s = init ++ [last] ∧ (∀ line ∈ init, Ended line) ∧ last ≠ [] ∧ '\n' ∉ last := by
  induction s with
  | nil => exact .inl fun _ h => by cases h
  | cons c s ih =>
    unfold fileLines
    split
    · next hc =>
      subst hc
      have hended : Ended ['\n'] := ⟨[], by simp, rfl⟩
      obtain hall | ⟨init, last, hs, hinit, hlast⟩ := ih
      · exact .inl (List.forall_mem_cons.mpr ⟨hended, hall⟩)
      · exact .inr ⟨['\n'] :: init, last, by rw [hs]; rfl, List.forall_mem_cons.mpr ⟨hended, hinit⟩, hlast⟩
    · next hc =>
      split
      · exact .inr ⟨[], [c], rfl, (fun _ h => by cases h), by simp, by simp [Ne.symm hc]⟩
      · next line lines hs =>
        rw [hs] at ih
        obtain hall | ⟨init, last, hlast, hinit, hne, hno⟩ := ih
        · obtain ⟨hline, hlines⟩ := List.forall_mem_cons.mp hall
          exact .inl (List.forall_mem_cons.mpr ⟨hline.cons hc, hlines⟩)
        · -- the character goes to the first line, which may be the last one
          rcases init with _ | ⟨line', init⟩
          · obtain ⟨rfl, rfl⟩ := List.cons.inj hlast
            exact .inr ⟨[], c :: line, rfl, hinit, by simp, by simp [Ne.symm hc, hno]⟩
          · obtain ⟨rfl, rfl⟩ := List.cons.inj hlast
            obtain ⟨hline, hlines⟩ := List.forall_mem_cons.mp hinit
            exact .inr ⟨(c :: line) :: init, last, rfl, List.forall_mem_cons.mpr ⟨hline.cons hc, hlines⟩, hne, hno⟩

theorem breakLast_lines (s : List Char) :
    (∀ line ∈ breakLast (fileLines s), Ended line) ∧
      (breakLast (fileLines s) = fileLines s ∨
        ∃ init last, fileLines s = init ++ [last] ∧ last ≠ [] ∧ '\n' ∉ last ∧
          breakLast (fileLines s) = init ++ [last ++ ['\n']]) := by
  obtain hall | ⟨init, last, hs, hinit, hne, hno⟩ := fileLines_cases s
  · have hsame : breakLast (fileLines s) = fileLines s := by
      unfold breakLast
      split
      · rfl
      · next last hlast =>
        obtain ⟨body, -, rfl⟩ := hall last (List.mem_of_getLast? hlast)
        exact if_pos (by simp)
    exact ⟨by rwa [hsame], .inl hsame⟩
  · have hbreak : breakLast (fileLines s) = init ++ [last ++ ['\n']] := by
      have hlast : ¬ last.getLast? = some '\n' := fun h => hno (List.mem_of_getLast? h)
      simp only [breakLast, hs, List.getLast?_concat, hlast, if_false, List.dropLast_concat]
    refine ⟨?_, .inr ⟨init, last, hs, hne, hno, hbreak⟩⟩
    rw [hbreak]
    intro line hline
    obtain hline | hline := List.mem_append.mp hline
    · exact hinit line hline
    · rw [List.mem_singleton.mp hline]
      exact ⟨last, hno, rfl⟩

/-! A number before a line break. -/

section Number
variable (s : List Char)

theorem digitValue_newline : digitValue '\n' = none := by decide

theorem digitsOf_newline (base : Nat) : digitsOf base (s ++ ['\n']) = digitsOf base s := by
  induction s with
  | nil => simp [digitsOf, digitValue_newline]
  | cons c s ih =>
    rw [List.cons_append, digitsOf, digitsOf, ih]

theorem strtoulAuto_decimal {s : List Char} (h : s.head? ≠ some '0') :
    strtoulAuto s = digitsValue 10 (digitsOf 10 s) := by
  unfold strtoulAuto
  split
  · exact absurd rfl h
  · exact absurd rfl h
  · rfl

theorem strtoulAuto_newline : strtoulAuto (s ++ ['\n']) = strtoulAuto s := by
  by_cases hzero : s.head? = some '0'
  · obtain ⟨s, rfl⟩ := List.head?_eq_some_iff.mp hzero
    rcases s with _ | ⟨x, _ | ⟨c, s⟩⟩
    · decide
    · -- an `x` with no digit after it
      have hno : ¬ ((x = 'x' ∨ x = 'X') ∧ digitsOf 16 ['\n'] ≠ []) := by
        rintro ⟨-, h⟩
        exact h (by decide)
      have h := digitsOf_newline ['0', x] 8
      simp only [List.cons_append, List.nil_append] at h
      simp only [List.cons_append, List.nil_append, strtoulAuto, if_neg hno, h]
    · have h := digitsOf_newline ('0' :: x :: c :: s) 8
      have h' := digitsOf_newline (c :: s) 16
      simp only [List.cons_append] at h h'
      simp only [List.cons_append, strtoulAuto, h, h']
  · have hzero' : (s ++ ['\n']).head? ≠ some '0' := by
      rcases s with _ | ⟨c, s⟩
      · decide
      · exact hzero
    rw [strtoulAuto_decimal hzero, strtoulAuto_decimal hzero', digitsOf_newline]

theorem strtol_unsigned {s t : List Char} (ht : s.dropWhile isSpace = t) (hminus : t.head? ≠ some '-')
    (hplus : t.head? ≠ some '+') : strtol s = min longMax (strtoulAuto t) := by
  unfold strtol
  rw [ht]
  split
  · exact absurd rfl hminus
  · exact absurd rfl hplus
  · rfl

/-- **`strtol` does not see a line break** after a number. -/
theorem strtol_newline : strtol (s ++ ['\n']) = strtol s := by
  have hspace : isSpace '\n' = true := by decide
  have hdrop : (s ++ ['\n']).dropWhile isSpace =
      if (s.dropWhile isSpace).isEmpty then [] else s.dropWhile isSpace ++ ['\n'] := by
    rw [List.dropWhile_append]
    simp [hspace]
  rcases hs : s.dropWhile isSpace with _ | ⟨c, cs⟩
  · rw [hs] at hdrop
    rw [strtol_unsigned hdrop (by simp) (by simp), strtol_unsigned hs (by simp) (by simp)]
    rfl
  · rw [hs] at hdrop
    by_cases hminus : c = '-'
    · subst hminus
      simp only [strtol, hdrop, hs, List.isEmpty_cons, Bool.false_eq_true, if_false, List.cons_append, strtoulAuto_newline]
    · by_cases hplus : c = '+'
      · subst hplus
        simp only [strtol, hdrop, hs, List.isEmpty_cons, Bool.false_eq_true, if_false, List.cons_append, strtoulAuto_newline]
      · rw [strtol_unsigned hdrop (by simpa using hminus) (by simpa using hplus),
          strtol_unsigned hs (by simpa using hminus) (by simpa using hplus)]
        simp only [List.isEmpty_cons, Bool.false_eq_true, if_false, strtoulAuto_newline]

end Number

/-! A line before a line break. -/

/-- An action and a request without the text of a command. -/
def bareAction : Action → Action
  | .command _ => .command []
  | a => a

def bare (r : Request) : Request := (r.1, bareAction r.2)

theorem lineExpansion_congr {fs fs' : List (List Char)}
    (h : ∀ i : Nat, strtol (fs[i]?.getD []) = strtol (fs'[i]?.getD [])) (type : EventType) (timeMs : Int) :
    (lineExpansion type timeMs fs).map bare = (lineExpansion type timeMs fs').map bare ∧
      (LineSums type timeMs fs ↔ LineSums type timeMs fs') := by
  have hnumber : number fs = number fs' := funext fun i => congrArg toInt (h i)
  have hlong : longNumber fs = longNumber fs' := funext h
  have hho : hoFields fs = hoFields fs' := by simp only [hoFields, hnumber]
  have hsol : solHoFields fs = solHoFields fs' := by simp only [solHoFields, hnumber]
  have hargs : initTcpSchedArgs fs = initTcpSchedArgs fs' := by
    simp only [initTcpSchedArgs, linkParameter, hnumber, hlong]
  cases type with
  | cmd => exact ⟨rfl, Iff.rfl⟩
  | _ => simp only [lineExpansion, LineSums, hnumber, hho, hsol, hargs, and_self]

theorem getEventType_newline (s : List Char) : getEventType (s ++ ['\n']) = .unknown := by
  have hne : ∀ name : List Char, '\n' ∉ name → s ++ ['\n'] ≠ name := by
    rintro _ hname rfl
    exact hname (by simp)
  unfold getEventType
  simp only [hne _ (by decide : '\n' ∉ "INIT".toList), hne _ (by decide : '\n' ∉ "CMD".toList),
    hne _ (by decide : '\n' ∉ "HO".toList), hne _ (by decide : '\n' ∉ "SOL_HANDLEDUP".toList),
    hne _ (by decide : '\n' ∉ "SOL_INIT_SCHED".toList), hne _ (by decide : '\n' ∉ "SOL_HO".toList), if_false]

/-- What it takes to be a complete line of `n` parameters. -/
structure Complete (text time event : List Char) (args : List (List Char)) (n : Nat) : Prop where
  fields : csvFields text = time :: event :: args
  known : (getEventType event).params = some n
  time : time ≠ []
  enough : n ≤ args.length
  filled : ∀ field ∈ args.take n, Filled field

theorem completeLine?_eq_some {text : List Char} {l : TraceLine} :
    completeLine? text = some l ↔ ∃ time event args n, Complete text time event args n ∧
      l = ⟨getEventType event, toInt (strtol time), args.take n⟩ := by
  constructor
  · intro h
    unfold completeLine? at h
    split at h
    · next time event args hfields =>
      split at h
      · cases h
      · next n hparams =>
        split at h
        · next hfilled =>
          cases h
          exact ⟨time, event, args, n, ⟨hfields, hparams, hfilled.1, hfilled.2.1, hfilled.2.2⟩, rfl⟩
        · cases h
    · cases h
  · rintro ⟨time, event, args, n, h, rfl⟩
    simp only [completeLine?, h.fields, h.known]
    exact if_pos ⟨h.time, h.enough, h.filled⟩

theorem Complete.tokens {text time event : List Char} {args : List (List Char)} {n : Nat}
    (h : Complete text time event args n) : tokens text = time :: event :: args.filter (· ≠ []) := by
  have hevent : event ≠ [] := by
    rintro rfl
    cases h.known
  simp [Handoff.tokens, h.fields, h.time, hevent]

theorem unknown_incomplete {text event : List Char} (h : event ∈ (tokens text)[1]?)
    (htype : (getEventType event).params = none) : completeLine? text = none := by
  by_contra hne
  obtain ⟨l, hl⟩ := Option.ne_none_iff_exists'.mp hne
  obtain ⟨time, event', args, n, hcomplete, -⟩ := completeLine?_eq_some.mp hl
  rw [hcomplete.tokens] at h
  cases h
  cases htype.symm.trans hcomplete.known

section Break
variable (init : List (List Char)) (last : List Char)

theorem strtol_field_newline (n i : Nat) :
    strtol (((init ++ [last ++ ['\n']]).take n)[i]?.getD []) = strtol (((init ++ [last]).take n)[i]?.getD []) := by
  rw [List.getElem?_take, List.getElem?_take]
  split
  · obtain hi | rfl | hi := Nat.lt_trichotomy i init.length
    · rw [List.getElem?_append_left hi, List.getElem?_append_left hi]
    · rw [List.getElem?_concat_length, List.getElem?_concat_length]
      exact strtol_newline last
    · rw [List.getElem?_eq_none (by simp; omega), List.getElem?_eq_none (by simp; omega)]
  · rfl

theorem filled_newline {n : Nat} (h : ∀ field ∈ (init ++ [last]).take n, Filled field) :
    ∀ field ∈ (init ++ [last ++ ['\n']]).take n, Filled field := by
  intro field hfield
  by_cases hlen : n ≤ init.length
  · rw [List.take_append_of_le_length hlen] at hfield h
    exact h field hfield
  · -- the last field is a parameter
    have htake : ∀ last : List Char, (init ++ [last]).take n = init ++ [last] := by
      intro last
      rw [List.take_of_length_le]
      simp only [List.length_append, List.length_singleton]
      omega
    rw [htake] at hfield h
    obtain hfield | hfield := List.mem_append.mp hfield
    · exact h field (List.mem_append_left _ hfield)
    · rw [List.mem_singleton.mp hfield]
      refine ⟨by simp, fun heq => (h last (by simp)).1 ?_⟩
      simpa using heq

end Break

theorem completeLine?_newline {text : List Char} {l : TraceLine} (h : completeLine? text = some l) :
    ∃ l', completeLine? (text ++ ['\n']) = some l' ∧ (l'.Sums ↔ l.Sums) ∧
      l'.requests.map bare = l.requests.map bare := by
  obtain ⟨time, event, args, n, hcomplete, rfl⟩ := completeLine?_eq_some.mp h
  have hpos := params_pos hcomplete.known
  obtain ⟨init, last, rfl⟩ : ∃ init last, args = init ++ [last] := by
    obtain rfl | ⟨init, last, h⟩ := List.eq_nil_or_concat args
    · exact absurd hcomplete.enough (by simpa using Nat.pos_iff_ne_zero.mp hpos)
    · exact ⟨init, last, by rw [h, List.concat_eq_append]⟩
  have hfields : csvFields text = (time :: event :: init) ++ [last] := hcomplete.fields
  have hcomplete' : Complete (text ++ ['\n']) time event (init ++ [last ++ ['\n']]) n :=
    { fields := csvFields_snoc (by decide) hfields
      known := hcomplete.known
      time := hcomplete.time
      enough := by simpa using hcomplete.enough
      filled := filled_newline init last hcomplete.filled }
  obtain ⟨hrequests, hsums⟩ := lineExpansion_congr (strtol_field_newline init last n) (getEventType event)
    (toInt (strtol time))
  exact ⟨_, completeLine?_eq_some.mpr ⟨time, event, _, n, hcomplete', rfl⟩, hsums, hrequests⟩

/-- **A sound line** stays sound with a line break after it, and asks for the same. -/
theorem sound_newline {text : List Char} (h : Sound text) :
    Sound (text ++ ['\n']) ∧ (lineRequests (text ++ ['\n'])).map bare = (lineRequests text).map bare := by
  obtain ⟨init, last, hfields⟩ : ∃ init last, csvFields text = init ++ [last] := by
    obtain hnil | ⟨init, last, h⟩ := List.eq_nil_or_concat (csvFields text)
    · exact absurd hnil (List.splitOn_ne_nil ',' text)
    · exact ⟨init, last, by rw [h, List.concat_eq_append]⟩
  have hfields' : csvFields (text ++ ['\n']) = init ++ [last ++ ['\n']] := csvFields_snoc (by decide) hfields
  obtain ⟨event, hevent, htype⟩ := h
  rcases hl : completeLine? text with _ | l
  · -- the parser does not know the type, nor does it with a line break
    have hnone : (getEventType event).params = none := by
      obtain hnone | ⟨l, hsome, -⟩ := htype
      · exact hnone
      · cases hl.symm.trans hsome
    have hevent' : ∃ event' ∈ (tokens (text ++ ['\n']))[1]?, (getEventType event').params = none := by
      have htokens : tokens text = init.filter (· ≠ []) ++ [last].filter (· ≠ []) := by
        rw [tokens, hfields, List.filter_append]
      have htokens' : tokens (text ++ ['\n']) = init.filter (· ≠ []) ++ [last ++ ['\n']] := by
        rw [tokens, hfields', List.filter_append]
        simp
      rw [htokens] at hevent
      rw [htokens']
      by_cases hlen : 1 < (init.filter (· ≠ [])).length
      · rw [List.getElem?_append_left hlen] at hevent ⊢
        exact ⟨event, hevent, hnone⟩
      · have hlen' := (List.getElem?_eq_some_iff.mp hevent).1
        have hone : (init.filter (· ≠ [])).length = 1 := by
          have := List.length_filter_le (· ≠ []) [last]
          simp only [List.length_append, List.length_singleton] at hlen' this
          omega
        refine ⟨last ++ ['\n'], ?_, by rw [getEventType_newline]; rfl⟩
        rw [List.getElem?_append_right (by omega), hone]
        rfl
    obtain ⟨event', hevent', hnone'⟩ := hevent'
    refine ⟨⟨event', hevent', .inl hnone'⟩, ?_⟩
    simp only [lineRequests, hl, unknown_incomplete hevent' hnone', Option.elim_none]
  · obtain ⟨l', hl', hsums, hrequests⟩ := completeLine?_newline hl
    have hl's : l'.Sums := by
      obtain hnone | ⟨l₁, hsome, hs⟩ := htype
      · cases hl.symm.trans (unknown_incomplete hevent hnone)
      · cases hl.symm.trans hsome
        exact hsums.mpr hs
    obtain ⟨time, event', args, n, hcomplete, -⟩ := completeLine?_eq_some.mp hl'
    refine ⟨⟨event', ?_, .inr ⟨l', hl', hl's⟩⟩, ?_⟩
    · rw [hcomplete.tokens]
      rfl
    · simpa only [lineRequests, hl, hl', Option.elim_some] using hrequests

/-! Lines that hold a command. -/

theorem not_mem_pyStr {c : Char} (hd : ¬ c.isDigit) (hc : c ≠ '-') (n : Int) : c ∉ pyStr n := by
  unfold pyStr
  split
  · rw [List.mem_cons, not_or]
    exact ⟨hc, not_mem_decimal _ hd⟩
  · exact not_mem_decimal _ hd

/-- The text of a command between its commas and its line break. -/
structure CommandText (cmd : List Char) : Prop where
  body : ∃ body, body ≠ [] ∧ cmd = body ++ ['\n'] ∧ '\n' ∉ body ∧ ',' ∉ body ∧ '\x00' ∉ body

/-- A character a command must not hold. -/
def Forbidden (c : Char) : Prop := c = '\n' ∨ c = ',' ∨ c = '\x00'

theorem LogName.allowed {s : List Char} (h : LogName s) {c : Char} (hc : Forbidden c) : c ∉ s := by
  obtain ⟨hcomma, hn, hz⟩ := h
  rcases hc with rfl | rfl | rfl
  · exact hn
  · exact hcomma
  · exact hz

theorem pyStr_allowed {c : Char} (hc : Forbidden c) (n : Int) : c ∉ pyStr n := by
  rcases hc with rfl | rfl | rfl <;> exact not_mem_pyStr (by decide) (by decide) n

theorem commandText_of {a : List Char} (h : ∀ c, Forbidden c → c ∉ a) : CommandText (a ++ " &\n".toList) := by
  have hbody : ∀ c, Forbidden c → c ∉ a ++ " &".toList := by
    intro c hc hmem
    obtain hmem | hmem := List.mem_append.mp hmem
    · exact h c hc hmem
    · rcases hc with rfl | rfl | rfl <;> exact absurd hmem (by decide)
  refine ⟨a ++ " &".toList, ?_, ?_, hbody _ (.inl rfl), hbody _ (.inr (.inl rfl)), hbody _ (.inr (.inr rfl))⟩
  · exact List.append_ne_nil_of_right_ne_nil _ (by decide)
  · rw [List.append_assoc]
    exact congrArg (a ++ ·) (by decide)

theorem iperfCommand_text (time : Int) {logname : List Char} (h : LogName logname) :
    CommandText (iperfCommand time logname) := by
  refine commandText_of fun c hc hmem => ?_
  have hname := h.allowed hc
  have htime := pyStr_allowed hc time
  simp only [List.mem_append, hname, htime, or_false] at hmem
  obtain hmem | hmem := hmem
  · rcases hc with rfl | rfl | rfl <;> exact absurd hmem (by decide)
  · rcases hc with rfl | rfl | rfl <;> exact absurd hmem (by decide)

theorem monitorCommand_text (time : Int) {logname : List Char} (h : LogName logname) :
    CommandText (monitorCommand time logname) := by
  refine commandText_of fun c hc hmem => ?_
  have hname := h.allowed hc
  have htime := pyStr_allowed hc time
  simp only [List.mem_append, hname, htime, or_false] at hmem
  obtain hmem | hmem := hmem
  · rcases hc with rfl | rfl | rfl <;> exact absurd hmem (by decide)
  · rcases hc with rfl | rfl | rfl <;> exact absurd hmem (by decide)

section Command
variable {ms cmd : List Char}

theorem cmdLine_complete (hms : IsDigits ms) (hcmd : CommandText cmd) :
    completeLine? (cmdLine ms cmd) = some ⟨.cmd, toInt (strtol ms), [cmd]⟩ := by
  obtain ⟨body, hne, rfl, hn, hc, -⟩ := hcmd.body
  refine completeLine?_eq_some.mpr ⟨ms, "CMD".toList, [body ++ ['\n']], 1, ?_, rfl⟩
  have hcomma : ',' ∉ ms := fun h => by
    have := hms.2 _ h
    cases this
  refine ⟨?_, by decide, hms.1, by simp, ?_⟩
  · have hsplit : cmdLine ms (body ++ ['\n']) = ms ++ ',' :: ("CMD".toList ++ ',' :: (body ++ ['\n'])) := by
      simp [cmdLine]
    rw [hsplit, csvFields, List.splitOn_append_cons_self_of_not_mem hcomma,
      List.splitOn_append_cons_self_of_not_mem (by decide), List.splitOn_eq_singleton (by simp [hc])]
  · intro field hfield
    rw [List.mem_singleton.mp (List.mem_of_mem_take hfield)]
    refine ⟨by simp, fun h => hne ?_⟩
    simpa using h

theorem cmdLine_requests (hms : IsDigits ms) (hcmd : CommandText cmd) :
    lineRequests (cmdLine ms cmd) = [(toInt (strtol ms), .command cmd)] := by
  rw [lineRequests, cmdLine_complete hms hcmd]
  rfl

theorem cmdLine_sound (hms : IsDigits ms) (hcmd : CommandText cmd) : Sound (cmdLine ms cmd) := by
  have hl := cmdLine_complete hms hcmd
  obtain ⟨time, event, args, n, hcomplete, -⟩ := completeLine?_eq_some.mp hl
  refine ⟨event, ?_, .inr ⟨_, hl, trivial⟩⟩
  rw [hcomplete.tokens]
  rfl

theorem cmdLine_ended (hms : IsDigits ms) (hcmd : CommandText cmd) : Ended (cmdLine ms cmd) := by
  obtain ⟨body, -, rfl, hn, -, -⟩ := hcmd.body
  have hms' : '\n' ∉ ms := fun h => by
    have := hms.2 _ h
    cases this
  exact ⟨ms ++ ",CMD,".toList ++ body, by simp [hms', hn], by simp [cmdLine]⟩

theorem cmdLine_terminator (hms : IsDigits ms) (hcmd : CommandText cmd) : '\x00' ∉ cmdLine ms cmd := by
  obtain ⟨body, -, rfl, -, -, hz⟩ := hcmd.body
  have hms' : '\x00' ∉ ms := fun h => by
    have := hms.2 _ h
    cases this
  simp [cmdLine, hms', hz]

end Command

/-! Schedules without the texts of commands. -/

section Bare
variable {rs rs' : List Request}

def bareCall (c : UInt64 × Action) : UInt64 × Action := (c.1, bareAction c.2)

theorem isCommand_bare (a : Action) : (bareAction a).isCommand = a.isCommand := by cases a <;> rfl

theorem bareAction_eq {a : Action} (h : a.isCommand = false) : bareAction a = a := by
  cases a with
  | command c => cases h
  | _ => rfl

theorem schedulerCalls_bare (rs : List Request) : schedulerCalls (rs.map bare) = (schedulerCalls rs).map bareCall := by
  simp only [schedulerCalls, List.map_map]
  rfl

theorem schedule_bare (rs : List Request) : schedule (rs.map bare) = (schedule rs).map bareCall := by
  have h := (schedule_sorted rs).map (fun c : UInt64 × Action => c.1.toNat) bareCall fun _ => rfl
  rw [← schedulerCalls_bare] at h
  exact (schedule_sorted _).unique h

theorem requestsAt_bare (h : rs.map bare = rs'.map bare) (t : UInt64) : requestsAt t rs = requestsAt t rs' := by
  have hbare : ∀ rs : List Request, requestsAt t (rs.map bare) = requestsAt t rs := by
    intro rs
    rw [requestsAt, schedulerCalls_bare, requestsAt]
    induction schedulerCalls rs with
    | nil => rfl
    | cons c cs ih =>
      rw [List.map_cons, List.filter_cons, List.filter_cons, ih]
      have hsame : (bareCall c).1 = c.1 := rfl
      have hcommand : (bareCall c).2.isCommand = c.2.isCommand := isCommand_bare c.2
      rw [hsame, hcommand]
      split
      · next hc =>
        simp only [Bool.not_eq_true', decide_eq_true_eq] at hc
        rw [bareCall, bareAction_eq hc.2]
      · rfl
  rw [← hbare rs, h, hbare]

theorem last_bare (h : rs.map bare = rs'.map bare) {c : UInt64 × Action} (hlast : (schedule rs).getLast? = some c)
    (hc : c.2.isCommand = false) : (schedule rs').getLast? = some c := by
  have hmap : ((schedule rs').map bareCall).getLast? = some (bareCall c) := by
    rw [← schedule_bare, ← h, schedule_bare, List.getLast?_map, hlast]
    rfl
  rw [List.getLast?_map, Option.map_eq_some_iff] at hmap
  obtain ⟨c', hc', hsame⟩ := hmap
  have hcommand : c'.2.isCommand = false := by
    have := congrArg (fun c : UInt64 × Action => c.2.isCommand) hsame
    simpa only [bareCall, isCommand_bare, hc] using this
  simp only [bareCall, bareAction_eq hc, bareAction_eq hcommand] at hsame
  rw [hc']
  exact congrArg some hsame

/-- What is requested for earlier times does not change the last action. -/
theorem last_append {cs : List Request} {c : UInt64 × Action} (hlast : (schedule rs).getLast? = some c)
    (hcs : ∀ r ∈ cs, (UInt64.ofInt r.1).toNat < c.1.toNat) : (schedule (rs ++ cs)).getLast? = some c := by
  have hle := (schedule_sorted rs).le_getLast hlast
  have hmem : c ∈ schedulerCalls rs := (schedule_sorted rs).perm.mem_iff.mp (List.mem_of_getLast? hlast)
  have hcalls : schedulerCalls (rs ++ cs) = schedulerCalls rs ++ schedulerCalls cs := List.map_append
  have hlt : ∀ d ∈ schedulerCalls cs, d.1.toNat < c.1.toNat := by
    intro d hd
    obtain ⟨r, hr, rfl⟩ := List.mem_map.mp hd
    exact hcs r hr
  have hnone : (schedulerCalls cs).filter (fun d => d.1.toNat = c.1.toNat) = [] :=
    List.filter_eq_nil_iff.mpr fun d hd => by simpa using Nat.ne_of_lt (hlt d hd)
  rw [(schedule_sorted (rs ++ cs)).getLast?_eq (k := c.1.toNat) ?_ ⟨c, hcalls ▸ List.mem_append_left _ hmem, rfl⟩, hcalls,
    List.filter_append, hnone, List.append_nil,
    ← (schedule_sorted rs).getLast?_eq hle ⟨c, hmem, rfl⟩, hlast]
  intro d hd
  obtain hd | hd := List.mem_append.mp (hcalls ▸ hd)
  · exact hle d hd
  · exact Nat.le_of_lt (hlt d hd)

end Bare

/-! What is generated. -/

/-- The trace ends, more than two seconds after its start, with an action that is no command. -/
def EndsLate (rs : List Request) : Prop := ∃ c ∈ (schedule rs).getLast?, 2000 < c.1.toNat ∧ c.2.isCommand = false

theorem EndsLate.lastActs {rs : List Request} (h : EndsLate rs) : LastActs rs := by
  obtain ⟨c, hc, -, hcommand⟩ := h
  intro d hd
  cases Option.mem_unique hc hd
  exact hcommand

/-- A script may add commands in the first two seconds, and change the texts of commands. -/
theorem sameRun_commands {rs rs₁ cs : List Request} (hbare : rs.map bare = rs₁.map bare)
    (hcs : ∀ r ∈ cs, r.2.isCommand = true ∧ (UInt64.ofInt r.1).toNat ≤ 2000) (hlast : EndsLate rs) :
    SameRun rs (rs₁ ++ cs) := by
  obtain ⟨c, hc, hlate, hcommand⟩ := hlast
  refine ⟨?_, EndsLate.lastActs ⟨c, hc, hlate, hcommand⟩, ?_⟩
  · intro t
    have hnone : requestsAt t cs = [] := by
      refine List.filter_eq_nil_iff.mpr fun d hd => ?_
      obtain ⟨r, hr, rfl⟩ := List.mem_map.mp hd
      simp [(hcs r hr).1]
    have happend : requestsAt t (rs₁ ++ cs) = requestsAt t rs₁ ++ requestsAt t cs := by
      rw [requestsAt, schedulerCalls, List.map_append, List.filter_append]
      rfl
    rw [requestsAt_bare hbare, happend, hnone, List.append_nil]
  · have hbefore : ∀ r ∈ cs, (UInt64.ofInt r.1).toNat < c.1.toNat :=
      fun r hr => Nat.lt_of_le_of_lt (hcs r hr).2 hlate
    have hlast' := last_append (last_bare hbare hc hcommand) hbefore
    intro d hd
    cases Option.mem_unique hlast' hd
    exact hcommand

theorem breakLast_requests {file : List Char} (h : ∀ text ∈ fileLines file, Sound text) :
    (∀ text ∈ breakLast (fileLines file), Sound text) ∧
      ((breakLast (fileLines file)).map lineRequests).flatten.map bare = (fileRequests file).map bare := by
  rw [fileRequests_eq]
  obtain ⟨-, hsame | ⟨init, last, hfile, -, -, hbreak⟩⟩ := breakLast_lines file
  · rw [hsame]
    exact ⟨h, rfl⟩
  · rw [hfile] at h
    have hlast := sound_newline (h last (by simp))
    rw [hbreak, hfile]
    refine ⟨?_, ?_⟩
    · intro text htext
      obtain htext | htext := List.mem_append.mp htext
      · exact h text (List.mem_append_left _ htext)
      · rw [List.mem_singleton.mp htext]
        exact hlast.1
    · simp [List.flatten_append, hlast.2]

theorem breakLast_terminator {file : List Char} (h : ∀ text ∈ fileLines file, '\x00' ∉ text) :
    ∀ text ∈ breakLast (fileLines file), '\x00' ∉ text := by
  obtain ⟨-, hsame | ⟨init, last, hfile, -, -, hbreak⟩⟩ := breakLast_lines file
  · rwa [hsame]
  · rw [hfile] at h
    rw [hbreak]
    intro text htext
    obtain htext | htext := List.mem_append.mp htext
    · exact h text (List.mem_append_left _ htext)
    · rw [List.mem_singleton.mp htext]
      simpa using h last (by simp)

section Generated
variable {input iperfLog ssLog out : List Char}

theorem generateTrace_lines (h : generateTrace input iperfLog ssLog = some out) (hreturn : '\r' ∉ input)
    (hiperf : LogName iperfLog) (hss : LogName ssLog) :
    ∃ n : Int, executionTime (fileLines input) = .ok (some n) ∧
      fileLines out = breakLast (fileLines input) ++
        [cmdLine "2000".toList (iperfCommand ((n - 5000).tdiv 1000) iperfLog),
          cmdLine "1000".toList (monitorCommand ((n - 5000).tdiv 1000 + 1) ssLog)] := by
  have hread : readlines input = fileLines input := by
    have := universalNewlines_append hreturn []
    rw [List.append_nil] at this
    rw [readlines, this]
    simp [universalNewlines]
  unfold generateTrace at h
  rw [hread] at h
  dsimp only at h
  split at h
  · split at h
    · next n hn =>
      cases h
      refine ⟨n, hn, fileLines_ended ?_⟩
      intro line hline
      obtain hline | hline := List.mem_append.mp hline
      · exact (breakLast_lines input).1 line hline
      · simp only [List.mem_cons, List.not_mem_nil, or_false] at hline
        obtain rfl | rfl := hline
        · exact cmdLine_ended (by decide) (iperfCommand_text _ hiperf)
        · exact cmdLine_ended (by decide) (monitorCommand_text _ hss)
    · cases h
  · cases h

/-- **A generated trace is clean** if its lines fit the buffer, and asks for what its input asks for, and for the
    two commands. -/
theorem generateTrace_requests (h : generateTrace input iperfLog ssLog = some out) (hclean : CleanFile input)
    (hreturn : '\r' ∉ input) (hiperf : LogName iperfLog) (hss : LogName ssLog)
    (hroom : (fileRequests input).length + 2 ≤ schedulerMaxEvent)
    (hfits : ∀ text ∈ fileLines out, text.length < csvMaxLinesz) :
    CleanFile out ∧ ∃ n rs, executionTime (fileLines input) = .ok (some n) ∧
      rs.map bare = (fileRequests input).map bare ∧
      fileRequests out = rs ++ [(2000, .command (iperfCommand ((n - 5000).tdiv 1000) iperfLog)),
        (1000, .command (monitorCommand ((n - 5000).tdiv 1000 + 1) ssLog))] := by
  obtain ⟨n, hn, hlines⟩ := generateTrace_lines h hreturn hiperf hss
  obtain ⟨hsound, hrequests⟩ := breakLast_requests hclean.sound
  have hterminator := breakLast_terminator fun text htext => (hclean.fits text htext).2
  have h₁ := iperfCommand_text ((n - 5000).tdiv 1000) hiperf
  have h₂ := monitorCommand_text ((n - 5000).tdiv 1000 + 1) hss
  have h2000 : IsDigits "2000".toList := by decide
  have h1000 : IsDigits "1000".toList := by decide
  have hout : fileRequests out = ((breakLast (fileLines input)).map lineRequests).flatten ++
      [(2000, .command (iperfCommand ((n - 5000).tdiv 1000) iperfLog)),
        (1000, .command (monitorCommand ((n - 5000).tdiv 1000 + 1) ssLog))] := by
    have ht : toInt (strtol "2000".toList) = 2000 ∧ toInt (strtol "1000".toList) = 1000 := by decide
    rw [fileRequests_eq, hlines, List.map_append, List.flatten_append]
    simp only [List.map_cons, List.map_nil, cmdLine_requests h2000 h₁, cmdLine_requests h1000 h₂, ht]
    rfl
  refine ⟨⟨?_, ?_, ?_⟩, n, _, hn, hrequests, hout⟩
  · intro text htext
    refine ⟨hfits text htext, ?_⟩
    rw [hlines] at htext
    obtain htext | htext := List.mem_append.mp htext
    · exact hterminator text htext
    · simp only [List.mem_cons, List.not_mem_nil, or_false] at htext
      obtain rfl | rfl := htext
      · exact cmdLine_terminator h2000 h₁
      · exact cmdLine_terminator h1000 h₂
  · intro text htext
    rw [hlines] at htext
    obtain htext | htext := List.mem_append.mp htext
    · exact hsound text htext
    · simp only [List.mem_cons, List.not_mem_nil, or_false] at htext
      obtain rfl | rfl := htext
      · exact cmdLine_sound h2000 h₁
      · exact cmdLine_sound h1000 h₂
  · have hlen := congrArg List.length hrequests
    rw [List.length_map, List.length_map] at hlen
    rw [hout, List.length_append, hlen]
    exact hroom

/-- **A generated trace is emulated as its input is**: it asks for what its input asks for, and for the two commands
    that start the measurement, and each of the two emulations gets to whatever the other one has done at some point,
    under any two clocks that never go back and grow without bound. -/
theorem generated_trace_runs (env : Env) (h : generateTrace input iperfLog ssLog = some out) (hclean : CleanFile input)
    (hreturn : '\r' ∉ input) (hiperf : LogName iperfLog) (hss : LogName ssLog)
    (hroom : (fileRequests input).length + 2 ≤ schedulerMaxEvent)
    (hfits : ∀ text ∈ fileLines out, text.length < csvMaxLinesz) (hlast : EndsLate (fileRequests input))
    {clock clock' : Nat → Nat} (hmono : Monotone clock) (hunb : ∀ b, ∃ n, b ≤ clock n) (hmono' : Monotone clock')
    (hunb' : ∀ b, ∃ n, b ≤ clock' n) (w : TcpCtx × ActionCtx × Nat) (n : Nat) :
    (∃ s, emulate env input clock w n = .ok s ∧
        ∃ m t, emulate env out clock' w m = .ok t ∧ Agrees Action.isCommand s t) ∧
      ∃ t, emulate env out clock' w n = .ok t ∧
        ∃ m s, emulate env input clock w m = .ok s ∧ Agrees Action.isCommand t s := by
  obtain ⟨hclean', k, rs, -, hrs, hout⟩ := generateTrace_requests h hclean hreturn hiperf hss hroom hfits
  have hsame : SameRun (fileRequests input) (fileRequests out) := by
    rw [hout]
    refine sameRun_commands hrs.symm ?_ hlast
    intro r hr
    simp only [List.mem_cons, List.not_mem_nil, or_false] at hr
    have htimes : (UInt64.ofInt 2000).toNat ≤ 2000 ∧ (UInt64.ofInt 1000).toNat ≤ 2000 := by decide
    obtain rfl | rfl := hr
    · exact ⟨rfl, htimes.1⟩
    · exact ⟨rfl, htimes.2⟩
  exact ⟨trace_runs_agree env hclean hclean' hsame clock hmono' hunb' w n,
    trace_runs_agree env hclean' hclean ⟨fun t => (hsame.at_times t).symm, hsame.last', hsame.last⟩ clock' hmono hunb w n⟩

end Generated

/-- A short trace without a line break at its end, and what is generated from it. -/
def measuredInput : List Char := "0,INIT,0,1,9000\n2,CMD,date\n50,SOL_HANDLEDUP,0,1".toList

def measuredTrace : List Char :=
  ("0,INIT,0,1,9000\n2,CMD,date\n50,SOL_HANDLEDUP,0,1\n" ++
    "2000,CMD,iperf3 -c 10.0.0.2 -p 5257 -t 4 -i 0.1 -J --logfile a.json &\n" ++
    "1000,CMD,/data/ztliu/emulator-test/scripts/run/monitor.sh b.log 5 &\n").toList

theorem measuredInput_late : EndsLate (fileRequests measuredInput) := by
  have hrequests : fileRequests measuredInput =
      [(0, .initNfqueue 0), (9000, .teardownNfqueue 0), (0, .startNfqueue 0), (0, .setMark 0 1),
        (2, .command "date\n".toList), (50, .setDedup 0 1)] := by
    decide +kernel
  have hlast : (schedule (fileRequests measuredInput)).getLast? = some (9000, .teardownNfqueue 0) := by
    rw [hrequests, schedule_eq [⟨0, .initNfqueue 0, 0⟩, ⟨0, .startNfqueue 0, 2⟩, ⟨0, .setMark 0 1, 3⟩,
      ⟨2, .command "date\n".toList, 4⟩, ⟨50, .setDedup 0 1, 5⟩, ⟨9000, .teardownNfqueue 0, 1⟩] (by decide) (by decide)]
    rfl
  exact ⟨_, hlast, by decide, rfl⟩

theorem generated_trace_runs_measured :
    (∃ s, emulate calmEnv measuredInput id (zeroTcp, actionInitCtx, 0) 12 = .ok s ∧
        ∃ m t, emulate calmEnv measuredTrace (2 * ·) (zeroTcp, actionInitCtx, 0) m = .ok t ∧
          Agrees Action.isCommand s t) ∧
      ∃ t, emulate calmEnv measuredTrace (2 * ·) (zeroTcp, actionInitCtx, 0) 12 = .ok t ∧
        ∃ m s, emulate calmEnv measuredInput id (zeroTcp, actionInitCtx, 0) m = .ok s ∧
          Agrees Action.isCommand t s := by
  have hclean : CleanFile measuredInput := by refine ⟨?_, ?_, ?_⟩ <;> decide +kernel
  have hout : generateTrace measuredInput "a.json".toList "b.log".toList = some measuredTrace := by decide +kernel
  exact generated_trace_runs calmEnv hout hclean (by decide) (by decide) (by decide) (by decide +kernel)
    (by decide +kernel) measuredInput_late monotone_id (fun b => ⟨b, Nat.le_refl b⟩)
    (fun a b h => Nat.mul_le_mul_left 2 h) (fun b => ⟨b, by omega⟩) (zeroTcp, actionInitCtx, 0) 12

end Handoff
