import Handoff.Lib.Rounding
import Handoff.Lib.Scan
import Handoff.Packet
import Handoff.PyText
import Mathlib.Data.List.ReduceOption

/- The packet log: what `packet_logging` and the dedup stage write through `log_fatal` (log.c), and what
   `process_server_log` of parse-logs.py reads of it.

   The reader scans the whole text for `packet,` and four numbers. A line puts date, level, file and line number before
   its message. None of these holds the word, if the file name does not, and each is followed by a character that is
   not in the word; so a match starts where a message does (`findAll_event`), and ends with it, since the newline is
   no digit (`findAll_packet`). The reader turns the time into a double, which rounds times above 2^53
   (`server_log_read`); its division and its subtraction are read as exact. -/
namespace Handoff

open Rounding Scan

/-! The writer. -/

/-- `%u`, `%lu`, `%llu` of a value, and `%d` of one that is not negative. -/
def decimal (n : Nat) : List Char := Nat.toDigits 10 n

/-- `%02d`. -/
def twoDigits (n : Nat) : List Char := List.replicate (2 - (decimal n).length) '0' ++ decimal n

/-- `%-5s`. -/
def padRight (s : List Char) : List Char := s ++ List.replicate (5 - s.length) ' '

/-- A time of the calendar, months counted from 1. -/
structure Tm where
  year : Nat
  mon : Nat
  mday : Nat
  hour : Nat
  min : Nat
  sec : Nat
  deriving DecidableEq, Repr

inductive LogLevel
  | trace | debug | info | warn | error | fatal
  deriving DecidableEq, Repr

/-- `level_strings`. -/
def LogLevel.string : LogLevel → List Char
  | .trace => "TRACE".toList
  | .debug => "DEBUG".toList
  | .info => "INFO".toList
  | .warn => "WARN".toList
  | .error => "ERROR".toList
  | .fatal => "FATAL".toList

/-- `log_Event`, its message apart. -/
structure LogEvent where
  file : List Char
  time : Tm
  line : Nat
  level : LogLevel
  deriving DecidableEq, Repr

/-- `strftime` with `%Y-%m-%d %H:%M:%S`. -/
def strftime (tm : Tm) : List Char :=
  decimal tm.year ++ '-' :: twoDigits tm.mon ++ '-' :: twoDigits tm.mday ++
    ' ' :: twoDigits tm.hour ++ ':' :: twoDigits tm.min ++ ':' :: twoDigits tm.sec

/-- `file_callback`. -/
def fileCallback (ev : LogEvent) (message : List Char) : List Char :=
  strftime ev.time ++ ' ' :: (padRight ev.level.string ++ ' ' :: (ev.file ++ ':' :: (decimal ev.line ++ ':' ::
    ' ' :: (message ++ ['\n']))))

/-- The messages that reach the log file: a packet with its time in milliseconds, or the number of an
    acknowledgement the dedup stage dropped. -/
inductive LogMessage
  | packet (ts : UInt64) (packet : PacketLog)
  | dupAck (ack : UInt32)
  deriving DecidableEq, Repr

def packetWord : List Char := "packet,".toList

def LogMessage.text : LogMessage → List Char
  | .packet ts p =>
    packetWord ++ (decimal ts.toNat ++ ',' :: (decimal p.source.toNat ++ ',' :: (decimal p.seq.toNat ++ ',' ::
      decimal p.ack.toNat)))
  | .dupAck ack => decimal ack.toNat

structure LogEntry where
  event : LogEvent
  message : LogMessage
  deriving DecidableEq, Repr

/-- The log file. -/
def logText (entries : List LogEntry) : List Char := (entries.map fun e => fileCallback e.event e.message.text).flatten

/-- The packets it holds. -/
def loggedPackets (entries : List LogEntry) : List (UInt64 × PacketLog) :=
  entries.filterMap fun e => match e.message with
    | .packet ts p => some (ts, p)
    | .dupAck _ => none

/-! The reader. -/

/-- `packet,(\d+),(\d+),(\d+),(\d+)`. -/
def packetPattern : List (Piece Char) :=
  word packetWord ++
    [.run isDecimal, .lit ',', .run isDecimal, .lit ',', .run isDecimal, .lit ',', .run isDecimal]

structure ParsedPacket where
  epoch : ℚ
  seq : Int
  srcport : Int
  ack : Int
  deriving DecidableEq, Repr

/-- A row of the data frame. -/
structure ServerPacket extends ParsedPacket where
  time : ℚ
  deriving DecidableEq, Repr

/-- The double closest to a natural number, of two the even one. -/
def nearestDouble (n : Nat) : Nat := roundEven 53 n

/-- `float(s)` of a string of digits. The infinity that 309 or more of them may be is left out. -/
def pyFloat (s : List Char) : Py ℚ := do
  let n ← pyInt s
  return n.sign * nearestDouble n.natAbs

/-- The body of the loop over the matches. -/
def parseMatch (targetPort : Int) : List (List Char) → Py (Option ParsedPacket)
  | [epoch, port, tcpSeq, tcpAck] => do
    let srcport ← pyInt port
    if srcport = targetPort then
      let epoch ← pyFloat epoch
      let seq ← pyInt tcpSeq
      let ack ← pyInt tcpAck
      return some { epoch := epoch / 1000, seq, srcport := targetPort, ack }
    else return none
  -- the pattern has four groups
  | _ => .error .valueError

/-- `process_server_log`; `none` is the exception it ends with. A frame of no rows has no column `epoch`. -/
def processServerLog (file : List Char) (targetPort : Int) : Option (List ServerPacket) := do
  let rows ← ((findAll packetPattern (universalNewlines file)).mapM (parseMatch targetPort)).toOption
  let parsed := rows.reduceOption
  let first ← parsed.head?
  return parsed.map fun r => { r with time := r.epoch - first.epoch }

/-! Doubles. -/

/-- A finite double. -/
def IsDouble (x : ℚ) : Prop := ∃ m e : ℤ, |m| < 2 ^ 53 ∧ -1074 ≤ e ∧ e ≤ 971 ∧ x = m * 2 ^ e

/-- A time of 64 bits as it is read: the closest double, which is the time itself if that is one. -/
structure ReadAs (n : Nat) (d : ℚ) : Prop where
  double : IsDouble d
  nearest : ∀ x, IsDouble x → |d - n| ≤ |x - n|
  exact_iff : d = n ↔ IsDouble n
  small : n ≤ 2 ^ 53 → d = n

theorem IsDouble.significant {x : ℚ} (h : IsDouble x) : Significant 53 x := by
  obtain ⟨m, e, hm, -, -, rfl⟩ := h
  exact ⟨m, e, hm, rfl⟩

theorem nearestDouble_readAs {n : Nat} (hn : n < 2 ^ 64) : ReadAs n (nearestDouble n) := by
  have hdouble : IsDouble (nearestDouble n) := by
    obtain ⟨m, e, hm, he, heq⟩ := roundEven_bits 52 n
    have hlog : n.log2 < 64 := by
      obtain rfl | hne := eq_or_ne n 0
      · decide
      · exact (Nat.log2_lt hne).mpr hn
    rw [excess] at he
    refine ⟨m, e, by rw [Nat.abs_cast]; exact_mod_cast hm, by omega, by omega, ?_⟩
    rw [nearestDouble, heq, zpow_natCast]
    push_cast
    rfl
  have heq : (nearestDouble n : ℚ) = n ↔ Significant 53 (n : ℚ) := by
    rw [Nat.cast_inj]
    exact roundEven_eq_iff 52 n
  refine ⟨hdouble, fun x hx => roundEven_nearest hx.significant, ?_, fun h => heq.mpr (significant_of_le h)⟩
  exact ⟨fun h => h ▸ hdouble, fun h => heq.mpr h.significant⟩

/-! Decimal numbers. -/

section Decimal
variable (n : Nat)

theorem isDigit_of_mem_decimal {c : Char} (h : c ∈ decimal n) : c.isDigit :=
  Nat.isDigit_of_mem_toDigits (by decide) (by decide) h

theorem isDigits_decimal : IsDigits (decimal n) := ⟨Nat.toDigits_ne_nil, fun _ => isDigit_of_mem_decimal n⟩

@[simp] theorem pyInt_decimal : pyInt (decimal n) = .ok (n : Int) := by
  rw [pyInt_digits (isDigits_decimal n), digitsNumber, decimal, Nat.ofDigitChars_ten_toDigits]

@[simp] theorem pyFloat_decimal : pyFloat (decimal n) = .ok (nearestDouble n : ℚ) := by
  rw [pyFloat, pyInt_decimal, Py.ok_bind, Py.pure_eq_ok, Int.natAbs_natCast]
  obtain rfl | hn := n.eq_zero_or_pos
  · have hzero : nearestDouble 0 = 0 := by decide
    simp [hzero]
  · rw [Int.sign_natCast_of_ne_zero hn.ne', Int.cast_one, one_mul]

theorem not_mem_decimal {c : Char} (h : ¬ c.isDigit) : c ∉ decimal n := fun hc => h (isDigit_of_mem_decimal n hc)

theorem not_mem_twoDigits {c : Char} (h : ¬ c.isDigit) : c ∉ twoDigits n := by
  rw [twoDigits, List.mem_append, not_or]
  refine ⟨fun hc => ?_, not_mem_decimal n h⟩
  rw [List.eq_of_mem_replicate hc] at h
  exact h rfl

end Decimal

/-! Lines. -/

theorem not_infix_of_not_mem {w s : List Char} {c : Char} (hw : c ∈ w) (hs : c ∉ s) : ¬ w <:+: s :=
  fun h => hs (h.mem hw)

section Lines
variable {c : Char} {ev : LogEvent} {message s : List Char}

theorem not_mem_strftime (hd : ¬ c.isDigit) (hc : c ∉ ['-', ' ', ':']) (tm : Tm) : c ∉ strftime tm := by
  simp only [List.mem_cons, List.not_mem_nil, or_false, not_or] at hc
  simp [strftime, not_mem_decimal _ hd, not_mem_twoDigits _ hd, hc]

theorem fileCallback_append (ev : LogEvent) (message s : List Char) :
    fileCallback ev message ++ s = strftime ev.time ++ ' ' :: (padRight ev.level.string ++ ' ' :: (ev.file ++ ':' ::
      (decimal ev.line ++ ':' :: ([] ++ ' ' :: (message ++ '\n' :: s))))) := by
  simp [fileCallback]

theorem universalNewlines_event (hm : '\r' ∉ message) (s : List Char) :
    universalNewlines (fileCallback ev message ++ s) =
      fileCallback { ev with file := universalNewlines ev.file } message ++ universalNewlines s := by
  have htime : '\r' ∉ strftime ev.time := not_mem_strftime (by decide) (by decide) _
  have hlevel : '\r' ∉ padRight ev.level.string := by
    cases ev.level <;> decide
  have hfront : '\r' ∉ strftime ev.time ++ ' ' :: (padRight ev.level.string ++ [' ']) := by
    simp [htime, hlevel]
  have hback : '\r' ∉ decimal ev.line ++ ':' :: ' ' :: (message ++ ['\n']) := by
    simp [not_mem_decimal, hm]
  -- the file name between the two
  have hsplit : ∀ file t, fileCallback { ev with file } message ++ t =
      (strftime ev.time ++ ' ' :: (padRight ev.level.string ++ [' '])) ++
        (file ++ ':' :: ((decimal ev.line ++ ':' :: ' ' :: (message ++ ['\n'])) ++ t)) := by
    intro file t
    simp [fileCallback]
  rw [hsplit _ (universalNewlines s), ← universalNewlines_append hback, ← universalNewlines_split (by decide) (by decide),
    ← universalNewlines_append hfront, ← hsplit]

/-- **No match starts before the message.** -/
theorem findAll_event (hfile : ¬ packetWord <:+: ev.file) :
    findAll packetPattern (fileCallback ev message ++ s) = findAll packetPattern (message ++ '\n' :: s) := by
  have hlevel : ∀ level : LogLevel, 'p' ∉ padRight level.string := by
    intro level
    cases level <;> decide
  have hp : 'p' ∈ packetWord := by decide
  rw [fileCallback_append]
  calc findAll packetPattern _
      = findAll packetPattern (padRight ev.level.string ++ ' ' :: (ev.file ++ ':' :: (decimal ev.line ++ ':' ::
          ([] ++ ' ' :: (message ++ '\n' :: s))))) :=
        findAll_skip (by decide) (by decide) (not_infix_of_not_mem hp (not_mem_strftime (by decide) (by decide) _))
    _ = findAll packetPattern (ev.file ++ ':' :: (decimal ev.line ++ ':' :: ([] ++ ' ' :: (message ++ '\n' :: s)))) :=
        findAll_skip (by decide) (by decide) (not_infix_of_not_mem hp (hlevel _))
    _ = findAll packetPattern (decimal ev.line ++ ':' :: ([] ++ ' ' :: (message ++ '\n' :: s))) :=
        findAll_skip (by decide) (by decide) hfile
    _ = findAll packetPattern ([] ++ ' ' :: (message ++ '\n' :: s)) :=
        findAll_skip (by decide) (by decide) (not_infix_of_not_mem hp (not_mem_decimal _ (by decide)))
    _ = findAll packetPattern (message ++ '\n' :: s) := findAll_skip (by decide) (by decide) (by decide)

theorem matchAt_decimal {ps : List (Piece Char)} {runs : List (List Char)} {rest : List Char} (n : Nat)
    (hc : ¬ isDecimal c) (h : matchAt ps (c :: s) = some (runs, rest)) :
    matchAt (.run isDecimal :: ps) (decimal n ++ c :: s) = some (decimal n :: runs, rest) := by
  refine matchAt_run (isDigits_decimal n).1 (fun d hd => isDecimal_of_isDigit (isDigit_of_mem_decimal n hd)) ?_ h
  rintro d hd
  cases hd
  exact hc

/-- **A packet is one match**, which ends with its line. -/
theorem findAll_packet (ts : UInt64) (p : PacketLog) (s : List Char) :
    findAll packetPattern ((LogMessage.packet ts p).text ++ '\n' :: s) =
      [decimal ts.toNat, decimal p.source.toNat, decimal p.seq.toNat, decimal p.ack.toNat] ::
        findAll packetPattern s := by
  have hcomma : ¬ isDecimal ',' := by decide
  have hmatch : matchAt [.run isDecimal, .lit ',', .run isDecimal, .lit ',', .run isDecimal, .lit ',', .run isDecimal]
      (decimal ts.toNat ++ ',' :: (decimal p.source.toNat ++ ',' :: (decimal p.seq.toNat ++ ',' ::
        (decimal p.ack.toNat ++ '\n' :: s)))) =
      some ([decimal ts.toNat, decimal p.source.toNat, decimal p.seq.toNat, decimal p.ack.toNat], '\n' :: s) := by
    refine matchAt_decimal _ hcomma ((matchAt_lit _ _ _).trans ?_)
    refine matchAt_decimal _ hcomma ((matchAt_lit _ _ _).trans ?_)
    refine matchAt_decimal _ hcomma ((matchAt_lit _ _ _).trans ?_)
    exact matchAt_decimal _ (by decide) rfl
  have hnl : findAll packetPattern ('\n' :: s) = findAll packetPattern s :=
    findAll_skip (a := []) (by decide) (by decide) (by decide)
  have htext : (LogMessage.packet ts p).text ++ '\n' :: s = packetWord ++ (decimal ts.toNat ++ ',' ::
      (decimal p.source.toNat ++ ',' :: (decimal p.seq.toNat ++ ',' :: (decimal p.ack.toNat ++ '\n' :: s)))) := by
    simp [LogMessage.text]
  rw [htext, ← hnl]
  exact findAll_word (by decide) hmatch

/-- A bare number is none. -/
theorem findAll_dupAck (ack : UInt32) (s : List Char) :
    findAll packetPattern ((LogMessage.dupAck ack).text ++ '\n' :: s) = findAll packetPattern s :=
  findAll_skip (by decide) (by decide) (not_infix_of_not_mem (c := 'p') (by decide) (not_mem_decimal _ (by decide)))

end Lines

/-! The file. -/

/-- The groups of the match of a packet. -/
def packetGroups (p : UInt64 × PacketLog) : List (List Char) :=
  [decimal p.1.toNat, decimal p.2.source.toNat, decimal p.2.seq.toNat, decimal p.2.ack.toNat]

/-- What a reader is to make of it. -/
def serverPacket (p : UInt64 × PacketLog) : ParsedPacket where
  epoch := nearestDouble p.1.toNat / 1000
  seq := p.2.seq.toNat
  srcport := p.2.source.toNat
  ack := p.2.ack.toNat

theorem return_not_mem (m : LogMessage) : '\r' ∉ m.text := by
  have hn : ∀ n, '\r' ∉ decimal n := fun n => not_mem_decimal n (by decide)
  have hw : '\r' ∉ packetWord := by decide
  cases m with
  | packet ts p => simp [LogMessage.text, hn, hw]
  | dupAck ack => exact hn _

/-- **The matches are the packets.** -/
theorem findAll_logText {entries : List LogEntry} (hfile : ∀ e ∈ entries, ¬ packetWord <:+: e.event.file) :
    findAll packetPattern (universalNewlines (logText entries)) = (loggedPackets entries).map packetGroups := by
  induction entries with
  | nil => rfl
  | cons e entries ih =>
    obtain ⟨hfirst, hrest⟩ := List.forall_mem_cons.mp hfile
    have hfile' : ¬ packetWord <:+: universalNewlines e.event.file :=
      fun h => hfirst (infix_of_universalNewlines (by decide) h)
    rw [logText, List.map_cons, List.flatten_cons, universalNewlines_event (return_not_mem _), findAll_event hfile']
    change findAll _ (_ ++ '\n' :: universalNewlines (logText entries)) = _
    obtain ⟨event, ⟨ts, p⟩ | ack⟩ := e
    · rw [findAll_packet, ih hrest]
      rfl
    · rw [findAll_dupAck, ih hrest]
      rfl

theorem parseMatch_packet (targetPort : Int) (p : UInt64 × PacketLog) :
    parseMatch targetPort (packetGroups p) =
      .ok (if (p.2.source.toNat : Int) = targetPort then some (serverPacket p) else none) := by
  simp only [packetGroups, parseMatch, pyFloat_decimal, pyInt_decimal, Py.ok_bind, Py.pure_eq_ok]
  split
  · next hport =>
    subst hport
    rfl
  · rfl

/-- The packets from one port. -/
def fromPort (port : Int) (ps : List (UInt64 × PacketLog)) : List (UInt64 × PacketLog) :=
  ps.filter fun p => (p.2.source.toNat : Int) = port

/-- The rows `process_server_log` makes of packets; none if there are no packets from the port. -/
def serverRows (port : Int) (ps : List (UInt64 × PacketLog)) : Option (List ServerPacket) :=
  (fromPort port ps).head?.map fun first =>
    (fromPort port ps).map fun p => { serverPacket p with time := (serverPacket p).epoch - (serverPacket first).epoch }

/-- `process_server_log` reads a text whose matches are packets. -/
theorem processServerLog_groups {text : List Char} {ps : List (UInt64 × PacketLog)}
    (h : findAll packetPattern (universalNewlines text) = ps.map packetGroups) (port : Int) :
    processServerLog text port = serverRows port ps := by
  have hparsed : (ps.map packetGroups).mapM (parseMatch port) =
      .ok (ps.map fun p => if (p.2.source.toNat : Int) = port then some (serverPacket p) else none) := by
    rw [Py.mapM_eq_ok, List.forall₂_map_left_iff, List.forall₂_map_right_iff, List.forall₂_same]
    exact fun p _ => parseMatch_packet port p
  have hkept : (ps.map fun p => if (p.2.source.toNat : Int) = port then some (serverPacket p) else none).reduceOption =
      (fromPort port ps).map serverPacket := by
    rw [List.reduceOption, List.filterMap_map, ← List.filterMap_eq_map, fromPort, List.filterMap_filter]
    refine List.filterMap_congr fun p _ => ?_
    simp
  simp only [processServerLog, h, hparsed, Except.toOption, Option.bind_eq_bind, Option.bind_some, hkept, serverRows]
  rcases fromPort port ps with _ | ⟨first, rest⟩
  · rfl
  · simp [Function.comp_def]

/-- **The log is read back.** The rows are the packets logged from the port, in order, the time of each being the double
    closest to the one logged. -/
theorem server_log_read {entries : List LogEntry} {targetPort : Int}
    (hfile : ∀ e ∈ entries, ¬ packetWord <:+: e.event.file)
    (hport : ∃ p ∈ loggedPackets entries, (p.2.source.toNat : Int) = targetPort) :
    ∃ rows first, processServerLog (logText entries) targetPort = some rows ∧
      rows.map (·.toParsedPacket) =
        ((loggedPackets entries).filter fun p => (p.2.source.toNat : Int) = targetPort).map serverPacket ∧
      rows.head? = some first ∧ (∀ r ∈ rows, r.time = r.epoch - first.epoch) ∧
      ∀ p ∈ loggedPackets entries, ∃ d, (serverPacket p).epoch = d / 1000 ∧ ReadAs p.1.toNat d := by
  have hne : fromPort targetPort (loggedPackets entries) ≠ [] := by
    obtain ⟨p, hp, hsource⟩ := hport
    exact List.ne_nil_of_mem (List.mem_filter.mpr ⟨hp, by simpa using hsource⟩)
  obtain ⟨p, ps, hps⟩ := List.exists_cons_of_ne_nil hne
  have hrows := processServerLog_groups (findAll_logText hfile) targetPort
  rw [serverRows, hps, List.head?_cons, Option.map_some] at hrows
  refine ⟨_, _, hrows, ?_, rfl, fun r hr => ?_, fun q _ => ⟨_, rfl, nearestDouble_readAs q.1.toNat_lt⟩⟩
  · rw [← fromPort, hps, List.map_map]
    rfl
  · obtain ⟨q, -, rfl⟩ := List.mem_map.mp hr
    simp

/-- A packet, the number of a dropped acknowledgement, and a packet of another connection. -/
def smallLog : List LogEntry :=
  let event : LogEvent := ⟨"src/worker.c".toList, ⟨2024, 1, 31, 9, 5, 0⟩, 36, .fatal⟩
  [⟨event, .packet 1706691900123 ⟨5201, 4294967295, 17⟩⟩, ⟨{ event with line := 149 }, .dupAck 17⟩,
    ⟨event, .packet 1706691900124 ⟨443, 1, 2⟩⟩]

theorem server_log_read_small :
    ∃ rows first, processServerLog (logText smallLog) 5201 = some rows ∧
      rows.map (·.toParsedPacket) =
        ((loggedPackets smallLog).filter fun p => (p.2.source.toNat : Int) = 5201).map serverPacket ∧
      rows.head? = some first ∧ (∀ r ∈ rows, r.time = r.epoch - first.epoch) ∧
      ∀ p ∈ loggedPackets smallLog, ∃ d, (serverPacket p).epoch = d / 1000 ∧ ReadAs p.1.toNat d :=
  server_log_read (by decide) ⟨_, List.mem_cons_self, by decide⟩

/-- A packet whose time is no double. -/
def lateLog : List LogEntry :=
  [⟨⟨"src/worker.c".toList, ⟨2024, 1, 31, 9, 5, 0⟩, 36, .fatal⟩, .packet 9007199254740993 ⟨5201, 1, 2⟩⟩]

/-- It is read as the time before it. -/
theorem late_time_rounded :
    (∀ e ∈ lateLog, ¬ packetWord <:+: e.event.file) ∧
      (∃ p ∈ loggedPackets lateLog, (p.2.source.toNat : Int) = 5201) ∧
      ¬ ∃ rows, processServerLog (logText lateLog) 5201 = some rows ∧
        rows.map (·.toParsedPacket) =
          ((loggedPackets lateLog).filter fun p => (p.2.source.toNat : Int) = 5201).map fun p =>
            { serverPacket p with epoch := (p.1.toNat : ℚ) / 1000 } := by
  have hfile : ∀ e ∈ lateLog, ¬ packetWord <:+: e.event.file := by decide
  refine ⟨hfile, ⟨_, List.mem_cons_self, by decide⟩, ?_⟩
  rintro ⟨rows, hrows, hexact⟩
  rw [processServerLog_groups (findAll_logText hfile) 5201] at hrows
  obtain rfl := Option.some.inj hrows
  have hepoch : (nearestDouble 9007199254740993 : ℚ) / 1000 = (9007199254740993 : ℕ) / 1000 :=
    congrArg ParsedPacket.epoch (List.cons.inj hexact).1
  have hrounded : nearestDouble 9007199254740993 = 9007199254740992 := by decide
  rw [hrounded] at hepoch
  norm_num at hepoch

end Handoff
