import Handoff.LogLines
import Handoff.WorkerRun

/- packet.log from the queue threads to the scripts.

   Each callback passes a packet from 10.0.0.1 to `log_fatal`, and the acknowledgement number of one that the
   dedup stage drops. Any number of threads log at once, other messages too. When all are done the two scripts
   read from the file exactly the packets logged, those of each thread in its order (`packet_log_read`). -/
namespace Handoff

open Interleaving Mutex Scan

/-! What is logged. -/

/-- The messages one `worker_callback` passes to `log_fatal`, `ts` being the clock `packet_logging` reads. -/
def callbackLog (ctx : WorkerCtx) (nfa : NfqData) (ts : UInt64) : C (List LogMessage) := do
  let p ← packetLogging nfa
  let logged := (p.map (LogMessage.packet ts)).toList
  let s ← workerHandleDrop ctx nfa.packetId
  if s.handled then return logged
  let s ← workerHandleReorder s.ctx nfa.packetId
  if s.handled then return logged
  let s ← workerHandleDedup s.ctx nfa.packetId nfa
  if s.handled then
    let ihl ← ipIhl nfa
    let ack ← tcpAckSeq nfa ihl
    return logged ++ [.dupAck ack]
  return logged

/-- One thing a thread does that may log: a callback, with the times at which it prints, or a message of
    another kind. -/
inductive Work
  | callback (ctx : WorkerCtx) (nfa : NfqData) (ts : UInt64) (time : LogMessage → Tm)
  | other (c : LogCall)

/-- A message of worker.c, or of another kind. -/
inductive Message
  | worker (m : LogMessage)
  | other (text : List Char)

def Message.text : Message → List Char
  | .worker m => m.text
  | .other text => text

/-- A call of `log_log`, by what its message is. -/
structure Entry where
  event : LogEvent
  message : Message

def Entry.call (e : Entry) : LogCall := ⟨e.event, e.message.text⟩

/-- The line of worker.c a message comes from. -/
def LogMessage.line : LogMessage → Nat
  | .packet _ _ => 35
  | .dupAck _ => 150

/-- The calls of `log_log`, `file` being worker.c as the compiler names it. -/
def Work.entries (file : List Char) : Work → C (List Entry)
  | .callback ctx nfa ts time => do
    let ms ← callbackLog ctx nfa ts
    return ms.map fun m => ⟨⟨file, time m, m.line, .fatal⟩, .worker m⟩
  | .other c => .ok [⟨c.event, .other c.message⟩]

/-- The packet that is logged, by the bytes of the packet. -/
def Work.packet? : Work → Option (UInt64 × PacketLog)
  | .callback _ nfa ts _ => (packetLogging nfa).toOption.join.map (ts, ·)
  | .other _ => none

/-- A message that the scripts cannot take for a packet, or that does not reach the file. -/
def Harmless : Work → Prop
  | .callback _ _ _ _ => True
  | .other c => c.event.level = .fatal →
    '\r' ∉ c.message ∧ ¬ packetWord <:+: c.message ∧ ¬ packetWord <:+: c.event.file

/-- The packet an entry puts into the file. -/
def Entry.packet? (e : Entry) : Option (UInt64 × PacketLog) :=
  match e.event.level, e.message with
  | .fatal, .worker (.packet ts p) => some (ts, p)
  | _, _ => none

/-- The log holds a message of worker.c whatever its file is called, or one that is harmless. -/
structure Entry.Readable (e : Entry) : Prop where
  file : ¬ packetWord <:+: e.event.file
  newline : '\r' ∉ e.message.text
  other : ∀ text, e.message = .other text → ¬ packetWord <:+: text

theorem callbackLog_packets {ctx : WorkerCtx} {nfa : NfqData} {ts : UInt64} {ms : List LogMessage}
    (h : callbackLog ctx nfa ts = .ok ms) :
    ∃ p, ∃ acks : List UInt32, packetLogging nfa = .ok p ∧
      ms = (p.map (LogMessage.packet ts)).toList ++ acks.map LogMessage.dupAck := by
  obtain ⟨p, hp, h⟩ := C.bind_ok.mp h
  obtain ⟨s₁, -, h⟩ := C.bind_ok.mp h
  refine ⟨p, ?_⟩
  split at h
  · cases h
    exact ⟨[], hp, by simp⟩
  · obtain ⟨s₂, -, h⟩ := C.bind_ok.mp h
    split at h
    · cases h
      exact ⟨[], hp, by simp⟩
    · obtain ⟨s₃, -, h⟩ := C.bind_ok.mp h
      split at h
      · obtain ⟨ihl, -, h⟩ := C.bind_ok.mp h
        obtain ⟨ack, -, h⟩ := C.bind_ok.mp h
        cases h
        exact ⟨[ack], hp, rfl⟩
      · cases h
        exact ⟨[], hp, by simp⟩

theorem LogMessage.readable {file : List Char} (hfile : ¬ packetWord <:+: file) (tm : Tm) (m : LogMessage) :
    Entry.Readable ⟨⟨file, tm, m.line, .fatal⟩, .worker m⟩ :=
  ⟨hfile, return_not_mem m, fun _ h => by cases h⟩

/-- What a work logs at the level of the file: readable entries, and its packet. -/
theorem Work.entries_read {file : List Char} (hfile : ¬ packetWord <:+: file) {w : Work} (hw : Harmless w)
    {es : List Entry} (h : w.entries file = .ok es) :
    (∀ e ∈ es, e.event.level = .fatal → e.Readable) ∧
      es.filterMap Entry.packet? = w.packet?.toList := by
  cases w with
  | callback ctx nfa ts time =>
    obtain ⟨ms, hms, h⟩ := C.bind_ok.mp h
    cases h
    obtain ⟨p, acks, hp, rfl⟩ := callbackLog_packets hms
    refine ⟨?_, ?_⟩
    · intro e he _
      obtain ⟨m, -, rfl⟩ := List.mem_map.mp he
      exact LogMessage.readable hfile (time m) m
    · have hacks : ∀ acks : List UInt32, (acks.map LogMessage.dupAck).filterMap
          (fun m => Entry.packet? ⟨⟨file, time m, m.line, .fatal⟩, .worker m⟩) = [] := by
        intro acks
        rw [List.filterMap_map]
        exact List.filterMap_eq_nil_iff.mpr fun _ _ => rfl
      rw [List.filterMap_map, List.filterMap_append]
      have hp' : (packetLogging nfa).toOption.join = p := by
        rw [hp]
        rfl
      rw [Function.comp_def, hacks, List.append_nil, Work.packet?, hp']
      rcases p with _ | p <;> rfl
  | other c =>
    cases h
    refine ⟨?_, ?_⟩
    · intro e he hlevel
      obtain rfl := List.mem_singleton.mp he
      obtain ⟨hn, hm, hf⟩ := hw hlevel
      exact ⟨hf, hn, fun _ h => by cases h; exact hm⟩
    · rcases hl : c.event.level <;> simp [hl, Entry.packet?, Work.packet?]

/-! What is read. -/

/-- The line of an entry in the file of `main`. -/
def Entry.line (e : Entry) : List Char :=
  if e.event.level = .fatal then fileCallback e.event e.message.text else []

/-- **The matches are the packets.** -/
theorem findAll_entries {es : List Entry} (h : ∀ e ∈ es, e.event.level = .fatal → e.Readable) :
    findAll packetPattern (universalNewlines (es.flatMap Entry.line)) = (es.filterMap Entry.packet?).map packetGroups := by
  induction es with
  | nil => rfl
  | cons e es ih =>
    obtain ⟨he, hes⟩ := List.forall_mem_cons.mp h
    obtain ⟨event, message⟩ := e
    rw [List.flatMap_cons, Entry.line]
    by_cases hl : event.level = .fatal
    · obtain ⟨hfile, hnewline, hother⟩ := he hl
      have hfile' : ¬ packetWord <:+: universalNewlines event.file :=
        fun h => hfile (infix_of_universalNewlines (by decide) h)
      rw [if_pos hl, universalNewlines_event hnewline, findAll_event hfile']
      rcases message with (⟨ts, p⟩ | ack) | text
      · have hp : Entry.packet? ⟨event, .worker (.packet ts p)⟩ = some (ts, p) := by
          simp [Entry.packet?, hl]
        rw [Message.text, findAll_packet, ih hes, List.filterMap_cons_some hp]
        rfl
      · have hp : Entry.packet? ⟨event, .worker (.dupAck ack)⟩ = none := by
          simp [Entry.packet?]
        rw [Message.text, findAll_dupAck, ih hes, List.filterMap_cons_none hp]
      · have hp : Entry.packet? ⟨event, .other text⟩ = none := by
          simp [Entry.packet?]
        have hskip : findAll packetPattern (text ++ '\n' :: universalNewlines (es.flatMap Entry.line)) =
            findAll packetPattern (universalNewlines (es.flatMap Entry.line)) :=
          findAll_skip (by decide) (by decide) (hother text rfl)
        rw [Message.text, hskip, ih hes, List.filterMap_cons_none hp]
    · have hp : Entry.packet? ⟨event, message⟩ = none := by
        unfold Entry.packet?
        split
        · next hfatal _ => exact absurd hfatal hl
        · rfl
      rw [if_neg hl, List.nil_append, ih hes, List.filterMap_cons_none hp]

section Read
variable {text : List Char} {ps : List (UInt64 × PacketLog)}

/-- The body of the loop of `parse_serverts`. -/
def servertsMatch : List (List Char) → Py (Option (Int × Int × Int))
  | [epoch, port, tcpSeq, tcpAck] => do
    if port = "50730".toList then
      let epoch ← pyInt epoch
      let seq ← pyInt tcpSeq
      let ack ← pyInt tcpAck
      return some (epoch, seq, ack)
    else return none
  -- the pattern has four groups
  | _ => .error .valueError

/-- `parse_serverts` (rfc-jitter.py); `none` is the exception it ends with. -/
def parseServerts (file : List Char) : Option (List (Int × Int × Int)) := do
  let rows ← ((findAll packetPattern (universalNewlines file)).mapM servertsMatch).toOption
  return rows.reduceOption

theorem decimal_inj {m n : Nat} (h : decimal m = decimal n) : m = n := by
  have h' := congrArg pyInt h
  rw [pyInt_decimal, pyInt_decimal, Except.ok.injEq] at h'
  exact Int.ofNat.inj h'

/-- A packet as `parse_serverts` returns it. -/
def serverTuple (p : UInt64 × PacketLog) : Int × Int × Int := (p.1.toNat, p.2.seq.toNat, p.2.ack.toNat)

theorem servertsMatch_packet (p : UInt64 × PacketLog) :
    servertsMatch (packetGroups p) = .ok (if (p.2.source.toNat : Int) = 50730 then some (serverTuple p) else none) := by
  have hport : decimal p.2.source.toNat = "50730".toList ↔ (p.2.source.toNat : Int) = 50730 := by
    have hdecimal : "50730".toList = decimal 50730 := by decide
    rw [hdecimal]
    constructor
    · intro h
      rw [decimal_inj h]
      rfl
    · intro h
      rw [show p.2.source.toNat = 50730 by omega]
  simp only [packetGroups, servertsMatch, hport, pyInt_decimal, Py.ok_bind, Py.pure_eq_ok]
  split <;> rfl

theorem parseServerts_groups (h : findAll packetPattern (universalNewlines text) = ps.map packetGroups) :
    parseServerts text = some ((fromPort 50730 ps).map serverTuple) := by
  have hparsed : (ps.map packetGroups).mapM servertsMatch =
      .ok (ps.map fun p => if (p.2.source.toNat : Int) = 50730 then some (serverTuple p) else none) := by
    rw [Py.mapM_eq_ok, List.forall₂_map_left_iff, List.forall₂_map_right_iff, List.forall₂_same]
    exact fun p _ => servertsMatch_packet p
  have hkept : (ps.map fun p => if (p.2.source.toNat : Int) = 50730 then some (serverTuple p) else none).reduceOption =
      (fromPort 50730 ps).map serverTuple := by
    rw [List.reduceOption, List.filterMap_map, ← List.filterMap_eq_map, fromPort, List.filterMap_filter]
    refine List.filterMap_congr fun p _ => ?_
    simp
  simp only [parseServerts, h, hparsed, Except.toOption, Option.bind_eq_bind, Option.bind_some, hkept]
  rfl

end Read

/-! The whole way. -/

section Threads
variable {ι : Type} [DecidableEq ι] {file : List Char} {work : ι → List Work} {entries : ι → List Entry}

theorem entries_packets (hfile : ¬ packetWord <:+: file) {ws : List Work} (hws : ∀ w ∈ ws, Harmless w)
    {ess : List (List Entry)} (h : List.Forall₂ (fun w es => Work.entries file w = .ok es) ws ess) :
    (∀ e ∈ ess.flatten, e.event.level = .fatal → e.Readable) ∧
      ess.flatten.filterMap Entry.packet? = ws.filterMap Work.packet? := by
  induction h with
  | nil => exact ⟨(fun _ he => by cases he), rfl⟩
  | @cons w es ws ess hw _ ih =>
    obtain ⟨hw', hws'⟩ := List.forall_mem_cons.mp hws
    obtain ⟨hread, hpacket⟩ := Work.entries_read hfile hw' hw
    obtain ⟨hreads, hpackets⟩ := ih hws'
    refine ⟨?_, ?_⟩
    · intro e he
      rw [List.flatten_cons] at he
      exact (List.mem_append.mp he).elim (hread e) (hreads e)
    · rw [List.flatten_cons, List.filterMap_append, hpacket, hpackets]
      rcases hp : w.packet? with _ | p <;> simp [hp]

/-- **packet.log is read as it was logged.** Any number of threads run callbacks, each on the state of the worker it
    finds, and log what else they like, at once. When all have returned, the two scripts read from the file
    of `main` exactly the packets from 10.0.0.1 that the callbacks met, and those of each thread in its order. A time
    is read as the nearest double (`pyFloat`), the time itself up to 2^53; the arithmetic on it is exact. -/
theorem packet_log_read {logFile : Stream} (hfile : ¬ packetWord <:+: file)
    (hharmless : ∀ t, ∀ w ∈ work t, Harmless w)
    (hentries : ∀ t, ∃ ess, List.Forall₂ (fun w es => Work.entries file w = .ok es) (work t) ess ∧ entries t = ess.flatten)
    {ts : List ι} {s : State ι Streams (Stream × List Char)}
    (hrun : Runs (step fprintf)
      (logThreads (mainLogger logFile) (fun t => (entries t).map Entry.call) fun _ => []) ts s)
    (hdone : ∀ t, s.todo t = []) :
    ∃ log : List (ι × UInt64 × PacketLog), (∀ t, ofThread t log = (work t).filterMap Work.packet?) ∧
      (∀ port, processServerLog (s.shared logFile) port = serverRows port (log.map (·.2))) ∧
      parseServerts (s.shared logFile) = some ((fromPort 50730 (log.map (·.2))).map serverTuple) := by
  obtain ⟨done, cur, rest, h⟩ := log_threads_logged (l := mainLogger logFile) rfl hrun
  obtain ⟨rfl, hrest⟩ := h.finished hdone
  have hthreads : ∀ t, (entries t).map Entry.call = ofThread t done := fun t => by
    have := h.threads t
    simpa [hrest] using this
  obtain ⟨done, rfl, hof⟩ := exists_ofThread hthreads
  have htext : s.shared logFile = (done.map (·.2)).flatMap Entry.line := by
    obtain ⟨part, hpart, htext⟩ := h.text logFile
    obtain rfl := List.prefix_nil.mp hpart
    rw [htext, List.append_nil, List.nil_append, List.flatMap_map, List.flatMap_map]
    refine List.flatMap_congr fun d _ => ?_
    rw [Prod.map_snd, lineOf_mainLogger, Entry.line]
    simp [Entry.call]
  have hread : ∀ e ∈ done.map (·.2), e.event.level = .fatal → e.Readable := by
    intro e he
    obtain ⟨⟨t, e⟩, hmem, rfl⟩ := List.mem_map.mp he
    obtain ⟨ess, hess, ht⟩ := hentries t
    refine (entries_packets hfile (hharmless t) hess).1 e ?_
    rw [← ht, ← hof t]
    exact List.mem_map.mpr ⟨(t, e), List.mem_filter.mpr ⟨hmem, by simp⟩, rfl⟩
  have hgroups := findAll_entries hread
  rw [← htext] at hgroups
  refine ⟨done.filterMap fun d => (d.2.packet?).map (d.1, ·), ?_, ?_, ?_⟩
  · intro t
    obtain ⟨ess, hess, ht⟩ := hentries t
    rw [ofThread_filterMap, hof, ht, (entries_packets hfile (hharmless t) hess).2]
  all_goals
    have hmap : ((done.filterMap fun d => (d.2.packet?).map (d.1, ·)).map (·.2)) =
        (done.map (·.2)).filterMap Entry.packet? := by
      rw [List.map_filterMap, List.filterMap_map]
      refine List.filterMap_congr fun d _ => ?_
      simp [Function.comp_def]
    rw [hmap]
  · exact processServerLog_groups hgroups
  · exact parseServerts_groups hgroups

end Threads

/-- A queue thread that meets a packet from 10.0.0.1, and the scheduler's thread, which cannot open a queue. -/
def servedPacket : NfqData :=
  ⟨7, some [0x45, 0, 0, 40, 0, 0, 0, 0, 64, 6, 0, 0, 10, 0, 0, 1, 10, 0, 0, 2,
    0xc6, 0x2a, 0, 80, 0, 0, 0, 1, 0, 0, 0, 2, 0x50, 16, 1, 0, 0, 0, 0, 0]⟩

def morning : Tm := ⟨2024, 1, 31, 9, 5, 0⟩

def twoWorks : Bool → List Work
  | true => [.callback zeroWorker servedPacket 1706691900123 fun _ => morning]
  | false => [.other ⟨⟨"nfqueue.c".toList, morning, 40, .fatal⟩, "requested queue size 8, get 4".toList⟩]

def twoEntries : Bool → List Entry
  | true => [⟨⟨"worker.c".toList, morning, 35, .fatal⟩, .worker (.packet 1706691900123 ⟨50730, 1, 2⟩)⟩]
  | false => [⟨⟨"nfqueue.c".toList, morning, 40, .fatal⟩, .other "requested queue size 8, get 4".toList⟩]

theorem packet_log_read_two :
    ∃ (s : State Bool Streams (Stream × List Char)) (log : List (Bool × UInt64 × PacketLog)),
      (∀ t, ofThread t log = (twoWorks t).filterMap Work.packet?) ∧
      (∀ port, processServerLog (s.shared (.file 0)) port = serverRows port (log.map (·.2))) ∧
      parseServerts (s.shared (.file 0)) = some ((fromPort 50730 (log.map (·.2))).map serverTuple) := by
  obtain ⟨s, hrun, hdone⟩ : ∃ s : State Bool Streams (Stream × List Char),
      Runs (step fprintf) (logThreads (mainLogger (.file 0)) (fun t => (twoEntries t).map Entry.call) fun _ => [])
        [true, true, true, true, true, false, false, false, false, false] s ∧ ∀ t, s.todo t = [] :=
    ⟨_, .cons rfl (.cons rfl (.cons rfl (.cons rfl (.cons rfl (.cons rfl (.cons rfl (.cons rfl (.cons rfl (.cons rfl
      (.nil _)))))))))), fun t => by cases t <;> rfl⟩
  refine ⟨s, @packet_log_read _ _ "worker.c".toList twoWorks twoEntries _ (by decide) ?_ ?_ _ _ hrun hdone⟩
  · rintro (_ | _) w hw
    · rw [List.mem_singleton.mp hw]
      exact fun _ => by decide
    · rw [List.mem_singleton.mp hw]
      trivial
  · rintro (_ | _)
    · exact ⟨[twoEntries false], .cons rfl .nil, by simp⟩
    · exact ⟨[twoEntries true], .cons rfl .nil, by simp⟩

end Handoff
