import Handoff.Lib.Mutex
import Handoff.PacketLogFile

/- The logger (`log.c`), used by several threads at once.

   `log_log` writes a line piece by piece, to standard error and to every sink whose level the message has, between
   `lock` and `unlock`. `main` sets a mutex for these, so a call is a critical section, and in every interleaving of
   the threads a stream holds whole lines, in the order in which the calls took the lock, and at its end the part that
   the call inside has written so far (`log_lines_whole`). -/
namespace Handoff

open Interleaving Mutex

/-- `MAX_CALLBACKS`. -/
def maxCallbacks : Nat := 32

/-- A `FILE`: standard error, or the `k`-th that was opened. -/
inductive Stream
  | stderr
  | file (k : Nat)
  deriving DecidableEq, Repr

def LogLevel.toInt : LogLevel → Int
  | .trace => 0
  | .debug => 1
  | .info => 2
  | .warn => 3
  | .error => 4
  | .fatal => 5

/-- A `Callback` of `file_callback`, the only function `log.c` is given. -/
structure Sink where
  stream : Stream
  level : Int
  deriving DecidableEq, Repr

/-- The static `L`: whether a lock function is set, and the callbacks that are. -/
structure Logger where
  lock : Bool
  level : Int
  quiet : Bool
  callbacks : List Sink
  deriving DecidableEq, Repr

/-- Static memory is zero. -/
def Logger.zero : Logger := ⟨false, 0, false, []⟩

def logSetLock (l : Logger) : Logger := { l with lock := true }
def logSetLevel (l : Logger) (level : Int) : Logger := { l with level }
def logSetQuiet (l : Logger) (enable : Bool) : Logger := { l with quiet := enable }

/-- `log_add_callback`. -/
def logAddCallback (l : Logger) (sink : Sink) : Logger × Int :=
  if l.callbacks.length < maxCallbacks then ({ l with callbacks := l.callbacks ++ [sink] }, 0) else (l, -1)

/-- `log_add_fp`. -/
def logAddFp (l : Logger) (fp : Stream) (level : Int) : Logger × Int := logAddCallback l ⟨fp, level⟩

/-- The logger as `main` sets it up. -/
def mainLogger (logFile : Stream) : Logger :=
  (logAddFp (logSetQuiet (logSetLevel (logSetLock .zero) LogLevel.fatal.toInt) true) logFile LogLevel.fatal.toInt).1

/-- A call of `log_log`: the event, with the time that is read once the lock is taken, and the formatted message. -/
structure LogCall where
  event : LogEvent
  message : List Char
  deriving DecidableEq, Repr

/-- `%H:%M:%S`. -/
def strftimeShort (tm : Tm) : List Char := twoDigits tm.hour ++ ':' :: twoDigits tm.min ++ ':' :: twoDigits tm.sec

/-- `%s %-5s %s:%d: `. -/
def linePrefix (time : List Char) (ev : LogEvent) : List Char :=
  time ++ ' ' :: (padRight ev.level.string ++ ' ' :: (ev.file ++ ':' :: (decimal ev.line ++ [':', ' '])))

/-- A callback prints its line in three pieces: what stands before the message, the message, and the newline. -/
def linePieces (time : List Char) (c : LogCall) : List (List Char) := [linePrefix time c.event, c.message, ['\n']]

/-- `stdout_callback` and `file_callback`. -/
def stdoutPieces (c : LogCall) : List (List Char) := linePieces (strftimeShort c.event.time) c
def filePieces (c : LogCall) : List (List Char) := linePieces (strftime c.event.time) c

theorem filePieces_flatten (c : LogCall) : (filePieces c).flatten = fileCallback c.event c.message := by
  simp [filePieces, linePieces, linePrefix, fileCallback]

/-- What a call of `log_log` prints, in order, and to which stream. -/
def logWrites (l : Logger) (c : LogCall) : List (Stream × List Char) :=
  (if !l.quiet ∧ l.level ≤ c.event.level.toInt then (stdoutPieces c).map (.stderr, ·) else []) ++
    l.callbacks.flatMap fun cb =>
      if cb.level ≤ c.event.level.toInt then (filePieces c).map (cb.stream, ·) else []

/-- `log_log`. Without a lock function `lock` and `unlock` do nothing. -/
def logLog (l : Logger) (c : LogCall) : List (Op (Stream × List Char)) :=
  if l.lock then .lock :: tail (logWrites l c) else (logWrites l c).map .act

/-- The text of each stream. -/
abbrev Streams := Stream → List Char

/-- `fprintf`. -/
def fprintf (streams : Streams) (w : Stream × List Char) : Streams :=
  Function.update streams w.1 (streams w.1 ++ w.2)

/-- What writes add to a stream. -/
def written (k : Stream) (ws : List (Stream × List Char)) : List Char := ((ws.filter (·.1 = k)).map (·.2)).flatten

theorem written_append (k : Stream) (ws ws' : List (Stream × List Char)) :
    written k (ws ++ ws') = written k ws ++ written k ws' := by
  simp [written]

theorem foldl_fprintf (k : Stream) (ws : List (Stream × List Char)) (streams : Streams) :
    (ws.foldl fprintf streams) k = streams k ++ written k ws := by
  induction ws generalizing streams with
  | nil => simp [written]
  | cons w ws ih =>
    rw [List.foldl_cons, ih]
    by_cases hk : w.1 = k
    · subst hk
      simp [fprintf, written]
    · simp [fprintf, written, hk, Function.update_of_ne (Ne.symm hk)]

/-- The lines a call writes to a stream. -/
def lineOf (l : Logger) (k : Stream) (c : LogCall) : List Char :=
  (if k = .stderr ∧ !l.quiet ∧ l.level ≤ c.event.level.toInt then (stdoutPieces c).flatten else []) ++
    (l.callbacks.filter fun cb => cb.stream = k ∧ cb.level ≤ c.event.level.toInt).flatMap fun _ =>
      fileCallback c.event c.message

theorem written_map (k k' : Stream) (pieces : List (List Char)) :
    written k (pieces.map (k', ·)) = if k' = k then pieces.flatten else [] := by
  unfold written
  rw [List.filter_map, List.map_map]
  by_cases hk : k' = k
  · subst hk
    simp [Function.comp_def]
  · simp [Function.comp_def, hk]

theorem written_logWrites (l : Logger) (k : Stream) (c : LogCall) : written k (logWrites l c) = lineOf l k c := by
  rw [logWrites, written_append, lineOf]
  congr 1
  · by_cases hq : (!l.quiet) = true ∧ l.level ≤ c.event.level.toInt
    · rw [if_pos hq, written_map]
      by_cases hk : k = .stderr
      · rw [if_pos hk.symm, if_pos ⟨hk, hq⟩]
      · rw [if_neg (Ne.symm hk), if_neg fun h => hk h.1]
    · rw [if_neg hq, if_neg fun h => hq h.2]
      rfl
  · induction l.callbacks with
    | nil => rfl
    | cons cb cbs ih =>
      rw [List.flatMap_cons, written_append, ih, List.filter_cons]
      by_cases hl : cb.level ≤ c.event.level.toInt
      · rw [if_pos hl, written_map, filePieces_flatten]
        by_cases hk : cb.stream = k
        · rw [if_pos hk, if_pos (by simp [hk, hl]), List.flatMap_cons]
        · rw [if_neg hk, if_neg (by simp [hk])]
          rfl
      · rw [if_neg hl, if_neg (by simp [hl])]
        rfl

theorem written_flatMap {ι : Type*} (l : Logger) (k : Stream) (done : List (ι × LogCall)) :
    written k (done.flatMap fun c => logWrites l c.2) = done.flatMap fun c => lineOf l k c.2 := by
  induction done with
  | nil => rfl
  | cons c done ih => rw [List.flatMap_cons, written_append, written_logWrites, ih, List.flatMap_cons]

/-! Threads. -/

section Threads
variable {ι : Type*}

/-- Threads that make calls of `log_log`, each in its order, on a logger with a lock. -/
def logThreads (l : Logger) (calls : ι → List LogCall) (streams : Streams) : State ι Streams (Stream × List Char) :=
  ⟨none, fun t => ((calls t).map (logLog l)).flatten, streams⟩

theorem logThreads_start {l : Logger} (hlock : l.lock = true) (calls : ι → List LogCall) (streams : Streams) :
    logThreads l calls streams = start (logWrites l) calls streams := by
  have hlog : logLog l = fun c => .lock :: tail (logWrites l c) := funext fun c => if_pos hlock
  simp only [logThreads, start, program, hlog]

variable [DecidableEq ι]

/-- A log between or within calls, after the threads `ts` have made their steps. The calls in `done` have been made,
    in this order; `cur` is the thread and the call that is inside `log_log`, if any, and `rest` is what each thread
    has left. The threads of `done` and `cur` are those that took the lock, in the order in which they took it. -/
structure Logged (l : Logger) (calls : ι → List LogCall) (streams : Streams) (ts : List ι)
    (s : State ι Streams (Stream × List Char)) (done : List (ι × LogCall)) (cur : Option (ι × LogCall))
    (rest : ι → List LogCall) : Prop where
  owner : s.owner = cur.map (·.1)
  order : (done ++ cur.toList).map (·.1) = lockers fprintf (logThreads l calls streams) ts
  threads : ∀ t, calls t = ofThread t (done ++ cur.toList) ++ rest t
  text : ∀ k, ∃ part, part <+: cur.elim [] (fun c => lineOf l k c.2) ∧
    s.shared k = streams k ++ (done.flatMap fun c => lineOf l k c.2) ++ part
  moves : (∃ t, s.todo t ≠ []) → ∃ u s', step fprintf s u = some s'
  finished : (∀ t, s.todo t = []) → cur = none ∧ ∀ t, rest t = []

/-- A log is always between or within calls. -/
theorem log_threads_logged {l : Logger} (hlock : l.lock = true) {calls : ι → List LogCall} {streams : Streams}
    {ts : List ι} {s : State ι Streams (Stream × List Char)}
    (hrun : Runs (step fprintf) (logThreads l calls streams) ts s) :
    ∃ done cur rest, Logged l calls streams ts s done cur rest := by
  rw [logThreads_start hlock] at hrun
  obtain ⟨done, cur, rest, h, hbegun⟩ := runs_serial hrun
  refine ⟨done, cur.map fun c => (c.thread, c.label), rest, ?_, ?_, ?_, ?_, fun ⟨t, ht⟩ => h.moves ht,
    fun hdone => ⟨by rw [(h.finished hdone).1]; rfl, (h.finished hdone).2⟩⟩
  · rw [h.owner, Option.map_map]
    rfl
  · rw [logThreads_start hlock, ← hbegun, List.map_append, begun]
    cases cur <;> rfl
  · intro t
    rw [h.threads t]
    rcases cur with _ | c
    · simp
    · by_cases hc : c.thread = t
      · simp [ofThread, hc]
      · simp [ofThread, hc]
  · intro k
    refine ⟨written k (cur.elim [] (·.before)), ?_, ?_⟩
    · rcases cur with _ | c
      · exact List.prefix_rfl
      · rw [Option.map_some, Option.elim_some, Option.elim_some, ← written_logWrites, h.within c rfl, written_append]
        exact List.prefix_append _ _
    · rw [h.shared, foldl_fprintf, foldl_fprintf, written_flatMap]

/-- **Lines are never torn.** However many threads log at once, in every interleaving and at every point of it, each
    stream holds the whole lines of the calls made, in the order in which they took the lock, and part of the lines of
    the call inside; each thread's calls were made in its order; and some thread can go on. -/
theorem log_lines_whole {l : Logger} (hlock : l.lock = true) {calls : ι → List LogCall} {streams : Streams}
    {ts : List ι} {s : State ι Streams (Stream × List Char)}
    (hrun : Runs (step fprintf) (logThreads l calls streams) ts s) :
    ∃ done cur rest, Logged l calls streams ts s done cur rest :=
  log_threads_logged hlock hrun

end Threads

/-- Two threads, the first of which has written what stands before its message. -/
def twoCalls (t : Bool) : List LogCall :=
  let event : LogEvent := ⟨"src/worker.c".toList, ⟨2024, 1, 31, 9, 5, 0⟩, 35, .fatal⟩
  if t then [⟨event, "packet,1,2,3,4".toList⟩] else [⟨{ event with line := 150 }, "7".toList⟩]

theorem log_lines_whole_two :
    ∃ s : State Bool Streams (Stream × List Char),
      Runs (step fprintf) (logThreads (mainLogger (.file 0)) twoCalls fun _ => []) [true, true] s ∧
        ∃ done cur rest, Logged (mainLogger (.file 0)) twoCalls (fun _ => []) [true, true] s done cur rest := by
  obtain ⟨s, hrun⟩ : ∃ s : State Bool Streams (Stream × List Char),
      Runs (step fprintf) (logThreads (mainLogger (.file 0)) twoCalls fun _ => []) [true, true] s :=
    ⟨_, .cons rfl (.cons rfl (.nil _))⟩
  exact ⟨s, hrun, log_lines_whole rfl hrun⟩

/-- `main` logs fatal messages to its file, and nothing else anywhere. -/
theorem lineOf_mainLogger (logFile k : Stream) (c : LogCall) :
    lineOf (mainLogger logFile) k c =
      if k = logFile ∧ c.event.level = .fatal then fileCallback c.event c.message else [] := by
  have hlevel : LogLevel.fatal.toInt ≤ c.event.level.toInt ↔ c.event.level = .fatal := by
    rcases c.event.level <;> decide
  have hquiet : (mainLogger logFile).quiet = true := rfl
  have hcallbacks : (mainLogger logFile).callbacks = [⟨logFile, LogLevel.fatal.toInt⟩] := rfl
  have hkey : logFile = k ↔ k = logFile := eq_comm
  simp only [lineOf, hquiet, hcallbacks, Bool.not_true, Bool.false_eq_true, false_and, and_false, if_false,
    List.nil_append, List.filter_cons, List.filter_nil, hlevel, hkey, decide_eq_true_eq]
  split
  · exact List.append_nil _
  · rfl

end Handoff
