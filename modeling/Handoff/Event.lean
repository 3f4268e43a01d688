import Handoff.Scheduler

/- The trace parser (`event.c`): `strtok` and `strtol` as ISO C has them, one reader a
   line type, and the events each type expands into.

   A line is a list of characters. `strtok` keeps the rest of the string in a static
   variable; here a reader passes it on. A token that is missing is a null pointer,
   and `strtol`, `strcmp` and `strlen` of a null pointer are faults. `long` has 64 bits. -/
namespace Handoff

/-! `strtok` and `strtol`. -/

/-- `strtok(s, ",")`: the next token and the rest of the string, or a null pointer. -/
def strtok (s : List Char) : Option (List Char × List Char) :=
  match s.dropWhile (· == ',') with
  | [] => none
  | c :: cs => some ((c :: cs).takeWhile (· != ','), ((c :: cs).dropWhile (· != ',')).tail)

/-- `isspace` in the C locale. -/
def isSpace (c : Char) : Bool := c == ' ' || ('\t' ≤ c && c ≤ '\r')

/-- The value of a digit in some base up to 36. -/
def digitValue (c : Char) : Option Nat :=
  if '0' ≤ c ∧ c ≤ '9' then some (c.toNat - '0'.toNat)
  else if 'a' ≤ c ∧ c ≤ 'z' then some (c.toNat - 'a'.toNat + 10)
  else if 'A' ≤ c ∧ c ≤ 'Z' then some (c.toNat - 'A'.toNat + 10)
  else none

/-- The digits of `base` at the front of a string. -/
def digitsOf (base : Nat) : List Char → List Nat
  | [] => []
  | c :: cs =>
    match digitValue c with
    | some d => if d < base then d :: digitsOf base cs else []
    | none => []

def digitsValue (base : Nat) (ds : List Nat) : Nat := ds.foldl (fun n d => base * n + d) 0

/-- The unsigned part of `strtol(s, NULL, 0)`: `0x` is hexadecimal when a digit follows, a leading
    `0` is octal, the rest is decimal. -/
def strtoulAuto : List Char → Nat
  | '0' :: x :: c :: cs =>
    if (x = 'x' ∨ x = 'X') ∧ digitsOf 16 [c] ≠ [] then digitsValue 16 (digitsOf 16 (c :: cs))
    else digitsValue 8 (digitsOf 8 ('0' :: x :: c :: cs))
  | '0' :: cs => digitsValue 8 (digitsOf 8 ('0' :: cs))
  | cs => digitsValue 10 (digitsOf 10 cs)

def longMin : Int := -2^63
def longMax : Int := 2^63 - 1

/-- `strtol(s, NULL, 0)`: white space, an optional sign, the digits, clamped to the range of `long`. -/
def strtol (s : List Char) : Int :=
  match s.dropWhile isSpace with
  | '-' :: cs => max longMin (-(strtoulAuto cs : Int))
  | '+' :: cs => min longMax (strtoulAuto cs)
  | cs => min longMax (strtoulAuto cs)

/-- `int x = strtol(tok, NULL, 0)` for a token that may be a null pointer. -/
def intOf (tok : Option (List Char)) : C Int :=
  match tok with
  | none => .error .nullDeref
  | some t => .ok (toInt (strtol t))

/-- `tok = strtok(NULL, ","); int x = strtol(tok, NULL, 0);` -/
def nextInt (rest : List Char) : C (Int × List Char) :=
  match strtok rest with
  | none => .error .nullDeref
  | some (t, rest) => .ok (toInt (strtol t), rest)

/-! The scheduler calls of a line. -/

/-- One `scheduler_add_event` call of the parser: a time (an `int` there) and an action. -/
abbrev Request := Int × Action

/-- Issue the calls in order; their return values are ignored. -/
def addRequests (scheduler : SchedulerCtx Action) : List Request → SchedulerCtx Action
  | [] => scheduler
  | (time, a) :: rs => addRequests (schedulerAddEvent scheduler (UInt64.ofInt time) a).1 rs

/-- `parse_cmd`. -/
def parseCmd (timeMs : Int) (data : Option (List Char)) : C (List Request) :=
  match data with
  | none => .error .nullDeref
  | some cmd => .ok [(timeMs, .command cmd)]

/-- The fields of an `HO` line. -/
structure HoFields where
  queueNum : Int
  mark : Int
  gapTime : Int
  reordCnt : Int
  reordOffset : Int
  dropCnt : Int
  deriving DecidableEq, Repr

def readHo (data : Option (List Char)) (rest : List Char) : C HoFields := do
  let queueNum ← intOf data
  let (mark, rest) ← nextInt rest
  let (gapTime, rest) ← nextInt rest
  let (reordCnt, rest) ← nextInt rest
  let (reordOffset, rest) ← nextInt rest
  let (dropCnt, _) ← nextInt rest
  return { queueNum, mark, gapTime, reordCnt, reordOffset, dropCnt }

/-- The loss a line asks for: a reordering line overrides its own field. -/
def hoDropCnt (f : HoFields) : C Int :=
  if 0 < f.reordCnt then addInt f.reordCnt 10 else .ok f.dropCnt

/-- The calls of `parse_ho`. -/
def hoRequests (timeMs : Int) (f : HoFields) : C (List Request) := do
  let q := UInt16.ofInt f.queueNum
  -- `time_ms + gap_time` is an `int` sum
  let restart ← addInt timeMs f.gapTime
  let dropCnt ← hoDropCnt f
  return [(timeMs, .stopNfqueue q), (restart, .startNfqueue q), (timeMs, .setMark q (UInt32.ofInt f.mark))]
    ++ (if 0 < dropCnt then [(timeMs, .setDrop q 1 dropCnt)] else [])
    ++ (if 0 < f.reordCnt then
          [(timeMs, .setReorder q 1 (UInt16.ofInt f.reordCnt) (UInt16.ofInt f.reordOffset))] else [])

/-- `parse_ho`. -/
def parseHo (timeMs : Int) (data : Option (List Char)) (rest : List Char) : C (List Request) := do
  let f ← readHo data rest
  hoRequests timeMs f

/-- `parse_init`. -/
def parseInit (timeMs : Int) (data : Option (List Char)) (rest : List Char) : C (List Request) := do
  let queueNum ← intOf data
  let (mark, rest) ← nextInt rest
  let (endMs, _) ← nextInt rest
  let q := UInt16.ofInt queueNum
  return [(timeMs, .initNfqueue q), (endMs, .teardownNfqueue q), (timeMs, .startNfqueue q)]
    ++ (if 0 < mark then [(timeMs, .setMark q (UInt32.ofInt mark))] else [])

/-- `parse_handle_dup`. -/
def parseHandleDup (timeMs : Int) (data : Option (List Char)) (rest : List Char) : C (List Request) := do
  let queueNum ← intOf data
  let (enable, _) ← nextInt rest
  return [(timeMs, .setDedup (UInt16.ofInt queueNum) enable)]

/-- `parse_init_sched`. -/
def parseInitSched (timeMs : Int) (data : Option (List Char)) (rest : List Char) : C (List Request) := do
  let queueNum ← intOf data
  let (enableRw, rest) ← nextInt rest
  let (sampleInterval, rest) ← nextInt rest
  -- `strtol(tok, NULL, 0) / 100.0` is not converted to an `int` first
  let (threshold, rest) ← nextLong rest
  let (pace, rest) ← nextLong rest
  let (startTime, rest) ← nextInt rest
  let (p₁, rest) ← nextLink rest
  let (p₂, _) ← nextLink rest
  return [(timeMs, .initTcpSched (UInt16.ofInt queueNum) {
    enable := enableRw
    sampleInterval := sampleInterval
    threshold := threshold / 100
    pace := pace / 100
    fire := startTime
    mark := 1
    initParam := #v[⟨0, 0, 0⟩, p₁, p₂] })]
where
  nextLong (rest : List Char) : C (Int × List Char) :=
    match strtok rest with
    | none => .error .nullDeref
    | some (t, rest) => .ok (strtol t, rest)
  nextLink (rest : List Char) : C (LinkParameter × List Char) := do
    let (mark, rest) ← nextInt rest
    let (histRw, rest) ← nextInt rest
    let (rtt, rest) ← nextInt rest
    return (⟨mark, histRw, rtt⟩, rest)

/-- The fields of a `SOL_HO` line. -/
structure SolHoFields where
  queueNum : Int
  mark : Int
  enableFreeze : Int
  freezeMs : Int
  enableDedup : Int
  smoothMs : Int
  burstDuration : Int
  enableAdapt : Int
  deriving DecidableEq, Repr

def readSolHo (data : Option (List Char)) (rest : List Char) : C SolHoFields := do
  let queueNum ← intOf data
  let (mark, rest) ← nextInt rest
  let (enableFreeze, rest) ← nextInt rest
  let (freezeMs, rest) ← nextInt rest
  let (enableDedup, rest) ← nextInt rest
  let (smoothMs, rest) ← nextInt rest
  let (burstDuration, rest) ← nextInt rest
  let (enableAdapt, _) ← nextInt rest
  return { queueNum, mark, enableFreeze, freezeMs, enableDedup, smoothMs, burstDuration, enableAdapt }

/-- The calls of `parse_handle_solution`. -/
def solHoRequests (timeMs : Int) (f : SolHoFields) : C (List Request) := do
  let q := UInt16.ofInt f.queueNum
  let afterFreeze ← addInt timeMs f.freezeMs
  let dedup ←
    if 0 < f.enableDedup then do
      let stop ← addInt afterFreeze f.smoothMs
      pure [(afterFreeze, Action.setDedup q 1), (stop, Action.setDedup q 0)]
    else pure []
  let burst ←
    if 0 < f.burstDuration then do
      let stop ← addInt afterFreeze f.burstDuration
      pure [(afterFreeze, Action.setBurst q 1), (stop, Action.setBurst q 0)]
    else pure []
  let afterBurst ← addInt afterFreeze f.burstDuration
  return [(timeMs, .solUpdate q (UInt32.ofInt f.mark))]
    -- the clamp value is the mark
    ++ (if 0 < f.enableFreeze then [(timeMs, .setRwnd q (UInt16.ofInt f.mark))] else [])
    ++ dedup ++ burst
    ++ (if 0 < f.enableAdapt then [(afterBurst, .setAdapt q f.enableAdapt)] else [])

/-- `parse_handle_solution`. -/
def parseHandleSolution (timeMs : Int) (data : Option (List Char)) (rest : List Char) :
    C (List Request) := do
  let f ← readSolHo data rest
  solHoRequests timeMs f

/-- `event_type`. -/
inductive EventType
  | init | cmd | ho | solHandledup | solHandlerw | solInitSched | solHo | unknown
  deriving DecidableEq, Repr

/-- `get_event_type`. -/
def getEventType (s : List Char) : EventType :=
  if s = "INIT".toList then .init
  else if s = "CMD".toList then .cmd
  else if s = "HO".toList then .ho
  else if s = "SOL_HANDLEDUP".toList then .solHandledup
  else if s = "SOL_INIT_SCHED".toList then .solInitSched
  else if s = "SOL_HO".toList then .solHo
  else .unknown

/-- The scheduler calls of one line and the value `parse_event` returns for it. -/
def readEvent (text : List Char) : C (List Request × Int) :=
  match strtok text with
  | none => .error .nullDeref
  | some (time, rest) =>
    let timeMs := toInt (strtol time)
    match strtok rest with
    | none => .error .nullDeref
    | some (event, rest) =>
      -- the readers take the third token as it is, a null pointer too
      let (tok, rest) :=
        match strtok rest with
        | none => (none, [])
        | some (t, rest) => (some t, rest)
      let calls (rs : C (List Request)) : C (List Request × Int) := do
        let rs ← rs
        return (rs, 0)
      match getEventType event with
      | .init => calls (parseInit timeMs tok rest)
      | .cmd => calls (parseCmd timeMs tok)
      | .ho => calls (parseHo timeMs tok rest)
      | .solHandledup => calls (parseHandleDup timeMs tok rest)
      | .solInitSched => calls (parseInitSched timeMs tok rest)
      | .solHo => calls (parseHandleSolution timeMs tok rest)
      | _ => .ok ([], -1)

/-- `parse_event`. -/
def parseEvent (scheduler : SchedulerCtx Action) (text : List Char) : C (SchedulerCtx Action × Int) := do
  let (rs, ret) ← readEvent text
  return (addRequests scheduler rs, ret)

/-- The reading loop of `main`, one `parse_event` a line; its return value is ignored. -/
def parseTrace (scheduler : SchedulerCtx Action) : List (List Char) → C (SchedulerCtx Action)
  | [] => .ok scheduler
  | line :: lines => do
    let (scheduler, _) ← parseEvent scheduler line
    parseTrace scheduler lines

end Handoff
