import Handoff.Environment
import Handoff.ScheduleOrder
import Handoff.TraceFile

/- What of a trace decides an emulation.

   Of a trace file only the order of its requests at each time matters, and its shell commands do not: two
   files that agree so are emulated alike, call by call, whatever clocks the two runs read
   (`trace_decides`). The lines of a trace can be put in any order that keeps those of one time apart, and
   `CMD` lines can be added or left out, as long as the last action is not a command. -/
namespace Handoff

open StableSort

def Action.isCommand : Action → Bool
  | .command _ => true
  | _ => false

/-- `emuHandlers`, the handler calls counted without those that start a shell command: what the packet threads do
    around a command is done before the next call. -/
def emulationHandlers (env : Env) : Handlers Action (ActionCtx × Nat) where
  event a w := if a.isCommand then .ok w else (emuHandlers env).event a w
  tick := (emuHandlers env).tick

/-- `main` after `n` steps of `scheduler_run`: the trace file is read first. -/
def emulate (env : Env) (file : List Char) (clock : Nat → Nat) (w : TcpCtx × ActionCtx × Nat) (n : Nat) :
    C (RunState Action (ActionCtx × Nat)) := do
  let scheduler ← readInput schedulerInitCtx file
  return schedulerRun (emulationHandlers env) scheduler clock w n

theorem commands_idle (env : Env) : IdleActions (emulationHandlers env) Action.isCommand := by
  intro a ha w
  simp [emulationHandlers, ha]

/-! The schedule of requests. -/

/-- The requests in the order in which the scheduler comes to them. -/
def schedule (rs : List Request) : List (UInt64 × Action) :=
  (schedulerCalls rs).mergeSort fun c d => c.1.toNat ≤ d.1.toNat

/-- The actions requested for a time, shell commands apart. -/
def requestsAt (t : UInt64) (rs : List Request) : List (UInt64 × Action) :=
  (schedulerCalls rs).filter fun c => c.1 = t ∧ !c.2.isCommand

theorem schedule_sorted (rs : List Request) :
    StablySorted (fun c : UInt64 × Action => c.1.toNat) (schedulerCalls rs) (schedule rs) :=
  stablySorted_mergeSort _ _

theorem schedule_table (rs : List Request) :
    (qsortEvents (expansion 0 rs)).map (fun e => (e.timeMs, e.action)) = schedule rs := by
  have hstable : StablySorted SchedulerEvent.time (expansion 0 rs) (qsortEvents (expansion 0 rs)) := sorted_stably
    (by rw [expansion_calls]; exact (numberedEvents_idx _ 0).2) (qsortEvents_perm _) (qsortEvents_sorted _)
  have hmap := hstable.map (fun c : UInt64 × Action => c.1.toNat) (fun e => (e.timeMs, e.action)) fun _ => rfl
  rw [expansion_calls, numberedEvents_calls, ← expansion_calls] at hmap
  exact hmap.unique (schedule_sorted rs)

theorem schedule_eq {rs : List Request} (fs : List (SchedulerEvent Action)) (hperm : fs.Perm (expansion 0 rs))
    (hs : fs.Pairwise fun a b => schedulerCompareEvent a b < 0) : schedule rs = fs.map fun e => (e.timeMs, e.action) := by
  rw [← schedule_table, qsortEvents_unique hperm hs]

theorem busy_schedule (rs : List Request) :
    busy Action.isCommand (qsortEvents (expansion 0 rs)) = (schedule rs).filter fun c => !c.2.isCommand := by
  rw [← schedule_table, List.filter_map]
  rfl

/-- **Two traces have one schedule**, commands apart, exactly if they request the same for every time. -/
theorem schedule_iff (rs rs' : List Request) :
    ((schedule rs).filter fun c => !c.2.isCommand) = ((schedule rs').filter fun c => !c.2.isCommand) ↔
      ∀ t, requestsAt t rs = requestsAt t rs' := by
  rw [((schedule_sorted rs).filter _).eq_iff ((schedule_sorted rs').filter _)]
  have hat : ∀ (rs : List Request) (t : UInt64),
      ((schedulerCalls rs).filter fun c => !c.2.isCommand).filter (fun c => c.1.toNat = t.toNat) = requestsAt t rs := by
    intro rs t
    simp only [requestsAt, List.filter_filter, UInt64.toNat_inj, Bool.decide_and, Bool.decide_eq_true]
  constructor
  · intro h t
    rw [← hat, ← hat, h]
  · intro h k
    by_cases hk : k < 2^64
    · have hof : (UInt64.ofNat k).toNat = k := UInt64.toNat_ofNat_of_lt' hk
      have := h (UInt64.ofNat k)
      rwa [← hat, ← hat, hof] at this
    · -- no time is that large
      have hnone : ∀ rs : List Request,
          ((schedulerCalls rs).filter fun c => !c.2.isCommand).filter (fun c => c.1.toNat = k) = [] := by
        intro rs
        refine List.filter_eq_nil_iff.mpr fun c _ hc => ?_
        have := c.1.toNat_lt
        simp only [decide_eq_true_eq] at hc
        omega
      rw [hnone, hnone]

/-! Emulations. -/

/-- The last action of a trace is not a command. -/
def LastActs (rs : List Request) : Prop := ∀ c ∈ (schedule rs).getLast?, c.2.isCommand = false

theorem LastActs.busy {rs : List Request} (h : LastActs rs) : Busy Action.isCommand (qsortEvents (expansion 0 rs)) := by
  refine ⟨qsortEvents_times _, fun e he => ?_⟩
  refine h (e.timeMs, e.action) ?_
  rw [← schedule_table, List.getLast?_map, he]
  exact rfl

theorem CleanFile.read {file : List Char} (h : CleanFile file) :
    ∃ s, readInput schedulerInitCtx file = .ok s ∧ s.events = expansion 0 (fileRequests file) := by
  refine ⟨_, (readInput_handed file _).trans ((handed_iff file).mpr h.fits ▸ sound_requests h.sound _), ?_⟩
  exact (Room.table (by simpa [Room, schedulerInitCtx] using h.room)).trans (List.nil_append _)

/-- The traces request the same for every time, shell commands apart, and neither ends with a command. -/
structure SameRun (rs rs' : List Request) : Prop where
  at_times : ∀ t, requestsAt t rs = requestsAt t rs'
  last : LastActs rs
  last' : LastActs rs'

theorem trace_runs_agree (env : Env) {file file' : List Char} (hclean : CleanFile file) (hclean' : CleanFile file')
    (hsame : SameRun (fileRequests file) (fileRequests file')) (clock : Nat → Nat) {clock' : Nat → Nat}
    (hmono : Monotone clock') (hunb : ∀ b, ∃ n, b ≤ clock' n) (w : TcpCtx × ActionCtx × Nat) (n : Nat) :
    ∃ s, emulate env file clock w n = .ok s ∧
      ∃ m t, emulate env file' clock' w m = .ok t ∧ Agrees Action.isCommand s t := by
  obtain ⟨s, hread, hs⟩ := hclean.read
  obtain ⟨s', hread', hs'⟩ := hclean'.read
  have hbusy : busy Action.isCommand (qsortEvents s'.events) = busy Action.isCommand (qsortEvents s.events) := by
    rw [hs, hs', busy_schedule, busy_schedule, (schedule_iff _ _).mpr hsame.at_times]
  obtain ⟨m, hm⟩ := runs_agree clock (commands_idle env) (hs ▸ hsame.last.busy) (hs' ▸ hsame.last'.busy)
    hbusy hmono hunb w n
  have hrun : ∀ {file : List Char} {s : SchedulerCtx Action} (clock : Nat → Nat) (n : Nat),
      readInput schedulerInitCtx file = .ok s →
        emulate env file clock w n = .ok (schedulerRun (emulationHandlers env) s clock w n) := by
    intro file s clock n hread
    simp only [emulate, hread, C.ok_bind, C.pure_eq_ok]
  exact ⟨_, hrun clock n hread, m, _, hrun clock' m hread', agrees_of_view _ hm⟩

/-- **A trace decides an emulation by the order of its requests at each time.** If two clean files request the same
    for every time, shell commands apart, and neither ends with a command, then whatever an emulation of one
    of them has done at some point, an emulation of the other one gets to: the same calls for the same due times,
    in the same state, and the same end. -/
theorem trace_decides (env : Env) {file file' : List Char} (hclean : CleanFile file) (hclean' : CleanFile file')
    (hsame : SameRun (fileRequests file) (fileRequests file')) {clock clock' : Nat → Nat} (hmono : Monotone clock)
    (hunb : ∀ b, ∃ n, b ≤ clock n) (hmono' : Monotone clock') (hunb' : ∀ b, ∃ n, b ≤ clock' n)
    (w : TcpCtx × ActionCtx × Nat) (n : Nat) :
    (∃ s, emulate env file clock w n = .ok s ∧
        ∃ m t, emulate env file' clock' w m = .ok t ∧ Agrees Action.isCommand s t) ∧
      ∃ t, emulate env file' clock' w n = .ok t ∧
        ∃ m s, emulate env file clock w m = .ok s ∧ Agrees Action.isCommand t s := by
  have hback : SameRun (fileRequests file') (fileRequests file) :=
    ⟨fun t => (hsame.at_times t).symm, hsame.last', hsame.last⟩
  exact ⟨trace_runs_agree env hclean hclean' hsame clock hmono' hunb' w n,
    trace_runs_agree env hclean' hclean hback clock' hmono hunb w n⟩

/-- A short trace with a command, and its lines the other way round without the command. -/
def commandTrace : List Char := "0,INIT,0,1,100\n2,CMD,date\n50,SOL_HANDLEDUP,0,1\n".toList
def turnedTrace : List Char := "50,SOL_HANDLEDUP,0,1\n0,INIT,0,1,100\n".toList

/-- An environment in which the library does what it is asked for and no packet comes. -/
def calmEnv : Env := ⟨fun _ => quietLib, fun _ _ w => w⟩

theorem commandTrace_requests : fileRequests commandTrace =
    [(0, .initNfqueue 0), (100, .teardownNfqueue 0), (0, .startNfqueue 0), (0, .setMark 0 1),
      (2, .command "date\n".toList), (50, .setDedup 0 1)] := by
  decide +kernel

theorem turnedTrace_requests : fileRequests turnedTrace =
    [(50, .setDedup 0 1), (0, .initNfqueue 0), (100, .teardownNfqueue 0), (0, .startNfqueue 0), (0, .setMark 0 1)] := by
  decide +kernel

theorem trace_decides_turned :
    (∃ s, emulate calmEnv commandTrace id (zeroTcp, actionInitCtx, 0) 12 = .ok s ∧
        ∃ m t, emulate calmEnv turnedTrace (2 * ·) (zeroTcp, actionInitCtx, 0) m = .ok t ∧
          Agrees Action.isCommand s t) ∧
      ∃ t, emulate calmEnv turnedTrace (2 * ·) (zeroTcp, actionInitCtx, 0) 12 = .ok t ∧
        ∃ m s, emulate calmEnv commandTrace id (zeroTcp, actionInitCtx, 0) m = .ok s ∧
          Agrees Action.isCommand t s := by
  have hclean : CleanFile commandTrace := by refine ⟨?_, ?_, ?_⟩ <;> decide +kernel
  have hclean' : CleanFile turnedTrace := by refine ⟨?_, ?_, ?_⟩ <;> decide +kernel
  have hsched : schedule (fileRequests commandTrace) =
      [(0, .initNfqueue 0), (0, .startNfqueue 0), (0, .setMark 0 1), (2, .command "date\n".toList),
        (50, .setDedup 0 1), (100, .teardownNfqueue 0)] := by
    rw [commandTrace_requests, schedule_eq [⟨0, .initNfqueue 0, 0⟩, ⟨0, .startNfqueue 0, 2⟩, ⟨0, .setMark 0 1, 3⟩,
      ⟨2, .command "date\n".toList, 4⟩, ⟨50, .setDedup 0 1, 5⟩, ⟨100, .teardownNfqueue 0, 1⟩] (by decide) (by decide)]
    rfl
  have hsched' : schedule (fileRequests turnedTrace) =
      [(0, .initNfqueue 0), (0, .startNfqueue 0), (0, .setMark 0 1), (50, .setDedup 0 1),
        (100, .teardownNfqueue 0)] := by
    rw [turnedTrace_requests, schedule_eq [⟨0, .initNfqueue 0, 1⟩, ⟨0, .startNfqueue 0, 3⟩, ⟨0, .setMark 0 1, 4⟩,
      ⟨50, .setDedup 0 1, 0⟩, ⟨100, .teardownNfqueue 0, 2⟩] (by decide) (by decide)]
    rfl
  have hlast : LastActs (fileRequests commandTrace) := by
    unfold LastActs
    rw [hsched]
    decide
  have hlast' : LastActs (fileRequests turnedTrace) := by
    unfold LastActs
    rw [hsched']
    decide
  have hsame := (schedule_iff (fileRequests commandTrace) (fileRequests turnedTrace)).mp (by rw [hsched, hsched']; decide)
  exact trace_decides calmEnv hclean hclean' ⟨hsame, hlast, hlast'⟩ monotone_id (fun b => ⟨b, Nat.le_refl b⟩)
    (fun a b h => Nat.mul_le_mul_left 2 h) (fun b => ⟨b, by omega⟩) (zeroTcp, actionInitCtx, 0) 12

end Handoff
