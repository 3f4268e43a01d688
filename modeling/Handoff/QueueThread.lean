import Handoff.Action
import Handoff.Lib.Interleaving

/- The thread of a queue (`nfq_run`) beside the scheduler's thread.

   The two share the status word of the queue's `nfq_ctx`. The scheduler's thread allocates
   it, starts the thread at the end of `nfq_init`, and stores to the word in `nfq_start`,
   `nfq_stop` and `nfq_teardown`; the queue's thread loads it at the top of its loop, then
   waits in `recv`, then hands the message to the callback. All of these are atomic steps,
   and an interleaving is any order of them.

   Between the load and the use of its value lies the wait in `recv`, so a stop does not
   hold back a packet the thread is already waiting for; but it lets only that one through
   (`stopped_queue_hands_one`). `nfq_init` does not write the word before the thread runs, so
   whether the queue waits for its first `nfq_start` is up to what `malloc` returned
   (`waits_for_start_iff`). -/
namespace Handoff

open Interleaving

/-- Where the queue's thread is. -/
inductive ThreadPc
  | unborn
  | load
  | recv
  | handle (nfa : NfqData)
  | exited
  deriving DecidableEq

/-- Where the scheduler's thread is in `action_init_nfqueue`; `ready` is after it. -/
inductive InitPc
  | library
  | queueNum
  | fd
  | create
  | publish
  | ready
  | exit
  deriving DecidableEq

/-- The two threads and the word they share. -/
structure QueueThreads where
  nfq : NfqCtx
  pc : ThreadPc
  main : InitPc
  deriving DecidableEq

/-- An atomic step of one of the threads. `library` stands for the calls of `nfq_init` up to
    `nfq_set_queue_maxlen`; `other` is any action that stores to no `nfq_ctx`. -/
inductive ThreadEvent
  | library (ok : Bool)
  | queueNum (q : UInt16)
  | fd
  | create (ok : Bool)
  | publish
  | start
  | stop
  | teardown (ok : Bool)
  | other
  | load (status : Int)
  | recv (msg : Option NfqData)
  | handle (nfa : NfqData)
  deriving DecidableEq

/-- The `switch` of `nfq_run`. It has no default: a word that is none of the three falls through. -/
def nfqRunSwitch (status : Int) : ThreadPc :=
  if status = nfqRunning then .recv
  else if status = nfqStopped then .load
  else if status = nfqDead then .exited
  else .recv

/-- A step, where it can happen. -/
def threadStep (s : QueueThreads) : ThreadEvent → Option QueueThreads
  -- a failure of the library ends the process
  | .library ok => if s.main = .library then some { s with main := if ok then .queueNum else .exit } else none
  | .queueNum q =>
    if s.main = .queueNum then some { s with main := .fd, nfq := { s.nfq with queueNum := q } } else none
  | .fd => if s.main = .fd then some { s with main := .create } else none
  | .create ok =>
    if s.main = .create then
      some (if ok then { s with main := .publish, pc := .load } else { s with main := .exit })
    else none
  | .publish => if s.main = .publish then some { s with main := .ready } else none
  | .start => if s.main = .ready then some { s with nfq := nfqStart s.nfq } else none
  | .stop => if s.main = .ready then some { s with nfq := nfqStop s.nfq } else none
  | .teardown ok => if s.main = .ready then some { s with nfq := (nfqTeardown s.nfq ok).1 } else none
  | .other => if s.main = .ready then some s else none
  | .load status =>
    if s.pc = .load ∧ status = s.nfq.status then some { s with pc := nfqRunSwitch status } else none
  | .recv msg =>
    if s.pc = .recv then
      some { s with pc := match msg with | none => .load | some nfa => .handle nfa }
    else none
  | .handle nfa => if s.pc = .handle nfa then some { s with pc := .load } else none

/-- A packet is handed to the callback. -/
def ThreadEvent.hands : ThreadEvent → Bool
  | .handle _ => true
  | _ => false

/-- The word is one the loop does not go on with. -/
def Held (s : QueueThreads) : Prop := s.nfq.status = nfqStopped ∨ s.nfq.status = nfqDead

/-- The packets the thread may still hand over without loading the word again. -/
def inHand : ThreadPc → Nat
  | .recv => 1
  | .handle _ => 1
  | _ => 0

theorem inHand_le (pc : ThreadPc) : inHand pc ≤ 1 := by
  cases pc <;> simp [inHand]

theorem nfqRunSwitch_held {s : QueueThreads} (h : Held s) : inHand (nfqRunSwitch s.nfq.status) = 0 := by
  obtain h | h := h <;> rw [h] <;> rfl

/-- **While the word is held**, a packet handed over is one the thread had in hand. -/
theorem held_step {s s' : QueueThreads} {e : ThreadEvent} (h : Held s) (he : e ≠ .start)
    (hs : threadStep s e = some s') :
    Held s' ∧ (if e.hands then 1 else 0) + inHand s'.pc ≤ inHand s.pc := by
  cases e with
  | start => exact absurd rfl he
  | stop =>
    simp only [threadStep, Option.ite_none_right_eq_some, Option.some.injEq] at hs
    obtain ⟨-, rfl⟩ := hs
    exact ⟨.inl rfl, by simp [ThreadEvent.hands]⟩
  | teardown ok =>
    simp only [threadStep, Option.ite_none_right_eq_some, Option.some.injEq] at hs
    obtain ⟨-, rfl⟩ := hs
    exact ⟨.inr rfl, by simp [ThreadEvent.hands]⟩
  | load status =>
    simp only [threadStep, Option.ite_none_right_eq_some, Option.some.injEq] at hs
    obtain ⟨⟨-, rfl⟩, rfl⟩ := hs
    exact ⟨h, by simp [ThreadEvent.hands, nfqRunSwitch_held h]⟩
  | recv msg =>
    simp only [threadStep, Option.ite_none_right_eq_some, Option.some.injEq] at hs
    obtain ⟨hpc, rfl⟩ := hs
    refine ⟨h, ?_⟩
    rw [hpc]
    cases msg <;> simp [ThreadEvent.hands, inHand]
  | handle nfa =>
    simp only [threadStep, Option.ite_none_right_eq_some, Option.some.injEq] at hs
    obtain ⟨hpc, rfl⟩ := hs
    refine ⟨h, ?_⟩
    rw [hpc]
    simp [ThreadEvent.hands, inHand]
  | create ok =>
    simp only [threadStep, Option.ite_none_right_eq_some, Option.some.injEq] at hs
    obtain ⟨-, rfl⟩ := hs
    cases ok
    · exact ⟨h, by simp [ThreadEvent.hands]⟩
    · exact ⟨h, by simp [ThreadEvent.hands, inHand]⟩
  | _ =>
    simp only [threadStep, Option.ite_none_right_eq_some, Option.some.injEq] at hs
    obtain ⟨-, rfl⟩ := hs
    exact ⟨h, by simp [ThreadEvent.hands]⟩

theorem held_run {s s' : QueueThreads} {es : List ThreadEvent} (h : Runs threadStep s es s') (h0 : Held s)
    (he : .start ∉ es) : Held s' ∧ es.countP ThreadEvent.hands + inHand s'.pc ≤ inHand s.pc := by
  refine Runs.budget (F := fun e => e ≠ .start) (fun s e s' hI hF hs => held_step hI hF hs) h h0 ?_
  exact fun e hmem heq => he (heq ▸ hmem)

/-- Nothing starts or stops the queue after its teardown. -/
def TornLast (es : List ThreadEvent) : Prop :=
  ∀ pre ok post, es = pre ++ .teardown ok :: post → .start ∉ post ∧ .stop ∉ post

theorem dead_step {s s' : QueueThreads} {e : ThreadEvent} (h : s.nfq.status = nfqDead)
    (he : e ≠ .start ∧ e ≠ .stop) (hs : threadStep s e = some s') :
    s'.nfq.status = nfqDead ∧ e ≠ .load nfqRunning := by
  cases e with
  | start => exact absurd rfl he.1
  | stop => exact absurd rfl he.2
  | load status =>
    simp only [threadStep, Option.ite_none_right_eq_some, Option.some.injEq] at hs
    obtain ⟨⟨-, rfl⟩, rfl⟩ := hs
    refine ⟨h, ?_⟩
    rw [h]
    simp [nfqDead, nfqRunning]
  | teardown ok =>
    simp only [threadStep, Option.ite_none_right_eq_some, Option.some.injEq] at hs
    obtain ⟨-, rfl⟩ := hs
    exact ⟨rfl, by simp⟩
  | create ok =>
    simp only [threadStep, Option.ite_none_right_eq_some, Option.some.injEq] at hs
    obtain ⟨-, rfl⟩ := hs
    cases ok <;> exact ⟨h, by simp⟩
  | _ =>
    simp only [threadStep, Option.ite_none_right_eq_some, Option.some.injEq] at hs
    obtain ⟨-, rfl⟩ := hs
    exact ⟨h, by simp⟩

/-- **A stopped queue hands over at most one more packet**, in every interleaving and wherever the threads
    stood: one between a stop and the next start, none of them after the loop has looked at the
    word; and one after a teardown, after which the loop never finds the queue running. -/
theorem stopped_queue_hands_one {s s' : QueueThreads} {es : List ThreadEvent} (h : Runs threadStep s es s')
    (hlast : TornLast es) :
    (∀ pre mid post, es = pre ++ .stop :: (mid ++ post) → .start ∉ mid → mid.countP ThreadEvent.hands ≤ 1) ∧
    (∀ pre ok post, es = pre ++ .teardown ok :: post →
      post.countP ThreadEvent.hands ≤ 1 ∧ .load nfqRunning ∉ post) ∧
    (∀ pre mid status late post, es = pre ++ .stop :: (mid ++ .load status :: (late ++ post)) → .start ∉ mid →
      .start ∉ late → late.countP ThreadEvent.hands = 0) := by
  -- the state a stop or a teardown leaves
  have hstore : ∀ {pre e post}, es = pre ++ e :: post → (e = .stop ∨ ∃ ok, e = .teardown ok) →
      ∃ s₁, Held s₁ ∧ ((∃ ok, e = .teardown ok) → s₁.nfq.status = nfqDead) ∧ Runs threadStep s₁ post s' := by
    intro pre e post hes he
    rw [hes] at h
    obtain ⟨s₀, -, h₂⟩ := h.split
    cases h₂ with
    | @cons _ s₁ _ _ _ head tail =>
      refine ⟨s₁, ?_, ?_, tail⟩
      · obtain rfl | ⟨ok, rfl⟩ := he
        · simp only [threadStep, Option.ite_none_right_eq_some, Option.some.injEq] at head
          exact .inl (by rw [← head.2]; rfl)
        · simp only [threadStep, Option.ite_none_right_eq_some, Option.some.injEq] at head
          exact .inr (by rw [← head.2]; rfl)
      · intro ⟨ok, hok⟩
        subst hok
        simp only [threadStep, Option.ite_none_right_eq_some, Option.some.injEq] at head
        rw [← head.2]
        rfl
  refine ⟨?_, ?_, ?_⟩
  · intro pre mid post hes hmid
    obtain ⟨s₁, hheld, -, hrun⟩ := hstore hes (.inl rfl)
    obtain ⟨s₂, hm, -⟩ := hrun.split
    have hb := (held_run hm hheld hmid).2
    have h1 := inHand_le s₁.pc
    omega
  · intro pre ok post hes
    obtain ⟨s₁, hheld, hdead, hrun⟩ := hstore hes (.inr ⟨ok, rfl⟩)
    obtain ⟨hstart, hstop⟩ := hlast pre ok post hes
    have hb := (held_run hrun hheld hstart).2
    have h1 := inHand_le s₁.pc
    refine ⟨by omega, fun hload => ?_⟩
    refine Runs.events (F := fun e => e ≠ .start ∧ e ≠ .stop) (fun s e s' hI hF hs => dead_step hI hF hs) hrun
      (hdead ⟨ok, rfl⟩) ?_ _ hload rfl
    exact fun e he => ⟨fun heq => hstart (heq ▸ he), fun heq => hstop (heq ▸ he)⟩
  · intro pre mid status late post hes hmid hlate
    obtain ⟨s₁, hheld, -, hrun⟩ := hstore hes (.inl rfl)
    obtain ⟨s₂, hm, hrest⟩ := hrun.split
    have hheld₂ := (held_run hm hheld hmid).1
    cases hrest with
    | @cons _ s₃ _ _ _ head tail =>
      obtain ⟨s₄, hl, -⟩ := tail.split
      have hheld₃ := (held_step hheld₂ (by simp) head).1
      have hzero : inHand s₃.pc = 0 := by
        simp only [threadStep, Option.ite_none_right_eq_some, Option.some.injEq] at head
        obtain ⟨⟨-, rfl⟩, rfl⟩ := head
        exact nfqRunSwitch_held hheld₂
      have hb := (held_run hl hheld₃ hlate).2
      omega

theorem tornLast_of_end {es : List ThreadEvent} {ok : Bool} (h : ∀ ok, .teardown ok ∉ es) :
    TornLast (es ++ [.teardown ok]) := by
  intro pre ok' post heq
  obtain rfl | ⟨post', e, rfl⟩ := post.eq_nil_or_concat
  · simp
  · rw [List.concat_eq_append, ← List.cons_append, ← List.append_assoc] at heq
    have hes := (List.append_inj' heq rfl).1
    exact absurd (hes ▸ List.mem_append_right pre List.mem_cons_self) (h ok')

/-! A queue opened, started, stopped while its thread waits, and torn down. -/

def freshNfq : NfqCtx := ⟨0, 0⟩

/-- The steps of `action_init_nfqueue` when the library agrees. -/
def initEvents (q : UInt16) : List ThreadEvent := [.library true, .queueNum q, .fd, .create true, .publish]

def stoppedEvents : List ThreadEvent :=
  initEvents 0 ++ [.start, .load 1, .stop, .recv (some (emptyNfa 1)), .handle (emptyNfa 1), .load 0, .start, .load 1,
    .recv none, .teardown true]
where
  emptyNfa (id : UInt32) : NfqData := ⟨id, some []⟩

theorem stopped_queue_hands_one_waiting :
    ∃ s', Runs threadStep ⟨freshNfq, .unborn, .library⟩ stoppedEvents s' ∧
      ((stoppedEvents.drop 8).take 3).countP ThreadEvent.hands ≤ 1 := by
  have hrun : ∃ s', Runs threadStep ⟨freshNfq, .unborn, .library⟩ stoppedEvents s' :=
    ⟨_, .cons rfl (.cons rfl (.cons rfl (.cons rfl (.cons rfl (.cons rfl (.cons rfl (.cons rfl (.cons rfl (.cons rfl
      (.cons rfl (.cons rfl (.cons rfl (.cons rfl (.cons rfl (.nil _)))))))))))))))⟩
  obtain ⟨s', hs'⟩ := hrun
  refine ⟨s', hs', ?_⟩
  have hlast : TornLast (stoppedEvents.dropLast ++ [.teardown true]) := tornLast_of_end (by decide)
  exact (stopped_queue_hands_one hs' hlast).1 (stoppedEvents.take 7) _ (stoppedEvents.drop 11) rfl (by decide)

/-! The time before the first start. -/

/-- No packet is handed over before a start, and the thread does not find the word dead before a
    teardown, so that it does not exit. -/
structure WaitsForStart (es : List ThreadEvent) : Prop where
  packets : ∀ pre nfa post, es = pre ++ .handle nfa :: post → .start ∈ pre
  alive : ∀ pre post, es = pre ++ .load nfqDead :: post → ∃ ok, .teardown ok ∈ pre

/-- Only a teardown makes the word dead. -/
theorem alive_step {s s' : QueueThreads} {e : ThreadEvent} (h : s.nfq.status ≠ nfqDead)
    (he : ∀ ok, e ≠ .teardown ok) (hs : threadStep s e = some s') : s'.nfq.status ≠ nfqDead := by
  cases e with
  | teardown ok => exact absurd rfl (he ok)
  | start =>
    simp only [threadStep, Option.ite_none_right_eq_some, Option.some.injEq] at hs
    obtain ⟨-, rfl⟩ := hs
    simp [nfqStart, nfqRunning, nfqDead]
  | stop =>
    simp only [threadStep, Option.ite_none_right_eq_some, Option.some.injEq] at hs
    obtain ⟨-, rfl⟩ := hs
    simp [nfqStop, nfqStopped, nfqDead]
  | create ok =>
    simp only [threadStep, Option.ite_none_right_eq_some, Option.some.injEq] at hs
    obtain ⟨-, rfl⟩ := hs
    cases ok <;> exact h
  | _ =>
    simp only [threadStep, Option.ite_none_right_eq_some, Option.some.injEq] at hs
    obtain ⟨-, rfl⟩ := hs
    exact h

theorem before_event {s s' : QueueThreads} {pre post : List ThreadEvent} {e : ThreadEvent}
    (h : Runs threadStep s (pre ++ e :: post) s') :
    ∃ s₁ s₂, Runs threadStep s pre s₁ ∧ threadStep s₁ e = some s₂ := by
  obtain ⟨s₁, h₁, h₂⟩ := h.split
  cases h₂ with
  | cons head _ => exact ⟨s₁, _, h₁, head⟩

/-- The thread as `action_init_nfqueue` starts with memory `mem` for the `nfq_ctx`. -/
def initThreads (mem : NfqCtx) : QueueThreads := ⟨mem, .unborn, .library⟩

theorem stopped_waits {mem : NfqCtx} (h : mem.status = nfqStopped) {es : List ThreadEvent} {s' : QueueThreads}
    (hr : Runs threadStep (initThreads mem) es s') : WaitsForStart es := by
  constructor
  · intro pre nfa post hes
    by_contra hstart
    rw [hes] at hr
    obtain ⟨s₁, s₂, hpre, hhand⟩ := before_event hr
    have hb := (held_run hpre (.inl h) hstart).2
    simp only [threadStep, Option.ite_none_right_eq_some] at hhand
    rw [hhand.1] at hb
    simp [initThreads, inHand] at hb
  · intro pre post hes
    by_contra hdown
    rw [hes] at hr
    obtain ⟨s₁, s₂, hpre, hload⟩ := before_event hr
    simp only [threadStep, Option.ite_none_right_eq_some] at hload
    have halive : s₁.nfq.status ≠ nfqDead := by
      refine Runs.invariant (I := fun s => s.nfq.status ≠ nfqDead) (F := fun e : ThreadEvent => ∀ ok, e ≠ .teardown ok)
        (fun s e s' hI hF hs => alive_step hI hF hs) hpre ?_ ?_
      · simp only [initThreads, h]
        decide
      · exact fun e he ok heq => hdown ⟨ok, heq ▸ he⟩
    exact halive hload.1.2.symm

theorem init_runs (mem : NfqCtx) :
    Runs threadStep (initThreads mem) (initEvents 0) ⟨{ mem with queueNum := 0 }, .load, .ready⟩ :=
  .cons rfl (.cons rfl (.cons rfl (.cons rfl (.cons rfl (.nil _)))))

/-- **A queue waits for its first start, in every interleaving, if and only if the memory of its `nfq_ctx`
    happens to say that it is stopped.** -/
theorem waits_for_start_iff (mem : NfqCtx) :
    (∀ es s', Runs threadStep (initThreads mem) es s' → WaitsForStart es) ↔ mem.status = nfqStopped := by
  constructor
  · intro h
    by_contra hne
    by_cases hdead : mem.status = nfqDead
    · -- the thread loads the dead word at once
      have hrun : Runs threadStep (initThreads mem) (initEvents 0 ++ [.load nfqDead])
          ⟨{ mem with queueNum := 0 }, .exited, .ready⟩ :=
        (init_runs mem).append (.cons (by simp [threadStep, hdead, nfqRunSwitch, nfqDead, nfqRunning, nfqStopped]) (.nil _))
      obtain ⟨ok, hok⟩ := (h _ _ hrun).alive (initEvents 0) [] rfl
      simp [initEvents] at hok
    · -- any other word falls through to `recv`
      have hsw : nfqRunSwitch mem.status = .recv := by
        unfold nfqRunSwitch
        rw [if_neg hne, if_neg hdead, ite_self]
      have hrun : Runs threadStep (initThreads mem)
          (initEvents 0 ++ [.load mem.status, .recv (some ⟨1, none⟩), .handle ⟨1, none⟩])
          ⟨{ mem with queueNum := 0 }, .load, .ready⟩ := by
        have hload : threadStep ⟨{ mem with queueNum := 0 }, .load, .ready⟩ (.load mem.status) =
            some ⟨{ mem with queueNum := 0 }, .recv, .ready⟩ := by
          simp [threadStep, hsw]
        exact (init_runs mem).append (.cons hload (.cons rfl (.cons rfl (.nil _))))
      have hstart := (h _ _ hrun).packets (initEvents 0 ++ [.load mem.status, .recv (some ⟨1, none⟩)]) ⟨1, none⟩ []
        (by simp)
      simp [initEvents] at hstart
  · exact fun h es s' hr => stopped_waits h hr

/-- Memory that `malloc` returns with a 1 in the word: the packet is handed over before any start. -/
theorem garbage_word_drains :
    ¬ ∀ (mem : NfqCtx) es s', Runs threadStep (initThreads mem) es s' → WaitsForStart es := by
  intro h
  have hrun : Runs threadStep (initThreads ⟨0, 1⟩)
      (initEvents 0 ++ [.load 1, .recv (some ⟨1, some []⟩), .handle ⟨1, some []⟩]) ⟨⟨0, 1⟩, .load, .ready⟩ :=
    (init_runs _).append (.cons rfl (.cons rfl (.cons rfl (.nil _))))
  have hstart := (h ⟨0, 1⟩ _ _ hrun).packets (initEvents 0 ++ [.load 1, .recv (some ⟨1, some []⟩)]) ⟨1, some []⟩ [] rfl
  simp [initEvents] at hstart

end Handoff
