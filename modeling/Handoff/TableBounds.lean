import Handoff.EventTable
import Handoff.History

/- The indices of the controller's tables.

   No action checks the queue number or the link it indexes a table with. `InBounds` says that a
   computation does not leave a table; an action stays in bounds if its queue and its link are
   entries and, where it looks up the current link, that is one too (`action_inBounds`). The current
   link is set by `SOL_INIT_SCHED`, until when it is what the memory of `main` held (`link_run`). -/
namespace Handoff

open Iterate

/-! Computations that stay in bounds. -/

/-- The computation is not ended by an index out of bounds. -/
def InBounds {α : Type} (x : C α) : Prop := x ≠ .error .outOfBounds

namespace InBounds
variable {α β : Type} {n : Nat}

theorem ok (a : α) : InBounds (.ok a) := fun h => by cases h

theorem error {f : Fault} (h : f ≠ .outOfBounds) : InBounds (.error f : C α) := fun hf => h (Except.error.inj hf)

theorem of_defined {x : C α} (h : Defined x) : InBounds x := by
  obtain ⟨a, rfl⟩ := h
  exact ok a

theorem bind {x : C α} {f : α → C β} (hx : InBounds x) (hf : ∀ a, x = .ok a → InBounds (f a)) : InBounds (x >>= f) := by
  cases hxa : x with
  | error e =>
    intro h
    cases h
    exact hx hxa
  | ok a => exact hf a hxa

theorem ite {c : Prop} [Decidable c] {x y : C α} (hx : c → InBounds x) (hy : ¬ c → InBounds y) :
    InBounds (if c then x else y) := by
  by_cases h : c
  · rw [if_pos h]
    exact hx h
  · rw [if_neg h]
    exact hy h

end InBounds

/-! The actions. -/

section Tables
variable {tab : Vector (Option Nat) actionMaxNfqueue} {heap : List QueueObj} {q : UInt16}

theorem deref_inBounds (h : q.toNat < actionMaxNfqueue) : InBounds (deref tab heap q) := by
  unfold deref
  apply InBounds.bind (.of_defined (defined_readAt.mpr ⟨Int.natCast_nonneg _, h⟩))
  intro entry _
  rcases entry with _ | p
  · exact .error (by decide)
  · dsimp only
    rcases heap[p]? with _ | o
    · exact .error (by decide)
    · exact .ok _

theorem writeAt_inBounds {x : Option Nat} (h : q.toNat < actionMaxNfqueue) : InBounds (writeAt tab q.toNat x) :=
  .of_defined (defined_writeAt.mpr ⟨Int.natCast_nonneg _, h⟩)

end Tables

/-- The queue an action is for is an entry of the tables, and so is the link a `SOL_HO` event switches to. -/
structure Action.InTables (a : Action) : Prop where
  queue : ∀ q, a.queue? = some q → q.toNat < actionMaxNfqueue
  link : ∀ q mark, a = .solUpdate q mark → mark.toNat < 3

/-- The actions that look up the current link. -/
def Action.ReadsLink : Action → Prop
  | .solUpdate _ _ => True
  | .setBurst _ _ => True
  | .setAdapt _ _ => True
  | _ => False

section Actions
variable {lib : LibCalls} {e : Emulator} {a : Action}

/-- A `SOL_INIT_SCHED` action starts on link 1. -/
def Action.OnLinkOne (a : Action) : Prop := ∀ q args, a = .initTcpSched q args → args.mark = 1

theorem body_ready {w : WorkerCtx} {t : TcpCtx} (ha : a.InTables) (hone : a.OnLinkOne)
    (hlink : a.ReadsLink → InTable 3 t.mark) : BodyReady a w t := by
  cases a with
  | solUpdate q mark => exact ⟨fun _ => hlink trivial, Int.natCast_nonneg _, ha.link q mark rfl⟩
  | setBurst q enable => exact hlink trivial
  | setAdapt q enable => exact hlink trivial
  | initTcpSched q args =>
    show InTable 3 args.mark
    rw [hone q args rfl]
    decide
  | _ => trivial

/-- **An action stays in bounds** if its queue and the links it looks up are entries of their tables. -/
theorem action_inBounds (ha : a.InTables) (hone : a.OnLinkOne) (hlink : a.ReadsLink → InTable 3 e.tcp.mark) :
    InBounds (runAction lib e a) := by
  rcases hb : a.body? with _ | ⟨q, f⟩
  · cases a with
    | command c => exact .ok _
    | initNfqueue q =>
      have hq := ha.queue q rfl
      apply InBounds.ite
      · exact fun _ => (writeAt_inBounds hq).bind fun _ _ => (writeAt_inBounds hq).bind fun _ _ => .ok _
      · exact fun _ => .error (by decide)
    | startNfqueue q => exact (deref_inBounds (ha.queue q rfl)).bind fun _ _ => .ok _
    | stopNfqueue q => exact (deref_inBounds (ha.queue q rfl)).bind fun _ _ => .ok _
    | teardownNfqueue q =>
      have hq := ha.queue q rfl
      apply (deref_inBounds hq).bind
      intro ⟨p, o⟩ _
      apply InBounds.ite
      · exact fun _ => .ok _
      · intro _
        apply (deref_inBounds hq).bind
        intro ⟨w, o⟩ _
        exact (writeAt_inBounds hq).bind fun _ _ => (writeAt_inBounds hq).bind fun _ _ => .ok _
    | _ => cases hb
  · rw [runAction_body lib e hb]
    apply (deref_inBounds (ha.queue q (Action.queue_of_body hb))).bind
    intro ⟨p, o⟩ _
    exact (InBounds.of_defined ((defined_body hb p _ _).mpr (body_ready ha hone hlink))).bind fun _ _ => .ok _

theorem tick_inBounds {t : TcpCtx} {x : ActionCtx} (h : InTable 3 t.mark ∨ t.wkctx = none) : InBounds (tick t x) := by
  unfold tick
  rcases hw : t.wkctx with _ | p
  · exact .error (by decide)
  · have hmark := h.resolve_right (by simp [hw])
    dsimp only
    rcases x.heap[p]? with _ | o
    · exact .error (by decide)
    · exact (InBounds.of_defined (defined_tcpSchedule.mpr fun _ => hmark)).bind fun _ _ => .ok _

/-- A `SOL_INIT_SCHED` action puts the sampler on an entry of the table. -/
theorem config_link {q : UInt16} {args : InitTcpSchedArgs} (hone : args.mark = 1) :
    Returns (fun e' => InTable 3 e'.tcp.mark) (runAction lib e (.initTcpSched q args)) := by
  rw [runAction_body lib e rfl]
  apply Returns.bind_any
  intro ⟨p, o⟩
  apply Returns.bind (P := fun r => r.2.mark = 1)
  · exact Returns.bind_any fun _ => Returns.bind_any fun _ => .ok hone
  · intro r hr
    apply Returns.ok
    rw [hr]
    decide

theorem action_link (ha : a.InTables) (hone : a.OnLinkOne) (h : InTable 3 e.tcp.mark) :
    Returns (fun e' => InTable 3 e'.tcp.mark) (runAction lib e a) := by
  by_cases hinit : ∃ q args, a = .initTcpSched q args
  · obtain ⟨q, args, rfl⟩ := hinit
    exact config_link (hone q args rfl)
  · have hper : Periods (fun _ => True) (InTable 3) e.tcp := ⟨trivial, trivial, fun _ _ _ _ => trivial, h⟩
    have hgives : a.Gives (fun _ => True) (InTable 3) := by
      cases a with
      | solUpdate q mark =>
        have hlt := ha.link q mark rfl
        have hsame : toInt mark.toNat = mark.toNat := by
          apply Int.bmod_eq_of_le <;> omega
        show InTable 3 (toInt mark.toNat)
        rw [hsame]
        exact ⟨Int.natCast_nonneg _, hlt⟩
      | initTcpSched q args => exact absurd ⟨q, args, rfl⟩ hinit
      | _ => trivial
    exact (action_periods hgives hper).mono fun _ h => h.link

theorem action_unlinked (h : e.tcp.wkctx = none) (hinit : ∀ q args, a ≠ .initTcpSched q args) :
    Returns (fun e' => e'.tcp.wkctx = none) (runAction lib e a) :=
  action_returns (Q := fun t => t.wkctx = none) h fun _ _ hb pos _ =>
    (body_link hb hinit pos).mono fun _ hr => hr.2.trans h

end Actions

/-! The run. -/

section Run
variable {env : Env} {events : List (SchedulerEvent Action)} {clock : Nat → Nat}

/-- The sampler is on an entry of the table, or it started out at a link that is none, and has not been configured. -/
def LinkKnown (start : Int) (es : List (SchedulerEvent Action)) (t : TcpCtx) : Prop :=
  InTable 3 t.mark ∨
    (¬ InTable 3 start ∧ t.wkctx = none ∧ ∀ e ∈ es, ∀ q args, e.action ≠ .initTcpSched q args)

theorem link_run (htables : ∀ e ∈ events, e.action.InTables) (hone : ∀ e ∈ events, e.action.OnLinkOne)
    (r : ActionCtx × Nat) {t : TcpCtx} (ht : t.wkctx = none) :
    Always (schedulerStep (emuHandlers env) events clock)
      (fun s => executed s ⊆ events → LinkKnown t.mark (executed s) s.world.1) (schedulerStart (t, r)) := by
  refine history_run (I := fun es t' _ => es ⊆ events → LinkKnown t.mark es t') ?_ ?_ ?_ ?_ ?_
  · intro _
    by_cases hmark : InTable 3 t.mark
    · exact .inl hmark
    · exact .inr ⟨hmark, ht, fun e he => by cases he⟩
  · exact fun es t' x k h => h
  · exact fun es t' x h => h
  · intro es t' x k e emu h hrun hsub
    have he : e ∈ events := hsub (by simp)
    have hknown : LinkKnown t.mark es t' := h fun a ha => hsub (List.mem_append_left _ ha)
    obtain hmark | ⟨hstart, hnone, hbefore⟩ := hknown
    · exact .inl ((action_link (htables e he) (hone e he) hmark).value emu hrun)
    · by_cases hinit : ∃ q args, e.action = .initTcpSched q args
      · obtain ⟨q, args, hact⟩ := hinit
        rw [hact] at hrun
        exact .inl ((config_link (hone e he q args hact)).value emu hrun)
      · have hinit' : ∀ q args, e.action ≠ .initTcpSched q args := fun q args h => hinit ⟨q, args, h⟩
        refine .inr ⟨hstart, (action_unlinked hnone hinit').value emu hrun, fun a ha => ?_⟩
        obtain ha | ha := List.mem_append.mp ha
        · exact hbefore a ha
        · rw [List.mem_singleton.mp ha]
          exact hinit'
  · exact fun es t' x x' h _ => h

/-- The links a run looks up are known: the memory of `main` holds one, or every event that looks one up comes after
    a `SOL_INIT_SCHED` event. -/
def LinksKnown (start : Int) (events : List (SchedulerEvent Action)) : Prop :=
  InTable 3 start ∨ ∀ e ∈ events, e.action.ReadsLink →
    ∃ e' ∈ events, (∃ q args, e'.action = .initTcpSched q args) ∧ schedulerCompareEvent e' e < 0

theorem call_inBounds (hstrict : events.Pairwise fun a b => schedulerCompareEvent a b < 0)
    (htables : ∀ e ∈ events, e.action.InTables) (hone : ∀ e ∈ events, e.action.OnLinkOne) {start : Int}
    (hlinks : LinksKnown start events) {s : EmuState} (hix : Indexed events s)
    (hknown : LinkKnown start (executed s) s.world.1) {due : UInt64} {hd : Handler Action} {si : Int}
    (hpc : s.pc = .wait due hd si) : InBounds ((emuHandlers env).call hd s.world) := by
  cases hd with
  | tick => exact ((tick_inBounds (hknown.imp_right fun h => h.2.1)).bind fun _ _ => .ok _).bind fun _ _ => .ok _
  | event e =>
    simp only [Indexed, hpc] at hix
    obtain ⟨k, -, hes, hek⟩ := hix
    have he := List.mem_of_getElem? hek
    refine (action_inBounds (htables e he) (hone e he) fun hreads => ?_).bind fun _ _ => .ok _
    obtain hmark | ⟨hstart, -, hfree⟩ := hknown
    · exact hmark
    · -- a configuration comes before it, and has been executed
      obtain ⟨e', he', ⟨q, args, hact⟩, hlt⟩ := hlinks.resolve_left hstart e he hreads
      have hexec : e' ∈ executed s := by
        rw [hes]
        exact (mem_take_iff hstrict hek).mpr ⟨he', hlt⟩
      exact absurd hact (hfree e' hexec q args)

end Run

theorem parseInitSched_onLinkOne (timeMs : Int) (data : Option (List Char)) (rest : List Char) :
    Returns (AllActions Action.OnLinkOne) (parseInitSched timeMs data rest) := by
  unfold parseInitSched
  iterate 8 refine Returns.bind_any fun _ => ?_
  refine .ok (.cons ?_ .nil)
  intro q args h
  cases h
  rfl

/-- **A run whose events name entries of the tables stays in bounds**, for every trace the parser accepts. -/
theorem tables_in_bounds (env : Env) (clock : Nat → Nat) (mem : TcpCtx) {lines : List (List Char)}
    {scheduler : SchedulerCtx Action} (hparse : parseTrace schedulerInitCtx lines = .ok scheduler)
    (htables : ∀ e ∈ scheduler.events, e.action.InTables) (hlinks : LinksKnown mem.mark scheduler.events) (n : Nat) :
    (emuRun env scheduler clock mem n).pc ≠ .crashed .outOfBounds := by
  have hmem : ∀ {e}, e ∈ qsortEvents scheduler.events ↔ e ∈ scheduler.events := (qsortEvents_perm _).mem_iff
  have hstrict := qsortEvents_strict (parseTrace_numbered (by intro i e he; cases he) hparse)
  have hother : ∀ a : Action, a.NoConfig → a.OnLinkOne := by
    intro a h q args ha
    rw [ha] at h
    exact h.elim
  have hone := (parseTrace_actions hother parseInitSched_onLinkOne lines).value _ hparse
  have hlinks' : LinksKnown mem.mark (qsortEvents scheduler.events) := by
    refine hlinks.imp_right fun h e he hreads => ?_
    obtain ⟨e', he', hcfg⟩ := h e (hmem.mp he) hreads
    exact ⟨e', hmem.mpr he', hcfg⟩
  have hix := @indexed_run _ _ (emuHandlers env) (qsortEvents scheduler.events) clock
    (initTcpScheduler mem, actionInitCtx, 0)
  have hlink := @link_run env (qsortEvents scheduler.events) clock (fun e he => htables e (hmem.mp he))
    (fun e he => hone e (hmem.mp he)) (actionInitCtx, 0) (initTcpScheduler mem) rfl
  have hknown : Always (schedulerStep (emuHandlers env) (qsortEvents scheduler.events) clock)
      (fun s => Indexed (qsortEvents scheduler.events) s ∧ LinkKnown mem.mark (executed s) s.world.1)
      (schedulerStart (initTcpScheduler mem, actionInitCtx, 0)) :=
    fun m => ⟨hix m, hlink m (Indexed.executed_prefix (hix m)).subset⟩
  have hall : Always (schedulerStep (emuHandlers env) (qsortEvents scheduler.events) clock)
      (fun s => s.pc ≠ .crashed .outOfBounds) (schedulerStart (initTcpScheduler mem, actionInitCtx, 0)) := by
    refine Always.of_step hknown (fun h => by cases h) fun s hs h => ?_
    have hmoves := schedulerStep_moves (emuHandlers env) (qsortEvents scheduler.events) clock s
    generalize schedulerStep (emuHandlers env) (qsortEvents scheduler.events) clock s = s' at hmoves ⊢
    cases hmoves with
    | fault due hd si f hpc hlate hcall =>
      have hin : InBounds ((emuHandlers env).call hd s.world) :=
        call_inBounds hstrict (fun e he => htables e (hmem.mp he)) (fun e he => hone e (hmem.mp he)) hlinks' hs.1 hs.2
          hpc
      intro hcrash
      cases hcrash
      exact hin hcall
    | early due hd si hpc hearly => exact h
    | halted hpc => exact h
    | _ =>
      intro hcrash
      cases hcrash
  exact hall n

/-! Queue 255. -/

def strayTrace : List (List Char) := ["0,INIT,255,0,10".toList]

def strayScheduler : SchedulerCtx Action :=
  ⟨[⟨0, .initNfqueue 255, 0⟩, ⟨10, .teardownNfqueue 255, 1⟩, ⟨0, .startNfqueue 255, 2⟩]⟩

theorem strayScheduler_sorted :
    qsortEvents strayScheduler.events =
      [⟨0, .initNfqueue 255, 0⟩, ⟨0, .startNfqueue 255, 2⟩, ⟨10, .teardownNfqueue 255, 1⟩] := by
  apply qsortEvents_unique
  · decide
  · simp [schedulerCompareEvent]

/-- Queue 255 is accepted, and its first event writes past the table of queues. -/
theorem stray_out_of_bounds :
    parseTrace schedulerInitCtx strayTrace = .ok strayScheduler ∧
      (emuRun quietEnv strayScheduler id zeroTcp 2).pc = .crashed .outOfBounds := by
  refine ⟨rfl, ?_⟩
  rw [emuRun, schedulerRun, strayScheduler_sorted]
  rfl

/-! A trace that switches to its second link, with a burst and an adaptation phase. -/

def switchTrace : List (List Char) := linkTrace '3' ++ ["2,SOL_HO,0,2,0,0,0,0,1,1".toList]

def switchScheduler : SchedulerCtx Action :=
  ⟨(linkScheduler 3).events ++
    [⟨2, .solUpdate 0 2, 4⟩, ⟨2, .setBurst 0 1, 5⟩, ⟨3, .setBurst 0 0, 6⟩, ⟨3, .setAdapt 0 1, 7⟩]⟩

/-- The memory of `main` holds link 7, which the trace sets before it looks it up. -/
theorem tables_in_bounds_link :
    (emuRun quietEnv switchScheduler id { zeroTcp with mark := 7 } 21).pc ≠ .crashed .outOfBounds := by
  have hparse : parseTrace schedulerInitCtx switchTrace = .ok switchScheduler := rfl
  have hqueue : ∀ e ∈ switchScheduler.events, e.action.queue? = some 0 := by decide
  have hconfig : (⟨0, .initTcpSched 0 (linkArgs 3), 3⟩ : SchedulerEvent Action) ∈ switchScheduler.events := by
    simp [switchScheduler, linkScheduler]
  refine tables_in_bounds quietEnv id _ hparse (fun e he => ⟨fun q hq => ?_, ?_⟩) (.inr fun e he hreads =>
    ⟨_, hconfig, ⟨_, _, rfl⟩, ?_⟩) 21
  · rw [hqueue e he] at hq
    rw [← Option.some.inj hq]
    decide
  all_goals
    simp only [switchScheduler, linkScheduler, List.cons_append, List.nil_append, List.mem_cons, List.not_mem_nil,
      or_false] at he
  · rintro q mark h
    obtain rfl | rfl | rfl | rfl | rfl | rfl | rfl | rfl := he <;> cases h
    decide
  · obtain rfl | rfl | rfl | rfl | rfl | rfl | rfl | rfl := he <;> first | exact hreads.elim | decide

end Handoff
