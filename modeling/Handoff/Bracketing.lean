import Handoff.Lifetime
import Handoff.SamplerStart
import Handoff.TableBounds

/- The traces whose runs get to their end whatever happens.

   No action checks that its queue is there, and no tick that its worker is; that they are is up to the
   order of the events. A trace is `Bracketed` if each event on a queue sorts between an `INIT` and the
   teardowns of the queue, and each that looks up the current link after a `SOL_INIT_SCHED` event. This can be
   decided before the run, and it is what it takes: with the library doing what it is asked to, a
   trace in range with positive periods makes progress under every clock, from every memory and
   whatever the packet threads do, if and only if it is bracketed (`progresses_iff_bracketed`).

   A tick may still find a worker that has been torn down. It does not if the queue that the sampler was
   linked to last is the last one to go (`Outlived`, `handlers_find_live`). -/
namespace Handoff

open Iterate

/-! What a trace is checked for. -/

instance : DecidablePred Action.ReadsLink
  | .solUpdate _ _ | .setBurst _ _ | .setAdapt _ _ => .isTrue trivial
  | .command _ | .initNfqueue _ | .startNfqueue _ | .stopNfqueue _ | .teardownNfqueue _ | .setMark _ _
  | .setReorder _ _ _ _ | .setDrop _ _ _ | .setDedup _ _ | .setRwnd _ _ | .initTcpSched _ _ => .isFalse id

/-- The action configures the sampler. -/
def Action.Configures (a : Action) : Prop := a.config?.isSome

instance : DecidablePred Action.Configures := fun a => inferInstanceAs (Decidable (a.config?.isSome = true))

instance (events : List (SchedulerEvent Action)) (q : UInt16) (e : SchedulerEvent Action) :
    Decidable (OpenAt events q e) := inferInstanceAs (Decidable (∃ a ∈ events, _))

/-- There is at most one queue to check. -/
instance decidableForallQueue {p : UInt16 → Prop} [DecidablePred p] : ∀ o : Option UInt16, Decidable (∀ q ∈ o, p q)
  | none => .isTrue fun _ h => nomatch h
  | some q => decidable_of_iff (p q) (by simp)

/-- What an event needs of those that sort before it. -/
structure BracketedAt (events : List (SchedulerEvent Action)) (e : SchedulerEvent Action) : Prop where
  queue : ∀ q ∈ e.action.queue?,
    if e.action = .initNfqueue q then q.toNat < actionMaxNfqueue else OpenAt events q e
  link : e.action.ReadsLink → ∃ c ∈ events, c.action.Configures ∧ schedulerCompareEvent c e < 0

instance (events : List (SchedulerEvent Action)) : DecidablePred (BracketedAt events) := fun e =>
  decidable_of_iff
    ((∀ q ∈ e.action.queue?,
        if e.action = .initNfqueue q then q.toNat < actionMaxNfqueue else OpenAt events q e) ∧
      (e.action.ReadsLink → ∃ c ∈ events, c.action.Configures ∧ schedulerCompareEvent c e < 0))
    ⟨fun h => ⟨h.1, h.2⟩, fun h => ⟨h.queue, h.link⟩⟩

def Bracketed (events : List (SchedulerEvent Action)) : Prop := ∀ e ∈ events, BracketedAt events e

instance : DecidablePred Bracketed := fun events => inferInstanceAs (Decidable (∀ e ∈ events, _))

/-- After the teardown of a queue that the sampler was linked to, either nothing is left to come or the sampler
    has been linked anew before it. -/
def Outlived (events : List (SchedulerEvent Action)) : Prop :=
  ∀ c ∈ events, c.action.Configures → ∀ q ∈ c.action.queue?, ∀ d ∈ events, d.action = .teardownNfqueue q →
    schedulerCompareEvent c d < 0 → ∀ e ∈ events, schedulerCompareEvent d e < 0 →
      ∃ c' ∈ events, c'.action.Configures ∧ schedulerCompareEvent c c' < 0 ∧
        schedulerCompareEvent c' d < 0

instance : DecidablePred Outlived := fun events => inferInstanceAs (Decidable (∀ c ∈ events, _))

example : Bracketed (linkScheduler 3).events ∧ Outlived (linkScheduler 3).events := by decide

/-- The gap that ends after its queue, and the sampler that outlives its worker. -/
example : ¬ Bracketed gapScheduler.events ∧ Bracketed samplerScheduler.events ∧
    ¬ Outlived samplerScheduler.events := by
  decide

theorem Action.Configures.eq {a : Action} (h : a.Configures) : ∃ q args, a = .initTcpSched q args := by
  cases a with
  | initTcpSched q args => exact ⟨q, args, rfl⟩
  | _ => cases h

theorem Action.not_configures {a : Action} : ¬ a.Configures ↔ ∀ q args, a ≠ .initTcpSched q args := by
  constructor
  · intro h q args ha
    exact h (ha ▸ rfl)
  · intro h hc
    obtain ⟨q, args, ha⟩ := hc.eq
    exact h q args ha

theorem Action.leaves_of_not {a : Action} (hc : ¬ a.Configures) (hr : ¬ a.ReadsLink) : a.LeavesSampler := by
  cases a with
  | initTcpSched q args => exact hc rfl
  | solUpdate q mark => exact hr trivial
  | setBurst q enable => exact hr trivial
  | setAdapt q enable => exact hr trivial
  | _ => trivial

theorem BracketedAt.perm {events events' : List (SchedulerEvent Action)} (hp : events.Perm events')
    {e : SchedulerEvent Action} (h : BracketedAt events e) : BracketedAt events' e := by
  constructor
  · simpa only [OpenAt.perm hp] using h.queue
  · simpa only [hp.mem_iff] using h.link

theorem Bracketed.perm {events events' : List (SchedulerEvent Action)} (hp : events.Perm events')
    (h : Bracketed events) : Bracketed events' :=
  fun e he => (h e (hp.mem_iff.mpr he)).perm hp

theorem Outlived.perm {events events' : List (SchedulerEvent Action)} (hp : events.Perm events')
    (h : Outlived events) : Outlived events' := by
  simpa only [Outlived, hp.mem_iff] using h

section Bracketed
variable {events : List (SchedulerEvent Action)} {e : SchedulerEvent Action} {q : UInt16}

theorem Bracketed.open (h : Bracketed events) (he : e ∈ events) (hq : e.action.queue? = some q)
    (hinit : e.action ≠ .initNfqueue q) : OpenAt events q e := by
  have hqueue := (h e he).queue q hq
  rwa [if_neg hinit] at hqueue

theorem Bracketed.inTables (h : Bracketed events) (hpos : ∀ e ∈ events, e.action.Positive) (he : e ∈ events) :
    e.action.InTables := by
  have hinit : ∀ (q : UInt16), ∀ a ∈ events, a.action = .initNfqueue q → q.toNat < actionMaxNfqueue := by
    intro q a ha hact
    have hqueue := (h a ha).queue q (by rw [hact]; rfl)
    rwa [if_pos hact] at hqueue
  constructor
  · intro q hq
    by_cases hact : e.action = .initNfqueue q
    · exact hinit q e he hact
    · obtain ⟨a, ha, hact, -⟩ := h.open he hq hact
      exact hinit q a ha hact
  · intro q mark hact
    have hlink := hpos e he
    rw [hact] at hlink
    obtain rfl | rfl := hlink <;> decide

theorem Bracketed.configured (h : Bracketed events) (hs : events.Pairwise fun a b => schedulerCompareEvent a b < 0)
    {k : Nat} (he : events[k]? = some e) (hr : e.action.ReadsLink) : ∃ c ∈ events.take k, c.action.Configures := by
  obtain ⟨c, hc, hconf, hlt⟩ := (h e (List.mem_of_getElem? he)).link hr
  exact ⟨c, (mem_take_iff hs he).mpr ⟨hc, hlt⟩, hconf⟩

theorem take_of_prefix {es post : List (SchedulerEvent Action)} (h : es ++ e :: post <+: events) :
    events.take es.length = es ∧ events[es.length]? = some e := by
  obtain ⟨rest, rfl⟩ := h
  simp

end Bracketed

/-! The sampler of a bracketed trace. -/

/-- The events of a trace in range, in the order of the scheduler. -/
structure Regular (events : List (SchedulerEvent Action)) : Prop where
  strict : events.Pairwise fun a b => schedulerCompareEvent a b < 0
  fits : ∀ e ∈ events, e.Fits
  one : ∀ e ∈ events, e.action.OnLinkOne

/-- It is as `main` starts it, or it has been configured and has the property `P`. -/
def Started (P : TcpCtx → Prop) (es : List (SchedulerEvent Action)) (t : TcpCtx) : Prop :=
  (∀ c ∈ es, ¬ c.action.Configures) ∧ t.fire = 0xFFFFFFFF ∧ t.sampleInterval = 0 ∨
    (∃ c ∈ es, c.action.Configures) ∧ P t

/-- A property that each configuration brings about and nothing undoes. -/
structure Lasting (P : TcpCtx → Prop) (events : List (SchedulerEvent Action)) : Prop where
  advance : ∀ t, P t → P (advance t)
  config : ∀ e ∈ events, e.action.Configures → ∀ lib emu, Returns (fun e' => P e'.tcp) (runAction lib emu e.action)
  action : ∀ e ∈ events, ∀ lib emu, P emu.tcp → Returns (fun e' => P e'.tcp) (runAction lib emu e.action)

section Sampler
variable {env : Env} {events : List (SchedulerEvent Action)} {clock : Nat → Nat} {P : TcpCtx → Prop}

theorem lasting_true (events : List (SchedulerEvent Action)) : Lasting (fun _ => True) events :=
  ⟨fun _ h => h, fun _ _ _ _ _ => ⟨fun _ _ => trivial⟩, fun _ _ _ _ _ => ⟨fun _ _ => trivial⟩⟩

theorem lasting_link (hr : Regular events) (hb : Bracketed events) (hpos : ∀ e ∈ events, e.action.Positive) :
    Lasting (fun t => InTable 3 t.mark) events := by
  refine ⟨fun _ h => h, fun e he hc lib emu => ?_, fun e he lib emu => action_link (hb.inTables hpos he) (hr.one e he)⟩
  obtain ⟨q, args, hact⟩ := hc.eq
  rw [hact]
  exact config_link (hr.one e he q args hact)

theorem started_run (hr : Regular events) (hb : Bracketed events) (hP : Lasting P events) (mem : TcpCtx)
    (r : ActionCtx × Nat) :
    Always (schedulerStep (emuHandlers env) events clock)
      (fun s => executed s <+: events → Started P (executed s) s.world.1)
      (schedulerStart (initTcpScheduler mem, r)) := by
  refine history_run (I := fun es t _ => es <+: events → Started P es t) ?_ ?_ ?_ ?_ ?_
  · exact fun _ => .inl ⟨(fun c hc => by cases hc), rfl, rfl⟩
  · exact fun es t x k h => h
  · intro es t x h hpre
    obtain ⟨hnone, hfire, hperiod⟩ | ⟨hconf, ht⟩ := h hpre
    · refine .inl ⟨hnone, ?_, hperiod⟩
      simp only [advance, hfire, hperiod]
      decide
    · exact .inr ⟨hconf, hP.advance t ht⟩
  · intro es t x k e emu h hrun hpre
    obtain ⟨htake, hget⟩ := take_of_prefix hpre
    have he : e ∈ events := List.mem_of_getElem? hget
    by_cases hc : e.action.Configures
    · exact .inr ⟨⟨e, by simp, hc⟩, (hP.config e he hc _ _).value emu hrun⟩
    · have hbefore := h ((List.prefix_append _ _).trans hpre)
      obtain ⟨hnone, hfire, hperiod⟩ | ⟨⟨c, hces, hcc⟩, ht⟩ := hbefore
      · -- nothing before it has configured the sampler, so it does not read the link
        have hreads : ¬ e.action.ReadsLink := by
          intro hreads
          obtain ⟨c, hces, hcc⟩ := hb.configured hr.strict hget hreads
          exact hnone c (htake ▸ hces) hcc
        have hsame : emu.tcp = t := (action_leaves (Action.leaves_of_not hc hreads) _ _).value emu hrun
        refine .inl ⟨fun a ha => ?_, by rw [hsame, hfire], by rw [hsame, hperiod]⟩
        obtain ha | ha := List.mem_append.mp ha
        · exact hnone a ha
        · rwa [List.mem_singleton.mp ha]
      · exact .inr ⟨⟨c, List.mem_append_left _ hces, hcc⟩, (hP.action e he _ ⟨t, x⟩ ht).value emu hrun⟩
  · exact fun es t x x' h _ => h

/-- A tick is chosen before an event that is due later, and after the sampler has been configured. -/
theorem ticks_configured {s : EmuState} (hfits : ∀ e ∈ events, e.Fits) (h0 : ∀ fire si, s.pc ≠ .wait fire .tick si)
    (hstarted : Always (schedulerStep (emuHandlers env) events clock) (fun s => Started P (executed s) s.world.1) s) :
    Always (schedulerStep (emuHandlers env) events clock)
      (fun s => ∀ fire si, s.pc = .wait fire .tick si →
        (∃ c ∈ executed s, c.action.Configures) ∧ ∃ e, events[s.i]? = some e) s := by
  refine hstarted.of_step (fun fire si h => absurd h (h0 fire si)) ?_
  intro s hst hs fire si hpc'
  have hmoves := schedulerStep_moves (emuHandlers env) events clock s
  generalize schedulerStep (emuHandlers env) events clock s = s' at hmoves hpc' ⊢
  cases hmoves with
  | tick e hpc hev hle =>
    obtain ⟨-, hfire, hperiod⟩ | ⟨hconf, -⟩ := hst
    · -- the deadline of `init_tcp_scheduler` is later than any event
      have htime := (hfits e (List.mem_of_getElem? hev)).1
      rw [getTcpSchedulerFire, hfire, hperiod, UInt64.le_iff_toNat_le] at hle
      have hdue : ((0xFFFFFFFF : UInt64) + UInt64.ofInt 0).toNat = 2^32 - 1 := by decide
      omega
    · exact ⟨hconf, e, hev⟩
  | early fire h si hpc hearly => exact hs _ _ hpc'
  | halted hpc => exact hs _ _ hpc'
  | _ => cases hpc'

end Sampler

/-! The instance that the sampler is linked to. -/

section Instances
variable {l : Lifetimes} {q r : UInt16} {k : Nat}

theorem Lifetimes.init_opened :
    (l.after (.initNfqueue r)).opened q = some k ↔ q = r ∧ l.inits = k ∨ q ≠ r ∧ l.opened q = some k := by
  by_cases hq : q = r <;> simp [Lifetimes.after, hq]

theorem Lifetimes.teardown_opened :
    (l.after (.teardownNfqueue r)).opened q = some k ↔ q ≠ r ∧ l.opened q = some k := by
  by_cases hq : q = r <;> simp [Lifetimes.after, hq]

theorem Lifetimes.teardown_torn :
    (l.after (.teardownNfqueue r)).torn k = true ↔ l.torn k = true ∨ l.opened r = some k := by
  simp [Lifetimes.after]

/-- Each instance is open with at most one queue, and one that is has not been torn down. -/
structure Lifetimes.Sound (l : Lifetimes) : Prop where
  own : ∀ q r k, l.opened q = some k → l.opened r = some k → q = r
  old : ∀ q k, l.opened q = some k → k < l.inits
  torn : ∀ k, l.torn k = true → k < l.inits
  live : ∀ q k, l.opened q = some k → l.torn k ≠ true

theorem Lifetimes.Sound.after (h : l.Sound) (a : Action) : (l.after a).Sound := by
  cases a with
  | initNfqueue r =>
    refine ⟨fun p q k hp hq => ?_, fun q k hq => ?_, fun k hk => Nat.lt_succ_of_lt (h.torn k hk),
      fun q k hq htorn => ?_⟩
    · obtain ⟨hpr, hp'⟩ | ⟨-, hp'⟩ := init_opened.mp hp <;>
        obtain ⟨hqr, hq'⟩ | ⟨-, hq'⟩ := init_opened.mp hq
      · exact hpr.trans hqr.symm
      · exact absurd hp' (Nat.ne_of_gt (h.old q k hq'))
      · exact absurd hq' (Nat.ne_of_gt (h.old p k hp'))
      · exact h.own p q k hp' hq'
    · obtain ⟨-, rfl⟩ | ⟨-, hq⟩ := init_opened.mp hq
      · exact Nat.lt_succ_self _
      · exact Nat.lt_succ_of_lt (h.old q k hq)
    · obtain ⟨-, rfl⟩ | ⟨-, hq⟩ := init_opened.mp hq
      · exact Nat.lt_irrefl _ (h.torn _ htorn)
      · exact h.live q k hq htorn
  | teardownNfqueue r =>
    refine ⟨fun p q k hp hq => ?_, fun q k hq => h.old q k (teardown_opened.mp hq).2, fun k hk => ?_,
      fun q k hq htorn => ?_⟩
    · exact h.own p q k (teardown_opened.mp hp).2 (teardown_opened.mp hq).2
    · obtain hk | hk := teardown_torn.mp hk
      · exact h.torn k hk
      · exact h.old r k hk
    · obtain ⟨hne, hq⟩ := teardown_opened.mp hq
      obtain htorn | hr := teardown_torn.mp htorn
      · exact h.live q k hq htorn
      · exact hne (h.own q r k hq hr)
  | _ => exact ⟨h.own, h.old, h.torn, h.live⟩

theorem lifetimes_sound (es : List (SchedulerEvent Action)) : (lifetimes es).Sound := by
  induction es using List.reverseRecOn with
  | nil =>
    exact ⟨(fun _ _ _ h => by cases h), (fun _ _ h => by cases h), (fun _ h => by cases h),
      fun _ _ h => by cases h⟩
  | append_singleton es e ih => exact lifetimes_snoc es e ▸ ih.after e.action

/-- Since the configuration for queue `q`, which was open with instance `k`: the sampler is linked to that, nothing
    else is open with it, and only a teardown of `q` has torn it down. -/
structure LinkedTo (q : UInt16) (k : Nat) (since : List (SchedulerEvent Action)) (l : Lifetimes) : Prop where
  linked : l.linked = some k
  old : k < l.inits
  own : ∀ r, l.opened r = some k → r = q
  torn : l.torn k = true → ∃ d ∈ since, d.action = .teardownNfqueue q

theorem LinkedTo.after {since : List (SchedulerEvent Action)} (h : LinkedTo q k since l) {d : SchedulerEvent Action}
    (hd : ¬ d.action.Configures) : LinkedTo q k (since ++ [d]) (l.after d.action) := by
  have hold : l.torn k = true → ∃ d' ∈ since ++ [d], d'.action = .teardownNfqueue q := by
    intro hk
    obtain ⟨d', hd', htorn⟩ := h.torn hk
    exact ⟨d', List.mem_append_left _ hd', htorn⟩
  cases hact : d.action with
  | initNfqueue r =>
    refine ⟨h.linked, Nat.lt_succ_of_lt h.old, fun p hp => ?_, hold⟩
    obtain ⟨-, hk⟩ | ⟨-, hp⟩ := Lifetimes.init_opened.mp hp
    · exact absurd hk (Nat.ne_of_gt h.old)
    · exact h.own p hp
  | teardownNfqueue r =>
    refine ⟨h.linked, h.old, fun p hp => h.own p (Lifetimes.teardown_opened.mp hp).2, fun hk => ?_⟩
    obtain hk | hr := Lifetimes.teardown_torn.mp hk
    · exact hold hk
    · exact ⟨d, by simp, by rw [hact, h.own r hr]⟩
  | initTcpSched r args => exact absurd hact (Action.not_configures.mp hd r args)
  | _ => exact ⟨h.linked, h.old, h.own, hold⟩

theorem linkedTo_since {pre : List (SchedulerEvent Action)} {c : SchedulerEvent Action} {args : InitTcpSchedArgs}
    (hc : c.action = .initTcpSched q args) (hopen : (lifetimes pre).opened q = some k)
    (since : List (SchedulerEvent Action)) (hsince : ∀ d ∈ since, ¬ d.action.Configures) :
    LinkedTo q k since (lifetimes (pre ++ c :: since)) := by
  induction since using List.reverseRecOn with
  | nil =>
    have hsound := lifetimes_sound pre
    rw [lifetimes_snoc, hc]
    exact ⟨hopen, hsound.old q k hopen, fun r hr => hsound.own r q k hr hopen,
      fun hk => absurd hk (hsound.live q k hopen)⟩
  | append_singleton since d ih =>
    rw [← List.cons_append, ← List.append_assoc, lifetimes_snoc]
    exact (ih fun a ha => hsince a (List.mem_append_left _ ha)).after (hsince d (by simp))

end Instances

/-! Every handler call of a bracketed trace is ready. -/

theorem exists_last {α : Type} {P : α → Prop} {es : List α} (h : ∃ c ∈ es, P c) :
    ∃ pre c post, es = pre ++ c :: post ∧ P c ∧ ∀ d ∈ post, ¬ P d := by
  induction es using List.reverseRecOn with
  | nil =>
    obtain ⟨c, hc, -⟩ := h
    cases hc
  | append_singleton es e ih =>
    by_cases he : P e
    · exact ⟨es, e, [], rfl, he, fun d hd => by cases hd⟩
    · obtain ⟨c, hc, hP⟩ := h
      have hces : c ∈ es := by
        obtain hc | hc := List.mem_append.mp hc
        · exact hc
        · exact absurd (List.mem_singleton.mp hc ▸ hP) he
      obtain ⟨pre, c', post, rfl, hc', hpost⟩ := ih ⟨c, hces, hP⟩
      refine ⟨pre, c', post ++ [e], by simp, hc', fun d hd => ?_⟩
      obtain hd | hd := List.mem_append.mp hd
      · exact hpost d hd
      · rwa [List.mem_singleton.mp hd]

section Ready
variable {env : Env} {events : List (SchedulerEvent Action)} {clock : Nat → Nat}

theorem Bracketed.linkedTo (hs : events.Pairwise fun a b => schedulerCompareEvent a b < 0) (hb : Bracketed events)
    {es : List (SchedulerEvent Action)} (hpre : es <+: events) (hconf : ∃ c ∈ es, c.action.Configures) :
    ∃ pre c since q k, es = pre ++ c :: since ∧ c.action.Configures ∧ c.action.queue? = some q ∧
      (∀ d ∈ since, ¬ d.action.Configures) ∧ LinkedTo q k since (lifetimes es) := by
  obtain ⟨pre, c, since, rfl, hc, hsince⟩ := exists_last hconf
  obtain ⟨q, args, hact⟩ := hc.eq
  obtain ⟨htake, hget⟩ := take_of_prefix hpre
  have hopen : OpenAt events q c := hb.open (List.mem_of_getElem? hget) (by rw [hact]; rfl) (by simp [hact])
  rw [← openAfter_iff hs hget, htake, ← opened_iff] at hopen
  obtain ⟨k, hk⟩ := hopen
  exact ⟨pre, c, since, q, k, rfl, hc, by rw [hact]; rfl, hsince, linkedTo_since hact hk since hsince⟩

/-- A queue that the order of the events leaves open is found in both tables. -/
theorem Lives.found {ok : Prop} {l : Lifetimes} {t : TcpCtx} {x : ActionCtx} {q : UInt16} (h : Lives ok l t x)
    (hq : ∃ k, l.opened q = some k) :
    ∃ p o, deref x.queues x.heap q = .ok (p, o) ∧ deref x.workers x.heap q = .ok (p, o) := by
  obtain ⟨k, hk⟩ := hq
  have hentry := h.opened q k hk
  obtain ⟨o, ho, -⟩ := h.tagged.tag q k hentry
  refine ⟨k, o, deref_eq_ok.mpr ⟨hentry, ho⟩, deref_eq_ok.mpr ⟨?_, ho⟩⟩
  rwa [h.tagged.same]

theorem actionReady_of_open {ok : Prop} {l : Lifetimes} {lib : LibCalls} {e : Emulator} {a : Action}
    (hlives : Lives ok l e.tcp e.action) (hlib : lib.nfqInit = true) (ha : a.InTables) (hone : a.OnLinkOne)
    (hopen : ∀ q, a.queue? = some q → a ≠ .initNfqueue q → ∃ k, l.opened q = some k)
    (hlink : a.ReadsLink → InTable 3 e.tcp.mark) : ActionReady lib e a := by
  unfold ActionReady
  rcases hbody : a.body? with _ | ⟨q, f⟩
  · cases a with
    | initNfqueue q => exact ⟨hlib, Int.natCast_nonneg _, ha.queue q rfl⟩
    | startNfqueue q | stopNfqueue q =>
      obtain ⟨p, o, hp, -⟩ := hlives.found (hopen q rfl (by simp))
      exact ⟨_, hp⟩
    | teardownNfqueue q =>
      obtain ⟨p, o, hp, hw⟩ := hlives.found (hopen q rfl (by simp))
      exact ⟨⟨_, hp⟩, fun _ => ⟨_, hw⟩⟩
    | command c => trivial
    | _ => cases hbody
  · have hinit : a ≠ .initNfqueue q := by
      rintro rfl
      cases hbody
    obtain ⟨p, o, -, hw⟩ := hlives.found (hopen q (Action.queue_of_body hbody) hinit)
    exact ⟨p, o, hw, body_ready ha hone hlink⟩

/-- The library opens every queue and makes every teardown it is asked for. -/
def Env.Obliging (env : Env) : Prop := ∀ k, (env.lib k).nfqInit = true ∧ (env.lib k).nfqTeardown = true

/-- What holds along a run of a bracketed trace. -/
structure BracketedRun (ok : Prop) (P : TcpCtx → Prop) (events : List (SchedulerEvent Action)) (s : EmuState) :
    Prop where
  indexed : Indexed events s
  started : Started P (executed s) s.world.1
  ticks : ∀ fire si, s.pc = .wait fire .tick si →
    (∃ c ∈ executed s, c.action.Configures) ∧ ∃ e, events[s.i]? = some e
  lives : Lives ok (lifetimes (executed s)) s.world.1 s.world.2.1

theorem bracketed_run {scheduler : SchedulerCtx Action} (hr : Regular (qsortEvents scheduler.events))
    (hb : Bracketed (qsortEvents scheduler.events)) {P : TcpCtx → Prop} (hP : Lasting P (qsortEvents scheduler.events))
    (mem : TcpCtx) (n : Nat) :
    BracketedRun (∀ k, (env.lib k).nfqTeardown = true) P (qsortEvents scheduler.events)
      (emuRun env scheduler clock mem n) := by
  have hindexed := @indexed_run _ _ (emuHandlers env) (qsortEvents scheduler.events) clock
    (initTcpScheduler mem, actionInitCtx, 0)
  have hstarted : Always (schedulerStep (emuHandlers env) (qsortEvents scheduler.events) clock)
      (fun s => Started P (executed s) s.world.1) (schedulerStart (initTcpScheduler mem, actionInitCtx, 0)) :=
    fun m => started_run hr hb hP mem _ m (Indexed.executed_prefix (hindexed m))
  exact ⟨hindexed n, hstarted n, ticks_configured hr.fits (fun _ _ h => by cases h) hstarted n,
    lives_run env scheduler clock mem n⟩

section State
variable {ok : Prop} {P : TcpCtx → Prop} {s : EmuState} {fire : UInt64} {si : Int}

theorem BracketedRun.open (h : BracketedRun ok P events s) (hr : Regular events) (hb : Bracketed events)
    {e : SchedulerEvent Action} (hpc : s.pc = .wait fire (.event e) si) {q : UInt16} (hq : e.action.queue? = some q)
    (hinit : e.action ≠ .initNfqueue q) : ∃ k, (lifetimes (executed s)).opened q = some k := by
  have hindexed := h.indexed
  simp only [Indexed, hpc] at hindexed
  obtain ⟨k, -, hes, hget⟩ := hindexed
  rw [opened_iff, hes, openAfter_iff hr.strict hget]
  exact hb.open (List.mem_of_getElem? hget) hq hinit

/-- The sampler that is due is linked to an instance, by the last configuration that has been executed. -/
theorem BracketedRun.linkedTo (h : BracketedRun ok P events s) (hr : Regular events) (hb : Bracketed events)
    (hpc : s.pc = .wait fire .tick si) :
    ∃ pre c since q k, executed s = pre ++ c :: since ∧ c.action.Configures ∧ c.action.queue? = some q ∧
      (∀ d ∈ since, ¬ d.action.Configures) ∧ LinkedTo q k since (lifetimes (executed s)) :=
  hb.linkedTo hr.strict (Indexed.executed_prefix h.indexed) (h.ticks fire si hpc).1

/-- **A handler call of a bracketed trace is ready.** -/
theorem BracketedRun.ready (h : BracketedRun ok (fun t => InTable 3 t.mark) events s) (hr : Regular events)
    (hb : Bracketed events) (hpos : ∀ e ∈ events, e.action.Positive) (hlib : env.Obliging) : CallReady env clock s := by
  intro fire hd si hpc _
  have hlives := h.lives.disturb env s.world.2.2
  cases hd with
  | event e =>
    have hindexed := h.indexed
    simp only [Indexed, hpc] at hindexed
    obtain ⟨k, -, hes, hget⟩ := hindexed
    have he := List.mem_of_getElem? hget
    refine actionReady_of_open hlives (hlib _).1 (hb.inTables hpos he) (hr.one e he) ?_ ?_
    · exact fun q hq hinit => h.open hr hb hpc hq hinit
    · intro hreads
      obtain ⟨hnone, -, -⟩ | ⟨-, hlink⟩ := h.started
      · obtain ⟨c, hc, hconf⟩ := hb.configured hr.strict hget hreads
        exact absurd hconf (hnone c (hes ▸ hc))
      · exact hlink
  | tick =>
    obtain ⟨hnone, -, -⟩ | ⟨-, hlink⟩ := h.started
    · obtain ⟨⟨c, hc, hconf⟩, -⟩ := h.ticks fire si hpc
      exact absurd hconf (hnone c hc)
    · obtain ⟨_, _, _, _, k, -, -, -, -, hto⟩ := h.linkedTo hr hb hpc
      obtain ⟨hwk, hk⟩ := hlives.linked k hto.linked
      rw [hlives.inits] at hk
      exact ⟨k, _, hwk, List.getElem?_eq_getElem hk, fun _ => hlink⟩

/-- **A tick finds the instance it was linked to still there**, if the trace lets it live. -/
theorem BracketedRun.tick_lives (h : BracketedRun ok P events s) (hr : Regular events) (hb : Bracketed events)
    (hout : Outlived events) (hpc : s.pc = .wait fire .tick si) :
    ∃ k, (lifetimes (executed s)).linked = some k ∧ (lifetimes (executed s)).torn k = false := by
  obtain ⟨pre, c, since, q, k, hes, hconf, hq, hsince, hto⟩ := h.linkedTo hr hb hpc
  refine ⟨k, hto.linked, ?_⟩
  rw [Bool.eq_false_iff]
  intro htorn
  obtain ⟨d, hd, hteardown⟩ := hto.torn htorn
  obtain ⟨since₁, since₂, rfl⟩ := List.append_of_mem hd
  -- the events so far are those before the next one
  obtain ⟨e, hget⟩ := (h.ticks fire si hpc).2
  have hexec : executed s = events.take s.i := by
    have hindexed := h.indexed
    simpa only [Indexed, hpc] using hindexed
  have hpre : (pre ++ c :: since₁) ++ d :: since₂ <+: events := by
    rw [List.append_assoc, List.cons_append, ← hes, hexec]
    exact List.take_prefix _ _
  obtain ⟨htake, hgetd⟩ := take_of_prefix hpre
  have hbefore := hr.strict.sublist hpre.sublist
  have hcd : schedulerCompareEvent c d < 0 :=
    (List.pairwise_append.mp hbefore).2.2 c (by simp) d List.mem_cons_self
  have hde : schedulerCompareEvent d e < 0 := by
    refine ((mem_take_iff hr.strict hget).mp ?_).2
    rw [← hexec, hes]
    simp
  obtain ⟨c', hc', hconf', hcc', hcd'⟩ := hout c (hpre.subset (by simp)) hconf q hq d (List.mem_of_getElem? hgetd)
    hteardown hcd e (List.mem_of_getElem? hget) hde
  -- a configuration between the last one and the teardown
  have hmem : c' ∈ pre ++ c :: since₁ := htake ▸ (mem_take_iff hr.strict hgetd).mpr ⟨hc', hcd'⟩
  obtain hmem | hmem := List.mem_append.mp hmem
  · have hlt := (List.pairwise_append.mp (List.pairwise_append.mp hbefore).1).2.2 c' hmem c List.mem_cons_self
    exact schedulerCompareEvent_asymm hlt hcc'
  · obtain rfl | hmem := List.mem_cons.mp hmem
    · exact schedulerCompareEvent_asymm hcc' hcc'
    · exact hsince c' (List.mem_append_left _ hmem) hconf'

end State

end Ready

/-! What a run that is ready at every step shows of its trace. -/

section Probe
variable {events : List (SchedulerEvent Action)} {clock : Nat → Nat}

/-- The library does what it is asked to, and the memory it finds for a worker holds a window. No packet arrives. -/
def probeEnv : Env := ⟨fun _ => { quietLib with mem := { zeroWorker with tuneRwnd := 1 } }, fun _ _ w => w⟩

/-- Every worker has a window. -/
def HasWindows (heap : List QueueObj) : Prop := ∀ o ∈ heap, 0 < o.worker.tuneRwnd

theorem HasWindows.set {heap : List QueueObj} (h : HasWindows heap) (p : Nat) {o : QueueObj} (ho : 0 < o.worker.tuneRwnd) :
    HasWindows (heap.set p o) := by
  intro o' ho'
  obtain ho' | rfl := List.mem_or_eq_of_mem_set ho'
  · exact h o' ho'
  · exact ho

theorem action_windows {lib : LibCalls} {e e' : Emulator} {a : Action} (hc : ¬ a.Configures) (hr : ¬ a.ReadsLink)
    (hmem : 0 < lib.mem.tuneRwnd) (same : e.action.workers = e.action.queues) (h : HasWindows e.action.heap)
    (hrun : runAction lib e a = .ok e') : HasWindows e'.action.heap := by
  rcases hb : a.body? with _ | ⟨q, f⟩
  · cases a with
    | command c => cases hrun; exact h
    | initNfqueue q =>
      obtain ⟨-, tab, -, rfl⟩ := (actionInit_ok same).mp hrun
      exact List.forall_mem_append.mpr ⟨h, List.forall_mem_singleton.mpr hmem⟩
    | startNfqueue q | stopNfqueue q =>
      obtain ⟨p, o, -, ho, rfl⟩ := onQueue_ok.mp hrun
      exact h.set p (h o (List.mem_of_getElem? ho))
    | teardownNfqueue q =>
      obtain ⟨p, o, -, ho, tab, -, rfl⟩ := (actionTeardown_ok same).mp hrun
      exact h.set p (h o (List.mem_of_getElem? ho))
    | _ => cases hb
  · rw [runAction_body lib e hb, onWorker_ok same] at hrun
    obtain ⟨p, o, w, t, -, ho, hf, rfl⟩ := hrun
    have hw := h o (List.mem_of_getElem? ho)
    refine h.set p ?_
    cases a with
    | setMark q mark | setDedup q enable => cases hb; cases hf; exact hw
    | setReorder q enable count offset =>
      cases hb
      cases hf
      simp only [workerSetReorder]
      by_cases henable : enable ≠ 0
      · rwa [if_pos henable]
      · rwa [if_neg henable]
    | setDrop q enable dropCount =>
      cases hb
      cases hf
      simp only [workerSetDrop]
      by_cases henable : enable ≠ 0
      · rwa [if_pos henable]
      · rwa [if_neg henable]
    | setRwnd q rwnd =>
      cases hb
      cases hf
      simp only [workerSetRwnd]
      split
      · decide
      · next hge =>
        rw [UInt16.lt_iff_toNat_lt] at hge ⊢
        exact Nat.lt_of_lt_of_le (by decide) (Nat.le_of_not_lt hge)
    | initTcpSched q args => exact absurd rfl hc
    | solUpdate q mark | setBurst q enable | setAdapt q enable => exact absurd trivial hr
    | _ => cases hb

theorem entry_of_ready {lib : LibCalls} {e : Emulator} {a : Action} {q : UInt16} (h : ActionReady lib e a)
    (ht : Tagged e.action) (hq : a.queue? = some q) (hinit : a ≠ .initNfqueue q) : entry e.action.queues q ≠ none := by
  have hopened : Opened e.action.queues e.action.heap q → entry e.action.queues q ≠ none := by
    intro ⟨⟨p, o⟩, hp⟩
    rw [(deref_eq_ok.mp hp).1]
    exact Option.some_ne_none p
  unfold ActionReady at h
  rcases hbody : a.body? with _ | ⟨r, f⟩
  · rw [hbody] at h
    cases a with
    | initNfqueue r => cases hq; exact absurd rfl hinit
    | startNfqueue r | stopNfqueue r => cases hq; exact hopened h
    | teardownNfqueue r => cases hq; exact hopened h.1
    | command c => cases hq
    | _ => cases hbody
  · rw [hbody] at h
    obtain ⟨p, o, hp, -⟩ := h
    obtain rfl : r = q := Option.some.inj ((Action.queue_of_body hbody).symm.trans hq)
    rw [← ht.same, (deref_eq_ok.mp hp).1]
    exact Option.some_ne_none p

theorem link_of_ready {lib : LibCalls} {e : Emulator} {a : Action} (h : ActionReady lib e a) (hreads : a.ReadsLink)
    (hwindow : HasWindows e.action.heap) : InTable 3 e.tcp.mark := by
  unfold ActionReady at h
  cases a with
  | solUpdate q mark =>
    obtain ⟨p, o, hp, hready⟩ := h
    exact hready.1 (hwindow o (List.mem_of_getElem? (deref_eq_ok.mp hp).2))
  | setBurst q enable | setAdapt q enable =>
    obtain ⟨p, o, -, hready⟩ := h
    exact hready
  | _ => cases hreads

/-- The sampler is on no link and linked to no worker, and the workers have windows. -/
structure Unconfigured (t : TcpCtx) (x : ActionCtx) : Prop where
  mark : ¬ InTable 3 t.mark
  wkctx : t.wkctx = none
  windows : HasWindows x.heap

/-- What has been executed was bracketed, and the sampler waits for its configuration. -/
structure Probed (events : List (SchedulerEvent Action)) (s : EmuState) : Prop where
  bracketed : ∀ e ∈ executed s, BracketedAt events e
  waits : (∀ c ∈ executed s, ¬ c.action.Configures) → Unconfigured s.world.1 s.world.2.1

theorem probed_event (hs : events.Pairwise fun a b => schedulerCompareEvent a b < 0) {ok : Prop} (hok : ok)
    {done : List (SchedulerEvent Action)} {t : TcpCtx} {x : ActionCtx} {lib : LibCalls} {k : Nat}
    {e : SchedulerEvent Action} (hdone : done = events.take k) (hget : events[k]? = some e)
    (hlives : Lives ok (lifetimes done) t x) (hready : ActionReady lib ⟨t, x⟩ e.action)
    (hwaits : (∀ c ∈ done, ¬ c.action.Configures) → Unconfigured t x) :
    BracketedAt events e ∧ ((∀ c ∈ done, ¬ c.action.Configures) → ¬ e.action.ReadsLink) := by
  have hreads : (∀ c ∈ done, ¬ c.action.Configures) → ¬ e.action.ReadsLink :=
    fun hnone hreads => (hwaits hnone).mark (link_of_ready hready hreads (hwaits hnone).windows)
  refine ⟨⟨fun q hq => ?_, fun hr => ?_⟩, hreads⟩
  · split
    · next hinit =>
      rw [hinit] at hready
      exact hready.2.2
    · next hinit =>
      have hentry := entry_of_ready hready hlives.tagged hq hinit
      rw [← openAfter_iff hs hget, ← hdone, ← opened_iff]
      exact hlives.opened_of_entry hok hentry
  · by_contra hno
    refine hreads (fun c hc hconf => hno ?_) hr
    obtain ⟨hc, hlt⟩ := (mem_take_iff hs hget).mp (hdone ▸ hc)
    exact ⟨c, hc, hconf, hlt⟩

theorem Unconfigured.disturb {t : TcpCtx} {x : ActionCtx} (h : Unconfigured t x) (k : Nat) :
    Unconfigured t (probeEnv.disturb k x) := by
  refine ⟨h.mark, h.wkctx, fun o ho => ?_⟩
  obtain ⟨p, hp⟩ := List.mem_iff_getElem?.mp ho
  rw [disturb_get] at hp
  obtain ⟨o', ho', rfl⟩ := Option.map_eq_some_iff.mp hp
  exact h.windows o' (List.mem_of_getElem? ho')

theorem probed_step {s : EmuState} (hs : events.Pairwise fun a b => schedulerCompareEvent a b < 0)
    (hix : Indexed events s)
    (hlives : Lives (∀ k, (probeEnv.lib k).nfqTeardown = true) (lifetimes (executed s)) s.world.1 s.world.2.1)
    (hready : CallReady probeEnv clock s) (h : Probed events s) :
    Probed events (schedulerStep (emuHandlers probeEnv) events clock s) := by
  have hmoves := schedulerStep_moves (emuHandlers probeEnv) events clock s
  generalize schedulerStep (emuHandlers probeEnv) events clock s = s' at hmoves ⊢
  cases hmoves with
  | call fire hd si w hpc hlate hcall =>
    have hdue := hready fire hd si hpc hlate
    cases hd with
    | tick =>
      constructor <;>
        rw [@executed_snoc _ _ s _ ⟨.tick, fire, clock (s.reads + 1) - clock 0, si⟩ rfl, Call.event?,
          Option.toList_none, List.append_nil]
      · exact h.bracketed
      · -- a sampler that is linked to no worker is not ready
        intro hnone
        obtain ⟨p, o, hp, -⟩ := hdue
        cases (h.waits hnone).wkctx.symm.trans hp
    | event e =>
      simp only [Indexed, hpc] at hix
      obtain ⟨k, -, hes, hget⟩ := hix
      have hlives' := hlives.disturb probeEnv s.world.2.2
      have hevent := probed_event hs (fun _ => rfl) hes hget hlives' hdue fun hnone => (h.waits hnone).disturb _
      constructor <;>
        rw [@executed_snoc _ _ s _ ⟨.event e, fire, clock (s.reads + 1) - clock 0, si⟩ rfl, Call.event?,
          Option.toList_some]
      · intro a ha
        obtain ha | ha := List.mem_append.mp ha
        · exact h.bracketed a ha
        · exact List.mem_singleton.mp ha ▸ hevent.1
      · intro hnone
        -- an event that neither reads the link nor sets it
        have hbefore : ∀ c ∈ executed s, ¬ c.action.Configures := fun c hc => hnone c (List.mem_append_left _ hc)
        have hc : ¬ e.action.Configures := hnone e (by simp)
        obtain ⟨emu, hrun, hw⟩ := C.bind_ok.mp hcall
        cases hw
        have hsame : emu.tcp = s.world.1 :=
          (action_leaves (Action.leaves_of_not hc (hevent.2 hbefore)) _ _).value emu hrun
        obtain ⟨hmark, hwkctx, hwindows⟩ := (h.waits hbefore).disturb s.world.2.2
        refine ⟨hsame ▸ hmark, hsame ▸ hwkctx, ?_⟩
        exact action_windows hc (hevent.2 hbefore) (by decide : (0 : UInt16) < 1) hlives'.tagged.same hwindows hrun
  | tick e hpc hev hle =>
    refine ⟨h.bracketed, fun hnone => ?_⟩
    obtain ⟨hmark, hwkctx, hwindows⟩ := h.waits hnone
    exact ⟨hmark, hwkctx, hwindows⟩
  | _ => exact ⟨h.bracketed, h.waits⟩

/-- **A trace whose run is ready at every step is bracketed**, if the memory of `main` holds no link. -/
theorem bracketed_of_progress {scheduler : SchedulerCtx Action} {mem : TcpCtx}
    (hs : (qsortEvents scheduler.events).Pairwise fun a b => schedulerCompareEvent a b < 0)
    (hmem : ¬ InTable 3 mem.mark)
    (h : Progresses (qsortEvents scheduler.events) (emuRun probeEnv scheduler clock mem)) :
    Bracketed (qsortEvents scheduler.events) := by
  have hindexed := @indexed_run _ _ (emuHandlers probeEnv) (qsortEvents scheduler.events) clock
    (initTcpScheduler mem, actionInitCtx, 0)
  have hready := (progresses_ready h).2
  have hprobed : Always (schedulerStep (emuHandlers probeEnv) (qsortEvents scheduler.events) clock)
      (Probed (qsortEvents scheduler.events)) (schedulerStart (initTcpScheduler mem, actionInitCtx, 0)) := by
    intro n
    induction n with
    | zero => exact ⟨(fun e he => by cases he), fun _ => ⟨hmem, rfl, fun o ho => by cases ho⟩⟩
    | succ n ih =>
      rw [Function.iterate_succ_apply']
      exact probed_step hs (hindexed n) (lives_run probeEnv scheduler clock mem n) (hready n) ih
  obtain ⟨n, -, hevents⟩ := h.ends
  intro e he
  rw [← hevents] at he
  exact (hprobed n).bracketed e he

end Probe

/-- The memory of `main` with no link of the table in it. -/
def strayTcp : TcpCtx := { zeroTcp with mark := 3 }

theorem strayTcp_typed : strayTcp.Typed := by
  refine ⟨by decide, fun i p hp => ?_⟩
  obtain ⟨⟨h0, h3⟩, rfl⟩ := readAt_ok.mp hp
  simp [strayTcp, zeroTcp, intMax]

theorem regular_trace {lines : List (List Char)} (hlines : ∀ line ∈ lines, NonNegLine line)
    {scheduler : SchedulerCtx Action} (hparse : parseTrace schedulerInitCtx lines = .ok scheduler) :
    Regular (qsortEvents scheduler.events) := by
  have hmem : ∀ {e}, e ∈ qsortEvents scheduler.events ↔ e ∈ scheduler.events := (qsortEvents_perm _).mem_iff
  have hfits := (parseTrace_fits hlines schedulerInitCtx fun e he => by cases he).value scheduler hparse
  have hother : ∀ a : Action, a.NoConfig → a.OnLinkOne := by
    intro a h q args ha
    rw [ha] at h
    exact h.elim
  have hone := (parseTrace_actions hother parseInitSched_onLinkOne lines).value _ hparse
  exact ⟨qsortEvents_strict (parseTrace_numbered (by intro i e he; cases he) hparse), fun e he => hfits e (hmem.mp he),
    fun e he => hone e (hmem.mp he)⟩

/-- **A trace makes progress in every environment if and only if it is bracketed**, for the traces in
    range with positive periods and links 1 and 2: under every clock that never goes back and has no bound,
    from every memory of `main`, whatever the packet threads do and with a library that does what it is
    asked to, the emulation gets to its end, having called each event's handler once and in order. -/
theorem progresses_iff_bracketed {lines : List (List Char)} (hlines : ∀ line ∈ lines, NonNegLine line)
    {scheduler : SchedulerCtx Action} (hparse : parseTrace schedulerInitCtx lines = .ok scheduler)
    (hpos : ∀ e ∈ scheduler.events, e.action.Positive) :
    (∀ env : Env, env.Obliging → ∀ clock : Nat → Nat, Monotone clock → (∀ b, ∃ n, b ≤ clock n) →
      ∀ mem : TcpCtx, mem.Typed → Progresses (qsortEvents scheduler.events) (emuRun env scheduler clock mem)) ↔
    Bracketed scheduler.events := by
  have hr := regular_trace hlines hparse
  constructor
  · intro h
    have hprogress := h probeEnv (fun k => ⟨rfl, rfl⟩) id monotone_id (fun b => ⟨b, Nat.le_refl b⟩) strayTcp
      strayTcp_typed
    exact (bracketed_of_progress hr.strict (by decide) hprogress).perm (qsortEvents_perm scheduler.events)
  · intro hb env hlib clock hmono hunb mem hmem
    have hb' := hb.perm (qsortEvents_perm scheduler.events).symm
    have hpos' : ∀ e ∈ qsortEvents scheduler.events, e.action.Positive :=
      fun e he => hpos e ((qsortEvents_perm _).mem_iff.mp he)
    have hcall : ∀ n, CallReady env clock (emuRun env scheduler clock mem n) :=
      fun n => (bracketed_run hr hb' (lasting_link hr hb' hpos') mem n).ready hr hb' hpos' hlib
    exact ready_progresses hmono hunb hr.fits (initTcpScheduler_bounded hmem)
      (positive_ready hmono hunb hr.fits hpos' rfl hcall) hcall

theorem progresses_iff_bracketed_link :
    Progresses (qsortEvents (linkScheduler 3).events) (emuRun probeEnv (linkScheduler 3) (1000 * ·) strayTcp) := by
  have hparse : parseTrace schedulerInitCtx (linkTrace '3') = .ok (linkScheduler 3) := rfl
  refine (progresses_iff_bracketed (linkTrace_inRange (.inr rfl)) hparse linkScheduler_positive).mpr (by decide)
    probeEnv (fun k => ⟨rfl, rfl⟩) _ (fun m n h => Nat.mul_le_mul_left 1000 h) (fun b => ⟨b, ?_⟩) _ strayTcp_typed
  exact Nat.le_mul_of_pos_left b (by decide)

/-- **No handler of a bracketed, outlived trace in range follows a pointer to what has been torn down**, whatever
    the periods and the links are and whatever the library, the packet threads and the clock do: an action on
    a queue finds it in both tables, and a tick a worker that has not been destroyed. -/
theorem handlers_find_live {lines : List (List Char)} (hlines : ∀ line ∈ lines, NonNegLine line)
    {scheduler : SchedulerCtx Action} (hparse : parseTrace schedulerInitCtx lines = .ok scheduler)
    (hb : Bracketed scheduler.events) (hout : Outlived scheduler.events) (env : Env) (clock : Nat → Nat) (mem : TcpCtx)
    {n : Nat} {fire : UInt64} {h : Handler Action} {si : Int}
    (hpc : (emuRun env scheduler clock mem n).pc = .wait fire h si) :
    Finds h (emuRun env scheduler clock mem n).world := by
  have hr := regular_trace hlines hparse
  have hb' := hb.perm (qsortEvents_perm scheduler.events).symm
  have hrun := @bracketed_run env clock scheduler hr hb' _ (lasting_true _) mem n
  cases h with
  | event e => exact fun q hq hinit => hrun.lives.entries_of_opened (hrun.open hr hb' hpc hq hinit)
  | tick =>
    have hout' := hout.perm (qsortEvents_perm scheduler.events).symm
    exact hrun.lives.worker_of_linked (hrun.tick_lives hr hb' hout' hpc)

/-- The trace whose ticks never end. -/
theorem handlers_find_live_link :
    Finds .tick (emuRun probeEnv (linkScheduler 0) id strayTcp 7).world := by
  have hparse : parseTrace schedulerInitCtx (linkTrace '0') = .ok (linkScheduler 0) := rfl
  have hpc : (emuRun probeEnv (linkScheduler 0) id strayTcp 7).pc = .wait 0 .tick 0 := by
    rw [emuRun, schedulerRun, linkScheduler_sorted]
    rfl
  exact handlers_find_live (linkTrace_inRange (.inl rfl)) hparse (by decide) (by decide) probeEnv id strayTcp hpc

end Handoff
