import Handoff.History

/- The life of a queue in a run.

   No handler checks that its queue is open: an action follows the table entries it finds,
   and a tick the worker that the last `SOL_INIT_SCHED` linked. Whether these lead to a queue that
   is open depends on the order of the events alone. `Lifetimes` follows the `INIT`s, teardowns
   and links of the events executed so far, with the instances of a queue told apart, and the
   heap mirrors it (`Lives`). So an action finds its queue exactly if an `INIT` of the queue sorts
   before it and no teardown of it in between, and a tick finds a live worker exactly if the
   instance it was linked to has not been torn down (`handlers_alive_iff`). An event derived from a line may
   be due long after the line's own time, and then be due after the teardown
   (`gap_outlives_queue`). -/
namespace Handoff

open Iterate

/-- The instances of the queues: how many `INIT`s there have been, which of them each queue is open with, which
    have been torn down, and which one the sampler is linked to. -/
structure Lifetimes where
  inits : Nat
  opened : UInt16 → Option Nat
  torn : Nat → Bool
  linked : Option Nat

def Lifetimes.start : Lifetimes := ⟨0, fun _ => none, fun _ => false, none⟩

def Lifetimes.after (l : Lifetimes) : Action → Lifetimes
  | .initNfqueue q => { l with inits := l.inits + 1, opened := Function.update l.opened q (some l.inits) }
  | .teardownNfqueue q =>
    { l with opened := Function.update l.opened q none, torn := fun k => l.torn k || decide (l.opened q = some k) }
  | .initTcpSched q _ => { l with linked := l.opened q }
  | _ => l

/-- The instances after these events. -/
def lifetimes (es : List (SchedulerEvent Action)) : Lifetimes := es.foldl (fun l e => l.after e.action) .start

@[simp] theorem lifetimes_snoc (es : List (SchedulerEvent Action)) (e : SchedulerEvent Action) :
    lifetimes (es ++ [e]) = (lifetimes es).after e.action := by
  simp [lifetimes]

/-! What they say about the events. -/

/-- An `INIT` of queue `q` is among the events, and no teardown of `q` after it. -/
def OpenAfter (q : UInt16) (es : List (SchedulerEvent Action)) : Prop :=
  ∃ pre a post, es = pre ++ a :: post ∧ a.action = .initNfqueue q ∧ ∀ d ∈ post, d.action ≠ .teardownNfqueue q

section Meaning
variable {es : List (SchedulerEvent Action)} {e : SchedulerEvent Action} {q : UInt16}

theorem openAfter_snoc :
    OpenAfter q (es ++ [e]) ↔ e.action = .initNfqueue q ∨ OpenAfter q es ∧ e.action ≠ .teardownNfqueue q := by
  constructor
  · intro ⟨pre, a, post, hes, ha, hpost⟩
    rcases List.eq_nil_or_concat post with rfl | ⟨post, d, rfl⟩
    · obtain ⟨-, hea⟩ := List.append_inj' hes rfl
      cases hea
      exact .inl ha
    · rw [List.concat_eq_append, ← List.cons_append, ← List.append_assoc] at hes
      obtain ⟨hinit, hed⟩ := List.append_inj' hes rfl
      cases hed
      exact .inr ⟨⟨pre, a, post, hinit, ha, fun d hd => hpost d (by simp [hd])⟩, hpost e (by simp)⟩
  · rintro (hinit | ⟨⟨pre, a, post, hes, ha, hpost⟩, htorn⟩)
    · exact ⟨es, e, [], rfl, hinit, fun d hd => by cases hd⟩
    · refine ⟨pre, a, post ++ [e], by simp [hes], ha, fun d hd => ?_⟩
      obtain hd | hd := List.mem_append.mp hd
      · exact hpost d hd
      · rw [List.mem_singleton.mp hd]
        exact htorn

theorem opened_iff : (∃ k, (lifetimes es).opened q = some k) ↔ OpenAfter q es := by
  induction es using List.reverseRecOn with
  | nil =>
    refine iff_of_false (fun ⟨k, h⟩ => by cases h) ?_
    intro ⟨pre, a, post, hes, _⟩
    simp at hes
  | append_singleton es e ih =>
    rw [lifetimes_snoc, openAfter_snoc, ← ih]
    cases ha : e.action with
    | initNfqueue r =>
      by_cases hr : q = r
      · simp [Lifetimes.after, hr]
      · simp [Lifetimes.after, Function.update_of_ne hr, Ne.symm hr]
    | teardownNfqueue r =>
      by_cases hr : q = r
      · simp [Lifetimes.after, hr]
      · simp [Lifetimes.after, Function.update_of_ne hr, Ne.symm hr]
    | _ => simp [Lifetimes.after]

end Meaning

/-! The heap mirrors the instances. -/

/-- The `k`-th `INIT` allocated the object at `k`. What the instances say of the tables, of the sampler and of the
    workers holds; and if every teardown asked for is made (`ok`), they say all there is. -/
structure Lives (ok : Prop) (l : Lifetimes) (t : TcpCtx) (x : ActionCtx) : Prop where
  tagged : Tagged x
  inits : l.inits = x.heap.length
  opened : ∀ q k, l.opened q = some k → entry x.queues q = some k
  entries : ∀ q k, entry x.queues q = some k → l.opened q = some k ∨ l.torn k = true ∧ ¬ ok
  linked : ∀ k, l.linked = some k → t.wkctx = some k ∧ k < l.inits
  link : ok → ∀ k, t.wkctx = some k → l.linked = some k
  destroyed : ∀ k o, x.heap[k]? = some o → o.destroyed = true → l.torn k = true
  torn : ∀ k, l.torn k = true → k < l.inits
  gone : ok → ∀ k o, x.heap[k]? = some o → l.torn k = true → o.destroyed = true

section Lives
variable {ok : Prop} {l : Lifetimes} {t : TcpCtx} {x : ActionCtx}

theorem lives_start (mem : TcpCtx) : Lives ok .start (initTcpScheduler mem) actionInitCtx := by
  have hentry : ∀ q, entry actionInitCtx.queues q = none := by
    intro q
    rcases h : entry actionInitCtx.queues q with _ | p
    · rfl
    · obtain ⟨o, ho, -⟩ := actionInitCtx_tagged.tag q p h
      cases ho
  have hempty : ∀ (k : Nat) o, actionInitCtx.heap[k]? ≠ some o := fun k o h => by cases h
  refine ⟨actionInitCtx_tagged, rfl, (fun q k h => by cases h), ?_, (fun k h => by cases h), (fun _ k h => by cases h),
    fun k o h => absurd h (hempty k o), (fun k h => by cases h), fun _ k o h => absurd h (hempty k o)⟩
  intro q k h
  rw [hentry] at h
  cases h

/-- Only the tables, the number of objects and their `destroyed` marks matter. -/
theorem Lives.heap {x' : ActionCtx} (h : Lives ok l t x) (ht : Tagged x') (hq : x'.queues = x.queues)
    (hheap : x'.heap.map QueueObj.destroyed = x.heap.map QueueObj.destroyed) : Lives ok l t x' := by
  have hlen : x'.heap.length = x.heap.length := by
    simpa using congrArg List.length hheap
  have hmark : ∀ (k : Nat) (o' : QueueObj), x'.heap[k]? = some o' → ∃ o, x.heap[k]? = some o ∧ o.destroyed = o'.destroyed := by
    intro k o' ho'
    have hk := congrArg (·[k]?) hheap
    simp only [List.getElem?_map, ho', Option.map_some] at hk
    obtain ⟨o, ho, hd⟩ := Option.map_eq_some_iff.mp hk.symm
    exact ⟨o, ho, hd⟩
  refine ⟨ht, h.inits.trans hlen.symm, hq ▸ h.opened, hq ▸ h.entries, h.linked, h.link, ?_, h.torn, ?_⟩
  · intro k o' ho' hd
    obtain ⟨o, ho, hsame⟩ := hmark k o' ho'
    exact h.destroyed k o ho (hsame.trans hd)
  · intro hok k o' ho' hk
    obtain ⟨o, ho, hsame⟩ := hmark k o' ho'
    exact hsame.symm.trans (h.gone hok k o ho hk)

theorem Lives.disturb (h : Lives ok l t x) (env : Env) (k : Nat) : Lives ok l t (env.disturb k x) := by
  refine h.heap (h.tagged.disturb k) rfl ?_
  apply List.ext_getElem?
  intro p
  rw [List.getElem?_map, disturb_get, List.getElem?_map, Option.map_map]
  rfl

theorem Lives.setObj (h : Lives ok l t x) {p : Nat} {o o' : QueueObj} (ho : x.heap[p]? = some o)
    (hnum : o'.nfq.queueNum = o.nfq.queueNum) (hd : o'.destroyed = o.destroyed) :
    Lives ok l t { x with heap := x.heap.set p o' } := by
  exact h.heap (h.tagged.set ho hnum) rfl (map_set_same ho hd)

/-- The numbers of the sampler do not matter. -/
theorem Lives.sampler {t' : TcpCtx} (h : Lives ok l t x) (ht : t'.wkctx = t.wkctx) : Lives ok l t' x :=
  ⟨h.tagged, h.inits, h.opened, h.entries, ht ▸ h.linked, ht ▸ h.link, h.destroyed, h.torn, h.gone⟩

/-- An `INIT`. -/
theorem Lives.open (h : Lives ok l t x) {q : UInt16} {lib : LibCalls} {tab : Vector (Option Nat) actionMaxNfqueue}
    (htab : writeAt x.queues q.toNat (some x.heap.length) = .ok tab)
    (ht : Tagged ⟨tab, tab, x.heap ++ [freshObj lib q]⟩) :
    Lives ok (l.after (.initNfqueue q)) t ⟨tab, tab, x.heap ++ [freshObj lib q]⟩ := by
  have hget : ∀ (k : Nat) (o : QueueObj), (x.heap ++ [freshObj lib q])[k]? = some o →
      x.heap[k]? = some o ∨ k = l.inits ∧ o = freshObj lib q := by
    intro k o ho
    by_cases hk : k < x.heap.length
    · exact .inl (by rwa [List.getElem?_append_left hk] at ho)
    · rw [List.getElem?_append_right (Nat.le_of_not_lt hk), List.getElem?_singleton] at ho
      split at ho
      · next hz => exact .inr ⟨by rw [h.inits]; omega, (Option.some.inj ho).symm⟩
      · cases ho
  refine ⟨ht, by simp [Lifetimes.after, h.inits], ?_, ?_, ?_, h.link, ?_, ?_, ?_⟩
  · intro r k hk
    rw [entry_writeAt htab]
    by_cases hr : r = q
    · rw [if_pos hr, ← h.inits]
      simpa [Lifetimes.after, hr] using hk
    · rw [if_neg hr]
      exact h.opened r k (by simpa [Lifetimes.after, hr] using hk)
  · intro r k hk
    rw [entry_writeAt htab] at hk
    by_cases hr : r = q
    · rw [if_pos hr, ← h.inits] at hk
      exact .inl (by simpa [Lifetimes.after, hr] using hk)
    · rw [if_neg hr] at hk
      simpa [Lifetimes.after, hr] using h.entries r k hk
  · intro k hk
    obtain ⟨hwk, hlt⟩ := h.linked k hk
    exact ⟨hwk, Nat.lt_succ_of_lt hlt⟩
  · intro k o ho hd
    obtain ho | ⟨-, rfl⟩ := hget k o ho
    · exact h.destroyed k o ho hd
    · cases hd
  · exact fun k hk => Nat.lt_succ_of_lt (h.torn k hk)
  · intro hok k o ho hk
    obtain ho | ⟨rfl, rfl⟩ := hget k o ho
    · exact h.gone hok k o ho hk
    · exact absurd (h.torn _ hk) (Nat.lt_irrefl _)

/-- A teardown, refused or made. -/
theorem Lives.close (h : Lives ok l t x) {q : UInt16} {p : Nat} {o : QueueObj} {lib : LibCalls}
    (hlib : ok → lib.nfqTeardown = true) (hp : entry x.queues q = some p) (ho : x.heap[p]? = some o)
    {tab : Vector (Option Nat) actionMaxNfqueue}
    (htab : (if lib.nfqTeardown = true then writeAt x.queues q.toNat none else .ok x.queues) = .ok tab)
    (ht : Tagged ⟨tab, tab, x.heap.set p (tornObj lib o)⟩) :
    Lives ok (l.after (.teardownNfqueue q)) t ⟨tab, tab, x.heap.set p (tornObj lib o)⟩ := by
  have hentry : ∀ r, entry tab r = if r = q ∧ lib.nfqTeardown = true then none else entry x.queues r := by
    intro r
    split at htab
    · next hmade => simp only [entry_writeAt htab, hmade, and_true]
    · next hkept =>
      rw [Except.ok.injEq] at htab
      rw [← htab, if_neg fun hboth => hkept hboth.2]
  have htorn : ∀ k, (l.after (.teardownNfqueue q)).torn k = true ↔ l.torn k = true ∨ l.opened q = some k := by
    intro k
    simp [Lifetimes.after]
  have hopened : ∀ r k, (l.after (.teardownNfqueue q)).opened r = some k ↔ r ≠ q ∧ l.opened r = some k := by
    intro r k
    by_cases hr : r = q <;> simp [Lifetimes.after, hr]
  -- what a refused teardown leaves in the tables counts as torn down
  have hown : l.opened q = some p ∨ l.torn p = true ∧ ¬ ok := h.entries q p hp
  have hget : ∀ (k : Nat) (v : QueueObj), (x.heap.set p (tornObj lib o))[k]? = some v →
      k ≠ p ∧ x.heap[k]? = some v ∨ k = p ∧ v = tornObj lib o := by
    intro k v hv
    rw [List.getElem?_set] at hv
    split at hv
    · next hk =>
      split at hv
      · exact .inr ⟨hk.symm, (Option.some.inj hv).symm⟩
      · cases hv
    · next hk => exact .inl ⟨Ne.symm hk, hv⟩
  refine ⟨ht, by simpa [Lifetimes.after] using h.inits, ?_, ?_, h.linked, h.link, ?_, ?_, ?_⟩
  · intro r k hk
    obtain ⟨hr, hk⟩ := (hopened r k).mp hk
    rw [hentry, if_neg fun hrq => hr hrq.1]
    exact h.opened r k hk
  · intro r k hk
    rw [hentry] at hk
    split at hk
    · cases hk
    · next hr =>
      obtain hold | ⟨hold, hno⟩ := h.entries r k hk
      · by_cases hrq : r = q
        · refine .inr ⟨(htorn k).mpr (.inr (hrq ▸ hold)), fun hok => hr ⟨hrq, hlib hok⟩⟩
        · exact .inl ((hopened r k).mpr ⟨hrq, hold⟩)
      · exact .inr ⟨(htorn k).mpr (.inl hold), hno⟩
  · intro k v hv hd
    rw [htorn]
    obtain ⟨-, hv⟩ | ⟨rfl, rfl⟩ := hget k v hv
    · exact .inl (h.destroyed k v hv hd)
    · exact hown.symm.imp_left And.left
  · intro k hk
    obtain hk | hk := (htorn k).mp hk
    · exact h.torn k hk
    · obtain ⟨o, ho, -⟩ := h.tagged.tag q k (h.opened q k hk)
      exact h.inits ▸ (List.getElem?_eq_some_iff.mp ho).1
  · intro hok k v hv hk
    obtain ⟨hne, hv⟩ | ⟨rfl, rfl⟩ := hget k v hv
    · obtain hk | hk := (htorn k).mp hk
      · exact h.gone hok k v hv hk
      · have hkp := (h.opened q k hk).symm.trans hp
        exact absurd (Option.some.inj hkp) hne
    · simp [tornObj, hlib hok]

/-- **An action leaves the heap what the instances say.** -/
theorem Lives.action (h : Lives ok l t x) {lib : LibCalls} (hlib : ok → lib.nfqTeardown = true) {a : Action}
    {emu : Emulator} (hrun : runAction lib ⟨t, x⟩ a = .ok emu) : Lives ok (l.after a) emu.tcp emu.action := by
  have heffect := runAction_effect (e := ⟨t, x⟩) h.tagged.same hrun
  have ht := heffect.tagged h.tagged
  by_cases hcfg : ∃ q args, a = .initTcpSched q args
  · obtain ⟨q, args, rfl⟩ := hcfg
    rw [runAction_body lib _ rfl, onWorker_ok h.tagged.same] at hrun
    obtain ⟨p, o, w, t', hp, ho, hf, rfl⟩ := hrun
    have hlink : t'.wkctx = some p := (initTcpSched_link p).value _ hf
    have hset : Lives ok l t { x with heap := x.heap.set p { o with worker := w } } := h.setObj ho rfl rfl
    refine ⟨hset.tagged, hset.inits, hset.opened, hset.entries, ?_, ?_, hset.destroyed, hset.torn, hset.gone⟩
    · intro k hk
      have hkp := (h.opened q k hk).symm.trans hp
      rw [hlink, hkp]
      refine ⟨rfl, ?_⟩
      rw [Option.some.inj hkp]
      exact h.inits ▸ (List.getElem?_eq_some_iff.mp ho).1
    · intro hok k hk
      rw [hlink, Option.some.injEq] at hk
      subst hk
      exact (h.entries q p hp).resolve_right fun hno => hno.2 hok
  · have hwk : emu.tcp.wkctx = t.wkctx := by
      refine (action_returns (Q := fun u => u.wkctx = t.wkctx) rfl ?_).value emu hrun
      intro q f hb pos w
      exact (body_link hb (fun q args ha => hcfg ⟨q, args, ha⟩) pos).mono fun _ hr => hr.2
    generalize emu.action = x' at heffect ht
    refine Lives.sampler ?_ hwk
    cases heffect with
    | none ha =>
      cases a with
      | command c => exact h
      | _ => cases ha
    | write q p o w ha hinit hkept hp ho =>
      by_cases htear : a = .teardownNfqueue q
      · subst htear
        have hno : ¬ lib.nfqTeardown = true := by simp [hkept rfl]
        have htag : Tagged ⟨x.queues, x.queues, x.heap.set p (tornObj lib o)⟩ :=
          ⟨rfl, (@Tagged.set x p o (tornObj lib o) h.tagged ho rfl).tag⟩
        refine (h.close hlib hp ho (if_neg hno) htag).heap ht rfl ?_
        simp [List.map_set, tornObj, hkept rfl]
      · have hafter : l.after a = l := by
          cases a with
          | initNfqueue r => cases ha; exact absurd rfl hinit
          | teardownNfqueue r => cases ha; exact absurd rfl htear
          | initTcpSched r args => exact absurd ⟨r, args, rfl⟩ hcfg
          | _ => rfl
        rw [hafter]
        exact h.setObj ho (Action.onNfq_queueNum a o.nfq) rfl
    | opened q tab ha htab =>
      subst ha
      exact h.open htab ht
    | closed q p o tab ha hmade hp ho htab =>
      subst ha
      exact h.close hlib hp ho (by rwa [if_pos hmade]) ht

theorem Lives.tick (h : Lives ok l t x) {x' : ActionCtx} (hx : tick t x = .ok x') : Lives ok l t x' := by
  obtain ⟨p, o, w, -, ho, -, rfl⟩ := tick_ok.mp hx
  exact h.setObj ho rfl rfl

end Lives

/-! In the order of the trace. -/

/-- An `INIT` of queue `q` sorts before the event, and no teardown of `q` between the two. -/
def OpenAt (events : List (SchedulerEvent Action)) (q : UInt16) (e : SchedulerEvent Action) : Prop :=
  ∃ a ∈ events, a.action = .initNfqueue q ∧ schedulerCompareEvent a e < 0 ∧
    ∀ d ∈ events, d.action = .teardownNfqueue q → schedulerCompareEvent d e < 0 → schedulerCompareEvent d a < 0

/-- What a handler that is about to be called needs of the order of events: an action on a queue comes while the
    queue is open, and a tick while the instance that `SOL_INIT_SCHED` last linked is. -/
def InLifetime (events done : List (SchedulerEvent Action)) : Handler Action → Prop
  | .event e => ∀ q, e.action.queue? = some q → e.action ≠ .initNfqueue q → OpenAt events q e
  | .tick => ∃ k, (lifetimes done).linked = some k ∧ (lifetimes done).torn k = false

/-- What it finds: an action its queue in both tables, a tick a worker that has not been destroyed. -/
def Finds (h : Handler Action) (w : TcpCtx × ActionCtx × Nat) : Prop :=
  match h with
  | .event e => ∀ q, e.action.queue? = some q → e.action ≠ .initNfqueue q →
      entry w.2.1.queues q ≠ none ∧ entry w.2.1.workers q ≠ none
  | .tick => ∃ p o, w.1.wkctx = some p ∧ w.2.1.heap[p]? = some o ∧ o.destroyed = false

section Order
variable {q : UInt16}

theorem openAfter_iff {events : List (SchedulerEvent Action)}
    (hs : events.Pairwise fun a b => schedulerCompareEvent a b < 0) {k : Nat} {e : SchedulerEvent Action}
    (he : events[k]? = some e) : OpenAfter q (events.take k) ↔ OpenAt events q e := by
  constructor
  · intro ⟨pre, a, post, hes, ha, hpost⟩
    obtain ⟨hmem, hlt⟩ := (mem_take_iff hs he).mp (hes ▸ List.mem_append_cons_self : a ∈ events.take k)
    refine ⟨a, hmem, ha, hlt, fun d hd htorn hde => ?_⟩
    have hdk := (mem_take_iff hs he).mpr ⟨hd, hde⟩
    have hsorted := hs.sublist (List.take_sublist k events)
    rw [hes] at hdk hsorted
    obtain hd | hd := List.mem_append.mp hdk
    · exact (List.pairwise_append.mp hsorted).2.2 d hd a List.mem_cons_self
    · obtain rfl | hd := List.mem_cons.mp hd
      · cases ha.symm.trans htorn
      · exact absurd htorn (hpost d hd)
  · intro ⟨a, hmem, ha, hlt, hnone⟩
    obtain ⟨pre, post, hes⟩ := List.append_of_mem ((mem_take_iff hs he).mpr ⟨hmem, hlt⟩)
    refine ⟨pre, a, post, hes, ha, fun d hd htorn => ?_⟩
    have hdk : d ∈ events.take k := by
      rw [hes]
      exact List.mem_append_right _ (List.mem_cons_of_mem a hd)
    obtain ⟨hde, hlte⟩ := (mem_take_iff hs he).mp hdk
    have hsorted := hs.sublist (List.take_sublist k events)
    rw [hes] at hsorted
    have had := (List.pairwise_cons.mp (List.pairwise_append.mp hsorted).2.1).1 d hd
    exact schedulerCompareEvent_asymm had (hnone d hde htorn hlte)

theorem OpenAt.perm {events events' : List (SchedulerEvent Action)} (h : events.Perm events')
    {e : SchedulerEvent Action} : OpenAt events q e ↔ OpenAt events' q e := by
  simp only [OpenAt, h.mem_iff]

end Order

/-! What the instances provide is found, and nothing else. -/

section Found
variable {ok : Prop} {l : Lifetimes} {t : TcpCtx} {x : ActionCtx} {q : UInt16}

theorem Lives.entries_of_opened (h : Lives ok l t x) (hq : ∃ k, l.opened q = some k) :
    entry x.queues q ≠ none ∧ entry x.workers q ≠ none := by
  obtain ⟨k, hk⟩ := hq
  rw [h.tagged.same, h.opened q k hk]
  exact ⟨Option.some_ne_none k, Option.some_ne_none k⟩

theorem Lives.opened_of_entry (h : Lives ok l t x) (hok : ok) (hq : entry x.queues q ≠ none) :
    ∃ k, l.opened q = some k := by
  obtain ⟨k, hk⟩ := Option.ne_none_iff_exists'.mp hq
  exact ⟨k, (h.entries q k hk).resolve_right fun hno => hno.2 hok⟩

theorem Lives.worker_of_linked (h : Lives ok l t x) (hk : ∃ k, l.linked = some k ∧ l.torn k = false) :
    ∃ p o, t.wkctx = some p ∧ x.heap[p]? = some o ∧ o.destroyed = false := by
  obtain ⟨k, hk, htorn⟩ := hk
  obtain ⟨hwk, hlt⟩ := h.linked k hk
  have ho := List.getElem?_eq_getElem (h.inits ▸ hlt : k < x.heap.length)
  refine ⟨k, _, hwk, ho, ?_⟩
  rw [Bool.eq_false_iff]
  intro hd
  rw [h.destroyed k _ ho hd] at htorn
  cases htorn

theorem Lives.linked_of_worker (h : Lives ok l t x) (hok : ok)
    (hp : ∃ p o, t.wkctx = some p ∧ x.heap[p]? = some o ∧ o.destroyed = false) :
    ∃ k, l.linked = some k ∧ l.torn k = false := by
  obtain ⟨p, o, hwk, ho, hd⟩ := hp
  refine ⟨p, h.link hok p hwk, ?_⟩
  rw [Bool.eq_false_iff]
  intro htorn
  rw [h.gone hok p o ho htorn] at hd
  cases hd

end Found

section Run
variable (env : Env) (scheduler : SchedulerCtx Action) (clock : Nat → Nat) (mem : TcpCtx) (n : Nat)

theorem lives_run : Lives (∀ k, (env.lib k).nfqTeardown = true)
    (lifetimes (executed (emuRun env scheduler clock mem n))) (emuRun env scheduler clock mem n).world.1
    (emuRun env scheduler clock mem n).world.2.1 := by
  refine history_run (I := fun es t x => Lives _ (lifetimes es) t x) ?_ ?_ ?_ ?_ ?_ n
  · exact lives_start mem
  · exact fun es t x k h => h.disturb env k
  · exact fun es t x h => h.sampler rfl
  · intro es t x k e emu h hrun
    rw [lifetimes_snoc]
    exact h.action (fun hok => hok k) hrun
  · exact fun es t x x' h hx => h.tick hx

end Run

/-- **A handler finds its queue, and a tick a live worker, if the order of the events provides it**, for every
    trace the parser accepts and all that the library and the packet threads may do; and only
    then, if the library makes every teardown it is asked for. -/
theorem handlers_alive_iff (env : Env) (clock : Nat → Nat) (mem : TcpCtx) {lines : List (List Char)}
    {scheduler : SchedulerCtx Action} (hparse : parseTrace schedulerInitCtx lines = .ok scheduler) {n : Nat}
    {fire : UInt64} {h : Handler Action} {si : Int} (hpc : (emuRun env scheduler clock mem n).pc = .wait fire h si) :
    (InLifetime scheduler.events (executed (emuRun env scheduler clock mem n)) h →
      Finds h (emuRun env scheduler clock mem n).world) ∧
    ((∀ k, (env.lib k).nfqTeardown = true) →
      (Finds h (emuRun env scheduler clock mem n).world ↔
        InLifetime scheduler.events (executed (emuRun env scheduler clock mem n)) h)) := by
  have hstrict := qsortEvents_strict (parseTrace_numbered (by intro i e he; cases he) hparse)
  have hlives := lives_run env scheduler clock mem n
  have hindexed : Indexed (qsortEvents scheduler.events) (emuRun env scheduler clock mem n) := indexed_run _ n
  generalize emuRun env scheduler clock mem n = s at *
  cases h with
  | event e =>
    simp only [Indexed, hpc] at hindexed
    obtain ⟨k, -, hes, hev⟩ := hindexed
    have hopen : ∀ q, OpenAt scheduler.events q e ↔ ∃ k, (lifetimes (executed s)).opened q = some k := by
      intro q
      rw [opened_iff, hes, openAfter_iff hstrict hev]
      exact OpenAt.perm (qsortEvents_perm scheduler.events).symm
    have hfinds : InLifetime scheduler.events (executed s) (.event e) → Finds (.event e) s.world :=
      fun hin q hq hinit => hlives.entries_of_opened ((hopen q).mp (hin q hq hinit))
    refine ⟨hfinds, fun hok => ⟨fun hf q hq hinit => ?_, hfinds⟩⟩
    exact (hopen q).mpr (hlives.opened_of_entry hok (hf q hq hinit).1)
  | tick =>
    exact ⟨hlives.worker_of_linked, fun hok => ⟨hlives.linked_of_worker hok, hlives.worker_of_linked⟩⟩

theorem handlers_alive_iff_link :
    Finds .tick (emuRun quietEnv (linkScheduler 3) id zeroTcp 7).world := by
  have hparse : parseTrace schedulerInitCtx (linkTrace '3') = .ok (linkScheduler 3) := rfl
  have hpc : (emuRun quietEnv (linkScheduler 3) id zeroTcp 7).pc = .wait 3 .tick 3 := by
    rw [emuRun, schedulerRun, linkScheduler_sorted]
    rfl
  refine (handlers_alive_iff quietEnv id zeroTcp hparse hpc).1 ⟨0, ?_⟩
  rw [emuRun, schedulerRun, linkScheduler_sorted]
  exact ⟨rfl, rfl⟩

/-! A gap that ends after its queue, and a sampler that outlives its worker. -/

def gapTrace : List (List Char) := ["0,INIT,0,0,100".toList, "50,HO,0,1,60,0,0,0".toList]

def gapScheduler : SchedulerCtx Action :=
  ⟨[⟨0, .initNfqueue 0, 0⟩, ⟨100, .teardownNfqueue 0, 1⟩, ⟨0, .startNfqueue 0, 2⟩, ⟨50, .stopNfqueue 0, 3⟩,
    ⟨110, .startNfqueue 0, 4⟩, ⟨50, .setMark 0 1, 5⟩]⟩

theorem gapScheduler_sorted :
    qsortEvents gapScheduler.events =
      [⟨0, .initNfqueue 0, 0⟩, ⟨0, .startNfqueue 0, 2⟩, ⟨50, .stopNfqueue 0, 3⟩, ⟨50, .setMark 0 1, 5⟩,
        ⟨100, .teardownNfqueue 0, 1⟩, ⟨110, .startNfqueue 0, 4⟩] := by
  apply qsortEvents_unique
  · decide
  · simp [schedulerCompareEvent]

def samplerTrace : List (List Char) :=
  ["0,INIT,0,0,10".toList, "0,INIT,1,0,100".toList, "0,SOL_INIT_SCHED,0,1,30,90,2,0,1,2000,20,2,4000,46".toList]

def samplerArgs : InitTcpSchedArgs :=
  { enable := 1, sampleInterval := 30, threshold := (90 : Int) / 100, pace := (2 : Int) / 100, fire := 0, mark := 1,
    initParam := #v[⟨0, 0, 0⟩, ⟨1, 2000, 20⟩, ⟨2, 4000, 46⟩] }

def samplerScheduler : SchedulerCtx Action :=
  ⟨[⟨0, .initNfqueue 0, 0⟩, ⟨10, .teardownNfqueue 0, 1⟩, ⟨0, .startNfqueue 0, 2⟩, ⟨0, .initNfqueue 1, 3⟩,
    ⟨100, .teardownNfqueue 1, 4⟩, ⟨0, .startNfqueue 1, 5⟩, ⟨0, .initTcpSched 0 samplerArgs, 6⟩]⟩

theorem samplerScheduler_sorted :
    qsortEvents samplerScheduler.events =
      [⟨0, .initNfqueue 0, 0⟩, ⟨0, .startNfqueue 0, 2⟩, ⟨0, .initNfqueue 1, 3⟩, ⟨0, .startNfqueue 1, 5⟩,
        ⟨0, .initTcpSched 0 samplerArgs, 6⟩, ⟨10, .teardownNfqueue 0, 1⟩, ⟨100, .teardownNfqueue 1, 4⟩] := by
  apply qsortEvents_unique
  · apply List.Perm.cons
    exact (@List.perm_middle _ _ [_, _, _, _] [_]).trans
      ((List.Perm.append_left [_, _] (@List.perm_append_comm _ [_, _] [_])).cons _)
  · simp [schedulerCompareEvent]

/-- The start at 110 follows the entry that the teardown at 100 has cleared; the tick at 20 works on the worker
    that the teardown at 10 has destroyed. -/
theorem gap_outlives_queue :
    parseTrace schedulerInitCtx gapTrace = .ok gapScheduler ∧
      (emuRun quietEnv gapScheduler (1000 * ·) zeroTcp 11).pc = .wait 110 (.event ⟨110, .startNfqueue 0, 4⟩) 0 ∧
      entry (emuRun quietEnv gapScheduler (1000 * ·) zeroTcp 11).world.2.1.queues 0 = none ∧
      (emuRun quietEnv gapScheduler (1000 * ·) zeroTcp 12).pc = .crashed .nullDeref ∧
      parseTrace schedulerInitCtx samplerTrace = .ok samplerScheduler ∧
      (emuRun quietEnv samplerScheduler (1000 * ·) zeroTcp 13).pc = .wait 20 .tick 20 ∧
      (emuRun quietEnv samplerScheduler (1000 * ·) zeroTcp 13).world.1.wkctx = some 0 ∧
      ((emuRun quietEnv samplerScheduler (1000 * ·) zeroTcp 13).world.2.1.heap[0]?).map QueueObj.destroyed =
        some true := by
  simp only [emuRun, schedulerRun, gapScheduler_sorted, samplerScheduler_sorted]
  exact ⟨rfl, rfl, rfl, rfl, rfl, rfl, rfl, rfl⟩

end Handoff
