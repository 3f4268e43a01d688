import Handoff.Controller
import Handoff.History

/- The fields of a worker that are set from the trace alone.

   The mark and the duplicate suppression are set by one action each and reset by an `INIT`;
   packets, ticks and every other action leave them. So the worker a queue is open with holds
   what the last of these wrote, in any run of the emulator (`Setting.run`). -/
namespace Handoff

open Iterate

/-- A field that only the actions write, an `INIT` among them. -/
structure Setting (β : Type) where
  get : WorkerCtx → β
  write : Action → Option β
  init : ∀ q mem, write (.initNfqueue q) = some (get (workerInitCtx mem))
  rest : ∀ {a : Action}, a.body? = none → (∀ q, a ≠ .initNfqueue q) → write a = none
  body : ∀ {a : Action} {q : UInt16} {f : Body} {pos w t w' t'}, a.body? = some (q, f) →
    f pos w t = .ok (w', t') → get w' = (write a).getD (get w)
  packet : ∀ {csum w nfa w' vs}, workerCallback csum w nfa = .ok (w', vs) → get w' = get w
  tick : ∀ {t w w'}, tcpSchedule t w = .ok w' → get w' = get w

/-! The mark and the suppression. -/

/-- The mark an action leaves, and the suppression. -/
def Action.mark? : Action → Option UInt32
  | .initNfqueue _ => some 0
  | .setMark _ mark => some mark
  | _ => none

def Action.dedup? : Action → Option Int
  | .initNfqueue _ => some 0
  | .setDedup _ enable => some enable
  | _ => none

/-- The bodies that look up a link leave both. -/
def Untouched (w : WorkerCtx) (r : WorkerCtx × TcpCtx) : Prop := r.1.mark = w.mark ∧ r.1.doDedup = w.doDedup

section Bodies
variable {w : WorkerCtx} {t : TcpCtx}

theorem solUpdate_untouched (mark : UInt32) : Returns (Untouched w) (solUpdate mark w t) := by
  have hlast : ∀ t' : TcpCtx, Returns (Untouched w) (do
      let p ← readAt t'.histParam mark.toNat
      return (workerSolUpdate w p.histRw, t') : C (WorkerCtx × TcpCtx)) :=
    fun t' => Returns.bind_any fun _ => .ok ⟨rfl, rfl⟩
  unfold solUpdate
  by_cases hw : 0 < w.tuneRwnd
  · rw [if_pos hw]
    exact Returns.bind_any fun _ => Returns.bind_any fun _ => hlast _
  · rw [if_neg hw]
    exact hlast t

theorem setBurst_untouched (enable : Int) : Returns (Untouched w) (setBurst enable w t) := by
  apply Returns.bind_any
  intro p
  have hset : ∀ t', Untouched w (workerSetBurst w enable p.histRw, t') := by
    intro t'
    unfold workerSetBurst
    split <;> exact ⟨rfl, rfl⟩
  refine .ite (fun _ => .ok (hset _)) fun _ => .ite (fun _ => ?_) fun _ => .ok (hset _)
  exact Returns.bind_any fun _ => .ok (hset _)

theorem setAdapt_untouched (enable : Int) : Returns (Untouched w) (setAdapt enable w t) := by
  apply Returns.bind_any
  intro p
  apply Returns.ok
  unfold workerSetAdapt
  split <;> exact ⟨rfl, rfl⟩

theorem initTcpSched_untouched (args : InitTcpSchedArgs) (pos : Nat) :
    Returns (Untouched w) (initTcpSched args pos w t) :=
  Returns.bind_any fun _ => Returns.bind_any fun _ => .ok ⟨rfl, rfl⟩

theorem body_fields {a : Action} {q : UInt16} {f : Body} {pos : Nat} {w' : WorkerCtx} {t' : TcpCtx}
    (h : a.body? = some (q, f)) (hf : f pos w t = .ok (w', t')) :
    w'.mark = a.mark?.getD w.mark ∧ w'.doDedup = a.dedup?.getD w.doDedup := by
  cases a with
  | setMark r mark => cases h; cases hf; exact ⟨rfl, rfl⟩
  | setDedup r enable => cases h; cases hf; exact ⟨rfl, rfl⟩
  | setReorder r enable count offset =>
    cases h
    cases hf
    simp only [workerSetReorder]
    by_cases he : enable ≠ 0
    · rw [if_pos he]
      exact ⟨rfl, rfl⟩
    · rw [if_neg he]
      exact ⟨rfl, rfl⟩
  | setDrop r enable dropCount =>
    cases h
    cases hf
    unfold workerSetDrop
    split <;> exact ⟨rfl, rfl⟩
  | setRwnd r rwnd => cases h; cases hf; exact ⟨rfl, rfl⟩
  | solUpdate r mark => cases h; exact (solUpdate_untouched mark).value _ hf
  | setBurst r enable => cases h; exact (setBurst_untouched enable).value _ hf
  | setAdapt r enable => cases h; exact (setAdapt_untouched enable).value _ hf
  | initTcpSched r args => cases h; exact (initTcpSched_untouched args pos).value _ hf
  | _ => cases h

end Bodies

def markSetting : Setting UInt32 where
  get := WorkerCtx.mark
  write := Action.mark?
  init _ _ := rfl
  rest {a} hb hi := by
    cases a with
    | initNfqueue q => exact absurd rfl (hi q)
    | setMark q mark => cases hb
    | _ => rfl
  body h hf := (body_fields h hf).1
  packet h := congrArg (fun s => s.2.2.2.2.2) (callback_settings h)
  tick h := by
    obtain ⟨r, rfl⟩ := tcpSchedule_ok h
    rfl

def dedupSetting : Setting Int where
  get := WorkerCtx.doDedup
  write := Action.dedup?
  init _ _ := rfl
  rest {a} hb hi := by
    cases a with
    | initNfqueue q => exact absurd rfl (hi q)
    | setDedup q enable => cases hb
    | _ => rfl
  body h hf := (body_fields h hf).2
  packet h := congrArg (fun s => s.2.2.2.2.1) (callback_settings h)
  tick h := by
    obtain ⟨r, rfl⟩ := tcpSchedule_ok h
    rfl

/-! The last write. -/

section Last
variable {β : Type} (S : Setting β) {q : UInt16} {lib : LibCalls}

/-- What an action makes of the value last written on queue `q`. -/
def Setting.after (q : UInt16) (a : Action) (v : Option β) : Option β :=
  if a.queue? = some q then (S.write a).or v else v

/-- The value last written on queue `q`. -/
def Setting.last (q : UInt16) (as : List Action) : Option β := as.foldl (fun v a => S.after q a v) none

theorem Setting.last_snoc (q : UInt16) (as : List Action) (a : Action) :
    S.last q (as ++ [a]) = S.after q a (S.last q as) := by
  simp [Setting.last]

theorem Setting.last_eq_some {q : UInt16} {v : β} (as : List Action) :
    S.last q as = some v ↔ ∃ pre a post, as = pre ++ a :: post ∧ a.queue? = some q ∧ S.write a = some v ∧
      ∀ b ∈ post, b.queue? = some q → S.write b = none := by
  induction as using List.reverseRecOn with
  | nil => simp [Setting.last]
  | append_singleton as a ih =>
    rw [Setting.last_snoc, Setting.after]
    refine ⟨?_, ?_⟩
    · intro h
      by_cases hw : a.queue? = some q ∧ ∃ u, S.write a = some u
      · obtain ⟨hq, u, hu⟩ := hw
        rw [if_pos hq, hu, Option.some_or] at h
        exact ⟨as, a, [], rfl, hq, hu.trans h, fun b hb => by cases hb⟩
      · -- the last action does not write
        have hidle : a.queue? = some q → S.write a = none := by
          intro hq
          cases hu : S.write a with
          | none => rfl
          | some u => exact absurd ⟨hq, u, hu⟩ hw
        have hlast : S.last q as = some v := by
          split at h
          · next hq => rwa [hidle hq, Option.none_or] at h
          · exact h
        obtain ⟨pre, b, post, rfl, hq, hb, hpost⟩ := ih.mp hlast
        refine ⟨pre, b, post ++ [a], by simp, hq, hb, fun c hc => ?_⟩
        obtain hc | hc := List.mem_append.mp hc
        · exact hpost c hc
        · rw [List.mem_singleton.mp hc]
          exact hidle
    · intro h
      obtain ⟨pre, b, post, has, hq, hb, hpost⟩ := h
      obtain rfl | ⟨post', c, rfl⟩ := List.eq_nil_or_concat' post
      · obtain ⟨rfl, hab⟩ := List.append_inj' has rfl
        cases hab
        rw [if_pos hq, hb, Option.some_or]
      · rw [← List.cons_append, ← List.append_assoc] at has
        obtain ⟨rfl, hac⟩ := List.append_inj' has rfl
        cases hac
        have hlast := ih.mpr ⟨pre, b, post', rfl, hq, hb, fun c hc => hpost c (List.mem_append_left _ hc)⟩
        split
        · next hqa => rw [hpost a (by simp) hqa, Option.none_or, hlast]
        · exact hlast

/-- The worker that queue `q` is open with, if any, holds `v`. -/
def Setting.Shows (q : UInt16) (v : Option β) (x : ActionCtx) : Prop :=
  ∀ o, view x q = some o → v = some (S.get o.worker)

/-- **An action writes its value**, and leaves every other. -/
theorem Setting.action {a : Action} {e e' : Emulator} {v : Option β} (ht : Tagged e.action)
    (h : S.Shows q v e.action) (hrun : runAction lib e a = .ok e') : S.Shows q (S.after q a v) e'.action := by
  intro o' ho'
  by_cases hq : a.queue? = some q
  · rw [Setting.after, if_pos hq]
    -- an action without a body that is no `INIT` leaves the worker
    have hkept : ∀ {p o}, a.body? = none → (∀ r, a ≠ .initNfqueue r) → entry e.action.queues q = some p →
        e.action.heap[p]? = some o → o'.worker = o.worker → (S.write a).or v = some (S.get o'.worker) := by
      intro p o hb hi hp ho hw
      rw [S.rest hb hi, Option.none_or, hw]
      exact h o (view_eq hp ho)
    rcases hb : a.body? with _ | ⟨r, f⟩
    · cases a with
      | command c => cases hq
      | initNfqueue r =>
        cases hq
        obtain ⟨-, tab, htab, rfl⟩ := (actionInit_ok ht.same).mp hrun
        have hentry : entry tab q = some e.action.heap.length := by rw [entry_writeAt htab, if_pos rfl]
        have hview : view ⟨tab, tab, e.action.heap ++ [freshObj lib q]⟩ q = some (freshObj lib q) :=
          view_eq hentry (by simp)
        cases hview.symm.trans ho'
        rw [S.init q lib.mem]
        rfl
      | startNfqueue r =>
        cases hq
        obtain ⟨p, o, hp, ho, rfl⟩ := onQueue_ok.mp hrun
        cases (view_set_own hp ho).symm.trans ho'
        exact hkept hb (fun _ => Action.noConfusion) hp ho rfl
      | stopNfqueue r =>
        cases hq
        obtain ⟨p, o, hp, ho, rfl⟩ := onQueue_ok.mp hrun
        cases (view_set_own hp ho).symm.trans ho'
        exact hkept hb (fun _ => Action.noConfusion) hp ho rfl
      | teardownNfqueue r =>
        cases hq
        obtain ⟨p, o, hp, ho, tab, htab, rfl⟩ := (actionTeardown_ok ht.same).mp hrun
        by_cases hlib : lib.nfqTeardown = true
        · -- the entry is cleared
          rw [if_pos hlib] at htab
          have hnone : entry tab q = none := by rw [entry_writeAt htab, if_pos rfl]
          simp [view, hnone] at ho'
        · rw [if_neg hlib] at htab
          cases htab
          have hview := @view_set_own e.action p o (tornObj lib o) q hp ho
          cases hview.symm.trans ho'
          exact hkept hb (fun _ => Action.noConfusion) hp ho rfl
      | _ => cases hb
    · rw [runAction_body lib e hb, onWorker_ok ht.same] at hrun
      obtain ⟨p, o, w, t, hp, ho, hf, rfl⟩ := hrun
      obtain rfl : r = q := Option.some.inj ((Action.queue_of_body hb).symm.trans hq)
      cases (view_set_own hp ho).symm.trans ho'
      show (S.write a).or v = some (S.get w)
      rw [S.body hb hf]
      cases S.write a with
      | none => exact h o (view_eq hp ho)
      | some x => rfl
  · have hsame : S.after q a v = v := if_neg hq
    rw [(runAction_effect ht.same hrun).view_other ht hq] at ho'
    rw [hsame]
    exact h o' ho'

/-- The body of the action runs on the worker at position `p`. -/
def Action.Reaches (a : Action) (x : ActionCtx) (p : Nat) : Prop :=
  ∃ q f, a.body? = some (q, f) ∧ entry x.queues q = some p

/-- **The objects after an action**: a new one, or an old one of the same queue, on which the value is the one
    written if the action reaches it and the old one otherwise. -/
theorem Setting.object {a : Action} {e e' : Emulator} (ht : Tagged e.action) (hrun : runAction lib e a = .ok e')
    {p : Nat} {o' : QueueObj} (ho' : e'.action.heap[p]? = some o') :
    (p = e.action.heap.length ∧ ∃ q, a = .initNfqueue q ∧ o' = freshObj lib q) ∨
      ∃ o, e.action.heap[p]? = some o ∧ o'.nfq.queueNum = o.nfq.queueNum ∧
        (a.Reaches e.action p → S.get o'.worker = (S.write a).getD (S.get o.worker)) ∧
        (¬ a.Reaches e.action p → S.get o'.worker = S.get o.worker) := by
  -- writing an object without running a body
  have hset : ∀ {r : Nat} {o : QueueObj} (o₁ : QueueObj), a.body? = none → e.action.heap[r]? = some o →
      o₁.nfq.queueNum = o.nfq.queueNum → o₁.worker = o.worker → (e.action.heap.set r o₁)[p]? = some o' →
      ∃ o, e.action.heap[p]? = some o ∧ o'.nfq.queueNum = o.nfq.queueNum ∧
        (a.Reaches e.action p → S.get o'.worker = (S.write a).getD (S.get o.worker)) ∧
        (¬ a.Reaches e.action p → S.get o'.worker = S.get o.worker) := by
    intro r o o₁ hb ho hnum hw hget
    have hno : ¬ a.Reaches e.action p := fun ⟨q, f, hf, _⟩ => by cases hb.symm.trans hf
    by_cases hr : r = p
    · subst hr
      cases (List.getElem?_set_self (List.getElem?_eq_some_iff.mp ho).1).symm.trans hget
      exact ⟨o, ho, hnum, fun h => absurd h hno, fun _ => by rw [hw]⟩
    · rw [List.getElem?_set_ne hr] at hget
      exact ⟨o', hget, rfl, fun h => absurd h hno, fun _ => rfl⟩
  rcases hb : a.body? with _ | ⟨q, f⟩
  · have hno : ¬ a.Reaches e.action p := fun ⟨q, f, hf, _⟩ => by cases hb.symm.trans hf
    cases a with
    | command c => cases hrun; exact .inr ⟨o', ho', rfl, fun h => absurd h hno, fun _ => rfl⟩
    | initNfqueue q =>
      obtain ⟨-, tab, -, rfl⟩ := (actionInit_ok ht.same).mp hrun
      by_cases hp : p < e.action.heap.length
      · have hold : e.action.heap[p]? = some o' := by rwa [List.getElem?_append_left hp] at ho'
        exact .inr ⟨o', hold, rfl, fun h => absurd h hno, fun _ => rfl⟩
      · have hlen := (List.getElem?_eq_some_iff.mp ho').1
        simp only [List.length_append, List.length_singleton] at hlen
        obtain rfl : p = e.action.heap.length := by omega
        have hnew : (e.action.heap ++ [freshObj lib q])[e.action.heap.length]? = some (freshObj lib q) := by simp
        exact .inl ⟨rfl, q, rfl, Option.some.inj (ho'.symm.trans hnew)⟩
    | startNfqueue q =>
      obtain ⟨r, o, -, ho, rfl⟩ := onQueue_ok.mp hrun
      exact .inr (hset ⟨nfqStart o.nfq, o.worker, o.destroyed⟩ hb ho rfl rfl ho')
    | stopNfqueue q =>
      obtain ⟨r, o, -, ho, rfl⟩ := onQueue_ok.mp hrun
      exact .inr (hset ⟨nfqStop o.nfq, o.worker, o.destroyed⟩ hb ho rfl rfl ho')
    | teardownNfqueue q =>
      obtain ⟨r, o, -, ho, tab, -, rfl⟩ := (actionTeardown_ok ht.same).mp hrun
      exact .inr (hset (tornObj lib o) hb ho rfl rfl ho')
    | _ => cases hb
  · rw [runAction_body lib e hb, onWorker_ok ht.same] at hrun
    obtain ⟨r, o, w, t, hr, ho, hf, rfl⟩ := hrun
    refine .inr ?_
    by_cases hrp : r = p
    · subst hrp
      cases (List.getElem?_set_self (List.getElem?_eq_some_iff.mp ho).1).symm.trans ho'
      exact ⟨o, ho, rfl, fun _ => S.body hb hf, fun h => absurd ⟨q, f, hb, hr⟩ h⟩
    · rw [List.getElem?_set_ne hrp] at ho'
      refine ⟨o', ho', rfl, fun h => ?_, fun _ => rfl⟩
      obtain ⟨q', f', hb', hr'⟩ := h
      cases hb.symm.trans hb'
      exact absurd (Option.some.inj (hr.symm.trans hr')) hrp

theorem Setting.set {v : Option β} {x : ActionCtx} {p : Nat} {o o' : QueueObj} (h : S.Shows q v x)
    (ho : x.heap[p]? = some o) (hget : S.get o'.worker = S.get o.worker) :
    S.Shows q v { x with heap := x.heap.set p o' } := by
  intro o₁ ho₁
  obtain ⟨r, hr, hget₁⟩ := Option.bind_eq_some_iff.mp ho₁
  by_cases hpr : p = r
  · subst hpr
    cases (List.getElem?_set_self (List.getElem?_eq_some_iff.mp ho).1).symm.trans hget₁
    rw [hget]
    exact h o (view_eq (q := q) hr ho)
  · rw [List.getElem?_set_ne hpr] at hget₁
    exact h o₁ (view_eq (q := q) hr hget₁)

theorem Setting.ticked {v : Option β} {t : TcpCtx} {x x' : ActionCtx} (h : S.Shows q v x) (hx : Handoff.tick t x = .ok x') :
    S.Shows q v x' := by
  obtain ⟨p, o, w, -, ho, hw, rfl⟩ := tick_ok.mp hx
  exact Setting.set S h ho (S.tick hw)

end Last

/-! The run of the scheduler. -/

/-- All the packet threads do to a worker is to hand it packets. -/
def PacketThreads (csum : List UInt8 → UInt16) (env : Env) : Prop :=
  ∀ k p w, ∃ (nfas : List NfqData) (vs : List Verdict),
    Machine.run (workerStep csum) w (nfas.map .callback) = .ok (env.threads k p w, vs)

section Run
variable {β : Type} (S : Setting β) {csum : List UInt8 → UInt16}

theorem Setting.packets (nfas : List NfqData) : ∀ {w w' : WorkerCtx} {vs : List Verdict},
    Machine.run (workerStep csum) w (nfas.map .callback) = .ok (w', vs) → S.get w' = S.get w := by
  induction nfas with
  | nil =>
    intro w w' vs h
    cases h
    rfl
  | cons nfa nfas ih =>
    intro w w' vs h
    obtain ⟨w₁, o₁, o₂, hstep, hrest, -⟩ := Machine.run_cons_ok.mp h
    rw [ih hrest]
    exact S.packet hstep

/-- **The worker of a queue holds what was last written**, in every run of the scheduler whose packet threads
    hand over packets. -/
theorem Setting.run {env : Env} (henv : PacketThreads csum env) (scheduler : SchedulerCtx Action)
    (clock : Nat → Nat) (mem : TcpCtx) (q : UInt16) (n : Nat) :
    S.Shows q (S.last q ((executed (emuRun env scheduler clock mem n)).map SchedulerEvent.action))
      (emuRun env scheduler clock mem n).world.2.1 := by
  refine (history_run (I := fun es _ x => Tagged x ∧ S.Shows q (S.last q (es.map SchedulerEvent.action)) x)
    ?_ ?_ ?_ ?_ ?_ n).2
  · refine ⟨actionInitCtx_tagged, fun o ho => ?_⟩
    obtain ⟨p, hp, -⟩ := Option.bind_eq_some_iff.mp ho
    obtain ⟨o, ho, -⟩ := actionInitCtx_tagged.tag q p hp
    simp [actionInitCtx] at ho
  · intro es t x k h
    refine ⟨h.1.disturb k, fun o ho => ?_⟩
    obtain ⟨p, hp, hget⟩ := Option.bind_eq_some_iff.mp ho
    rw [disturb_get] at hget
    obtain ⟨o₀, ho₀, rfl⟩ := Option.map_eq_some_iff.mp hget
    obtain ⟨nfas, vs, hrun⟩ := henv k p o₀.worker
    show _ = some (S.get (env.threads k p o₀.worker))
    rw [S.packets nfas hrun]
    exact h.2 o₀ (view_eq hp ho₀)
  · exact fun es t x h => h
  · intro es t x k e emu h hrun
    refine ⟨(runAction_effect (e := ⟨t, x⟩) h.1.same hrun).tagged h.1, ?_⟩
    rw [List.map_append, List.map_singleton, Setting.last_snoc]
    exact Setting.action S (e := ⟨t, x⟩) h.1 h.2 hrun
  · intro es t x x' h hx
    refine ⟨?_, Setting.ticked S h.2 hx⟩
    obtain ⟨p, o, w, -, ho, -, rfl⟩ := tick_ok.mp hx
    exact h.1.set ho rfl

end Run

end Handoff
