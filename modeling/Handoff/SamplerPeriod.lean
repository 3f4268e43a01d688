import Handoff.Environment
import Handoff.TraceFields

/- Where the sampler's period comes from.

   Three actions set the period: `SOL_INIT_SCHED` to the RTT of its first link, the burst phase
   to the burst period, the adaptation phase to the RTT of the current link. `Periods P M` says
   that the period in force and all the numbers it may be set to have the property `P`, as long
   as the current link stays in `M`; every action whose own numbers are of that kind keeps it
   (`action_periods`). -/
namespace Handoff

/-- The numbers a period is taken from have the property `P`, and the current link is in `M`. -/
structure Periods (P M : Int → Prop) (t : TcpCtx) : Prop where
  now : P t.sampleInterval
  burst : P t.burstSampleInterval
  rtt : ∀ i p, M i → readAt t.histParam i = .ok p → P p.rtt
  link : M t.mark

/-- The numbers an action brings in are of that kind. A `SOL_INIT_SCHED` line starts on link 1. -/
def Action.Gives (P M : Int → Prop) : Action → Prop
  | .solUpdate _ mark => M (toInt mark.toNat)
  | .initTcpSched _ args =>
    P args.sampleInterval ∧ P args.rtt₁ ∧ P args.rtt₂ ∧ args.mark = 1 ∧ M 1
  | _ => True

section Bodies
variable {P M : Int → Prop} {w : WorkerCtx} {t : TcpCtx}

theorem rtt_writeAt {i : Int} {p : LinkParameter} {rw : Int} {hist : Vector LinkParameter 3}
    (hp : readAt t.histParam i = .ok p) (hw : writeAt t.histParam i { p with histRw := rw } = .ok hist)
    (h : ∀ j q, M j → readAt t.histParam j = .ok q → P q.rtt) :
    ∀ j q, M j → readAt hist j = .ok q → P q.rtt := by
  intro j q hj hq
  obtain ⟨⟨hi0, hi⟩, rfl⟩ := writeAt_ok.mp hw
  obtain ⟨hji, rfl⟩ | ⟨-, hq⟩ := readAt_set hq
  · have hji' : j = i := by omega
    exact h i p (hji' ▸ hj) hp
  · exact h j q hj hq

theorem solUpdate_periods {mark : UInt32} (h : Periods P M t) (hmark : M (toInt mark.toNat)) :
    Returns (fun r => Periods P M r.2) (solUpdate mark w t) := by
  have hlast : ∀ t' : TcpCtx, Periods P M t' → Returns (fun r => Periods P M r.2) (do
      let p ← readAt t'.histParam mark.toNat
      return (workerSolUpdate w p.histRw, t') : C (WorkerCtx × TcpCtx)) :=
    fun t' ht' => Returns.bind_any fun _ => .ok ht'
  apply Returns.ite
  · intro _
    apply Returns.bind_eq
    intro p hp
    apply Returns.bind_eq
    intro hist hw
    apply Returns.bind (P := Periods P M)
    · apply Returns.ok
      refine ⟨h.now, h.burst, rtt_writeAt hp hw h.rtt, ?_⟩
      simp only
      exact hmark
    · exact hlast
  · exact fun _ => hlast t h

theorem setBurst_periods {enable : Int} (h : Periods P M t) :
    Returns (fun r => Periods P M r.2) (setBurst enable w t) := by
  apply Returns.bind_eq
  intro p hp
  apply Returns.ite
  · exact fun _ => .ok ⟨h.burst, h.burst, h.rtt, h.link⟩
  · intro _
    apply Returns.ite
    · intro _
      apply Returns.bind_eq
      intro hist hw
      apply Returns.ok
      exact ⟨h.now, h.burst, rtt_writeAt hp hw h.rtt, h.link⟩
    · exact fun _ => .ok h

theorem setAdapt_periods {enable : Int} (h : Periods P M t) :
    Returns (fun r => Periods P M r.2) (setAdapt enable w t) := by
  apply Returns.bind_eq
  intro p hp
  apply Returns.ok
  simp only
  split
  · exact ⟨h.rtt t.mark p h.link hp, h.burst, h.rtt, h.link⟩
  · exact h

theorem initTcpSched_periods {args : InitTcpSchedArgs} {pos : Nat} {q : UInt16}
    (hargs : (Action.initTcpSched q args).Gives P M)
    (hother : ∀ i p, M i → i ≠ 1 → i ≠ 2 → readAt t.histParam i = .ok p → P p.rtt) :
    Returns (fun r => Periods P M r.2) (initTcpSched args pos w t) := by
  obtain ⟨hburst, h₁, h₂, hmark, hM⟩ := hargs
  apply Returns.bind_eq
  intro p hp
  apply Returns.bind_any
  intro q
  apply Returns.ok
  rw [hmark] at hp
  obtain ⟨-, rfl⟩ := readAt_ok.mp hp
  refine ⟨h₁, hburst, ?_, by rw [hmark]; exact hM⟩
  intro i r hi hr
  obtain ⟨-, rfl⟩ | ⟨hi₂, hr⟩ := readAt_set (h := by decide) hr
  · exact h₂
  · obtain ⟨-, rfl⟩ | ⟨hi₁, hr⟩ := readAt_set (h := by decide) hr
    · exact h₁
    · exact hother i r hi hi₁ hi₂ hr

theorem body_periods {a : Action} {q : UInt16} {f : Body} (hb : a.body? = some (q, f)) (ha : a.Gives P M)
    (h : Periods P M t) (pos : Nat) : Returns (fun r => Periods P M r.2) (f pos w t) := by
  cases a with
  | solUpdate q mark => cases hb; exact solUpdate_periods h ha
  | setBurst q enable => cases hb; exact setBurst_periods h
  | setAdapt q enable => cases hb; exact setAdapt_periods h
  | initTcpSched q args => cases hb; exact initTcpSched_periods ha fun i p hi _ _ hp => h.rtt i p hi hp
  | setMark q mark => cases hb; exact .ok h
  | setReorder q enable count offset => cases hb; exact .ok h
  | setDrop q enable dropCount => cases hb; exact .ok h
  | setDedup q enable => cases hb; exact .ok h
  | setRwnd q rwnd => cases hb; exact .ok h
  | _ => cases hb

theorem body_link {a : Action} {q : UInt16} {f : Body} (hb : a.body? = some (q, f))
    (hinit : ∀ q args, a ≠ .initTcpSched q args) (pos : Nat) :
    Returns (fun r => r.2.fire = t.fire ∧ r.2.wkctx = t.wkctx) (f pos w t) := by
  cases a with
  | solUpdate q mark =>
    cases hb
    apply Returns.ite
    · intro _
      apply Returns.bind_any
      intro p
      apply Returns.bind_any
      intro hist
      apply Returns.bind (P := fun t' => t'.fire = t.fire ∧ t'.wkctx = t.wkctx)
      · apply Returns.ok
        exact ⟨rfl, rfl⟩
      · exact fun _ ht => Returns.bind_any fun _ => .ok ht
    · intro _
      apply Returns.bind (P := fun t' => t' = t) (.ok rfl)
      intro t' ht'
      apply Returns.bind_any
      intro p
      apply Returns.ok
      simp only [ht', and_self]
  | setBurst q enable =>
    cases hb
    apply Returns.bind_any
    intro p
    apply Returns.ite
    · exact fun _ => .ok ⟨rfl, rfl⟩
    · intro _
      apply Returns.ite
      · exact fun _ => Returns.bind_any fun _ => .ok ⟨rfl, rfl⟩
      · exact fun _ => .ok ⟨rfl, rfl⟩
  | setAdapt q enable =>
    cases hb
    apply Returns.bind_any
    intro p
    apply Returns.ok
    simp only
    split <;> exact ⟨rfl, rfl⟩
  | initTcpSched q args => exact absurd rfl (hinit q args)
  | setMark q mark => cases hb; exact .ok ⟨rfl, rfl⟩
  | setReorder q enable count offset => cases hb; exact .ok ⟨rfl, rfl⟩
  | setDrop q enable dropCount => cases hb; exact .ok ⟨rfl, rfl⟩
  | setDedup q enable => cases hb; exact .ok ⟨rfl, rfl⟩
  | setRwnd q rwnd => cases hb; exact .ok ⟨rfl, rfl⟩
  | _ => cases hb

theorem initTcpSched_fire {args : InitTcpSchedArgs} {pos : Nat} :
    Returns (fun r => r.2.fire = UInt64.ofInt args.fire) (initTcpSched args pos w t) :=
  Returns.bind_any fun _ => Returns.bind_any fun _ => .ok rfl

theorem initTcpSched_link {args : InitTcpSchedArgs} (pos : Nat) :
    Returns (fun r => r.2.wkctx = some pos) (initTcpSched args pos w t) :=
  Returns.bind_any fun _ => Returns.bind_any fun _ => .ok rfl

end Bodies

/-! The actions. -/

section Actions
variable {Q : TcpCtx → Prop} {lib : LibCalls} {e : Emulator}

theorem action_returns {a : Action} (h : Q e.tcp)
    (hbody : ∀ q f, a.body? = some (q, f) → ∀ pos w, Returns (fun r => Q r.2) (f pos w e.tcp)) :
    Returns (fun e' => Q e'.tcp) (runAction lib e a) := by
  rcases hb : a.body? with _ | ⟨q, f⟩
  · cases a with
    | command c => exact .ok h
    | initNfqueue q =>
      apply Returns.ite
      · exact fun _ => Returns.bind_any fun _ => Returns.bind_any fun _ => .ok h
      · exact fun _ => .error _
    | startNfqueue q => exact Returns.bind_any fun _ => .ok h
    | stopNfqueue q => exact Returns.bind_any fun _ => .ok h
    | teardownNfqueue q =>
      apply Returns.bind_any
      intro ⟨p, o⟩
      apply Returns.ite
      · exact fun _ => .ok h
      · exact fun _ => Returns.bind_any fun _ => Returns.bind_any fun _ => Returns.bind_any fun _ => .ok h
    | _ => cases hb
  · rw [runAction_body lib e hb]
    apply Returns.bind_any
    intro ⟨p, o⟩
    apply Returns.bind (hbody q f hb p o.worker)
    exact fun _ hr => .ok hr

theorem action_periods {P M : Int → Prop} {a : Action} (ha : a.Gives P M) (h : Periods P M e.tcp) :
    Returns (fun e' => Periods P M e'.tcp) (runAction lib e a) :=
  action_returns h fun _ _ hb pos _ => body_periods hb ha h pos

/-! A sampler whose numbers are `int`s and whose sums do not wrap. -/

/-- The deadline is below 2^32, and every number a period is taken from is an `int`. -/
structure Bounded (t : TcpCtx) : Prop where
  fire : t.fire.toNat < 2^32
  periods : Periods (· ≤ intMax) (fun _ => True) t

/-- The next tick brings the deadline forward. -/
theorem Bounded.forward {t : TcpCtx} (h : Bounded t) (hpos : 0 < t.sampleInterval) : Forward t := by
  have hfire := h.fire
  have hmax : t.sampleInterval ≤ intMax := h.periods.now
  rw [intMax] at hmax
  exact ⟨hpos, by omega⟩

theorem Action.Fits.gives {a : Action} (h : a.Fits) : a.Gives (· ≤ intMax) (fun _ => True) := by
  cases a with
  | initTcpSched q args =>
    obtain ⟨-, hs, hm, h₁, h₂⟩ := h
    exact ⟨hs.2, h₁.2, h₂.2, hm, trivial⟩
  | _ => trivial

theorem action_bounded {a : Action} (ha : a.Fits) (h : Bounded e.tcp) :
    Returns (fun e' => Bounded e'.tcp) (runAction lib e a) := by
  have hfire : Returns (fun e' => e'.tcp.fire.toNat < 2^32) (runAction lib e a) := by
    apply action_returns (Q := fun t => t.fire.toNat < 2^32) h.fire
    intro q f hb pos w
    by_cases hinit : ∃ q args, a = .initTcpSched q args
    · obtain ⟨_, args, rfl⟩ := hinit
      cases hb
      apply Returns.mono initTcpSched_fire
      intro r hr
      have hstart := NonNegInt.time ha.1
      rw [hr]
      omega
    · apply Returns.mono (body_link hb (fun q args h => hinit ⟨q, args, h⟩) pos)
      intro r hr
      rw [hr.1]
      exact h.fire
  constructor
  intro e' he'
  exact ⟨hfire.value e' he', (action_periods ha.gives h.periods).value e' he'⟩

end Actions

/-! A sampler whose periods are positive once it is linked. -/

section Positive
variable {lib : LibCalls} {e : Emulator}

/-- One of the two links a trace configures. -/
def IsLink (i : Int) : Prop := i = 1 ∨ i = 2

/-- The periods an action brings in are positive, and a link it switches to is link 1 or 2. -/
def Action.Positive : Action → Prop
  | .solUpdate _ mark => mark = 1 ∨ mark = 2
  | .initTcpSched _ args => 0 < args.sampleInterval ∧ 0 < args.rtt₁ ∧ 0 < args.rtt₂
  | _ => True

/-- The sampler is linked to no worker yet, or its periods are positive. -/
def Armed (t : TcpCtx) : Prop := t.wkctx = none ∨ Periods (0 < ·) IsLink t

theorem Action.Positive.gives {a : Action} (h : a.Positive) (hfits : a.Fits) : a.Gives (0 < ·) IsLink := by
  cases a with
  | solUpdate q mark =>
    obtain rfl | rfl := h
    · exact .inl (by decide)
    · exact .inr (by decide)
  | initTcpSched q args => exact ⟨h.1, h.2.1, h.2.2, hfits.2.2.1, .inl rfl⟩
  | _ => trivial

theorem action_armed {a : Action} (ha : a.Positive) (hfits : a.Fits) (h : Armed e.tcp) :
    Returns (fun e' => Armed e'.tcp) (runAction lib e a) := by
  apply action_returns h
  intro q f hb pos w
  have hgives := ha.gives hfits
  by_cases hinit : ∃ q args, a = .initTcpSched q args
  · -- all the entries that count are set, so nothing is asked of the sampler as it was
    obtain ⟨_, args, rfl⟩ := hinit
    cases hb
    apply Returns.mono (initTcpSched_periods hgives ?_) fun r hr => .inr hr
    intro i p hi h₁ h₂
    exact (hi.elim h₁ h₂).elim
  · obtain hnone | hper := h
    · apply Returns.mono (body_link hb (fun q args h => hinit ⟨q, args, h⟩) pos)
      intro r hr
      exact .inl (hr.2.trans hnone)
    · exact Returns.mono (body_periods hb hgives hper pos) fun r hr => .inr hr

end Positive

end Handoff
