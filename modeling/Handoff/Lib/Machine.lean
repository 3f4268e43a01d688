import Mathlib.Data.List.Infix
import Mathlib.Tactic.Common

/- Runs of a deterministic machine that reads inputs, emits outputs and may fail.

   A machine is its step function `σ → ι → Except ε (σ × List ω)`. A run feeds it
   a list of inputs and ends at the first failure, so what holds "after every step"
   is a statement about the prefixes of the input list on which the run succeeds.
   Six rules are proved here:

   1. `everyState_of_step`: an invariant over the state, the inputs read so far and
      the outputs emitted so far, preserved by the steps that meet a condition;
   2. `everyState_iff_everyStep`: the exact form of (1), for a condition whose
      violation breaks the property at once;
   3. `lockstep_iff`: the same for two machines reading the same inputs, their outputs compared
      through a view;
   4. `run_stutter`: two runs whose inputs differ only in inputs that stay inside a
      relation;
   5. `run_project`: a run seen from a part of the machine that only some inputs reach;
   6. `run_agree`: two machines that fail together and emit the same, as long as the steps the first one
      tries meet a condition. The condition may read a record of the run (`ghost`). -/
namespace Machine

variable {σ τ ι ω ω' ε : Type*}

/-- Feed the inputs in order and collect the outputs; the first failure ends the run. -/
def run (step : σ → ι → Except ε (σ × List ω)) : σ → List ι → Except ε (σ × List ω)
  | s, [] => .ok (s, [])
  | s, i :: is =>
    match step s i with
    | .error e => .error e
    | .ok (s₁, o₁) =>
      match run step s₁ is with
      | .error e => .error e
      | .ok (s₂, o₂) => .ok (s₂, o₁ ++ o₂)

section Run
variable {step : σ → ι → Except ε (σ × List ω)}

@[simp] theorem run_nil (s : σ) : run step s [] = .ok (s, []) := rfl

theorem run_cons_ok {s s' : σ} {i : ι} {is : List ι} {o : List ω} :
    run step s (i :: is) = .ok (s', o) ↔
      ∃ s₁ o₁ o₂, step s i = .ok (s₁, o₁) ∧ run step s₁ is = .ok (s', o₂) ∧ o = o₁ ++ o₂ := by
  rcases h : step s i with e | ⟨s₁, o₁⟩
  · simp [run, h]
  · rcases hr : run step s₁ is with e | ⟨s₂, o₂⟩
    · simp [run, h, hr]
    · simp only [run, h, hr, Except.ok.injEq, Prod.mk.injEq]
      constructor
      · rintro ⟨rfl, rfl⟩
        exact ⟨s₁, o₁, o₂, ⟨rfl, rfl⟩, hr, rfl⟩
      · rintro ⟨_, _, _, ⟨rfl, rfl⟩, h₂, rfl⟩
        rw [hr] at h₂
        cases h₂
        exact ⟨rfl, rfl⟩

theorem run_append_ok {s s' : σ} {is js : List ι} {o : List ω} :
    run step s (is ++ js) = .ok (s', o) ↔
      ∃ s₁ o₁ o₂, run step s is = .ok (s₁, o₁) ∧ run step s₁ js = .ok (s', o₂) ∧ o = o₁ ++ o₂ := by
  induction is generalizing s o with
  | nil => simp
  | cons i is ih =>
    rw [List.cons_append, run_cons_ok]
    constructor
    · rintro ⟨s₁, o₁, o₂, h₁, h₂, rfl⟩
      obtain ⟨s₂, p₁, p₂, hp₁, hp₂, rfl⟩ := ih.mp h₂
      exact ⟨s₂, o₁ ++ p₁, p₂, run_cons_ok.mpr ⟨s₁, o₁, p₁, h₁, hp₁, rfl⟩, hp₂, by simp⟩
    · rintro ⟨s₂, p, p₂, h, hp₂, rfl⟩
      obtain ⟨s₁, o₁, p₁, h₁, hp₁, rfl⟩ := run_cons_ok.mp h
      exact ⟨s₁, o₁, p₁ ++ p₂, h₁, ih.mpr ⟨s₂, p₁, p₂, hp₁, hp₂, rfl⟩, by simp⟩

theorem run_snoc_ok {s s' : σ} {is : List ι} {i : ι} {o : List ω} :
    run step s (is ++ [i]) = .ok (s', o) ↔
      ∃ s₁ o₁ o₂, run step s is = .ok (s₁, o₁) ∧ step s₁ i = .ok (s', o₂) ∧ o = o₁ ++ o₂ := by
  rw [run_append_ok]
  refine exists_congr fun s₁ => exists_congr fun o₁ => exists_congr fun o₂ => and_congr_right fun _ => ?_
  rw [run_cons_ok]
  constructor
  · rintro ⟨⟨_, _, _, h, h', rfl⟩, rfl⟩
    cases h'
    exact ⟨by simpa using h, by simp⟩
  · rintro ⟨h, rfl⟩
    exact ⟨⟨s', o₂, [], h, rfl, by simp⟩, rfl⟩

/-- A run that fails does so at a step from a state it reaches. -/
theorem run_error {s : σ} {is : List ι} {e : ε} (h : run step s is = .error e) :
    ∃ pre i s₁ o, pre ++ [i] <+: is ∧ run step s pre = .ok (s₁, o) ∧ step s₁ i = .error e := by
  induction is generalizing s with
  | nil => cases h
  | cons i is ih =>
    rcases hs : step s i with e' | ⟨s₁, o₁⟩
    · simp only [run, hs] at h
      cases h
      exact ⟨[], i, s, [], ⟨is, rfl⟩, rfl, hs⟩
    · rcases hr : run step s₁ is with e' | r
      · simp only [run, hs, hr] at h
        cases h
        obtain ⟨pre, j, s₂, o₂, hp, hpre, hj⟩ := ih hr
        exact ⟨i :: pre, j, s₂, o₁ ++ o₂, List.cons_prefix_cons.mpr ⟨rfl, hp⟩,
          run_cons_ok.mpr ⟨s₁, o₁, o₂, hs, hpre, rfl⟩, hj⟩
      · simp only [run, hs, hr] at h
        cases h

end Run

/-! Properties of every state and of every step of a run. -/

/-- After every step: `Q` of the inputs read, the state and the outputs emitted, for every
    prefix of the inputs on which the run succeeds. -/
def EveryState (step : σ → ι → Except ε (σ × List ω)) (s₀ : σ) (is : List ι)
    (Q : List ι → σ → List ω → Prop) : Prop :=
  ∀ pre s o, pre <+: is → run step s₀ pre = .ok (s, o) → Q pre s o

/-- At every executed step: `P` of the inputs read before it, the state before it and its input. -/
def EveryStep (step : σ → ι → Except ε (σ × List ω)) (s₀ : σ) (is : List ι)
    (P : List ι → σ → ι → Prop) : Prop :=
  ∀ pre i s o s' o', pre ++ [i] <+: is → run step s₀ pre = .ok (s, o) →
    step s i = .ok (s', o') → P pre s i

theorem prefix_of_snoc {pre is : List ι} {i : ι} (h : pre ++ [i] <+: is) : pre <+: is :=
  (List.prefix_append pre [i]).trans h

section Invariant
variable {step : σ → ι → Except ε (σ × List ω)} {s₀ : σ} {is : List ι}

theorem EveryStep.mono {P P' : List ι → σ → ι → Prop} (h : EveryStep step s₀ is P)
    (hP : ∀ pre s i, P pre s i → P' pre s i) : EveryStep step s₀ is P' :=
  fun pre i s o s' o' hp hr hs => hP pre s i (h pre i s o s' o' hp hr hs)

theorem EveryStep.and {P P' : List ι → σ → ι → Prop} (h : EveryStep step s₀ is P)
    (h' : EveryStep step s₀ is P') : EveryStep step s₀ is (fun pre s i => P pre s i ∧ P' pre s i) :=
  fun pre i s o s' o' hp hr hs => ⟨h pre i s o s' o' hp hr hs, h' pre i s o s' o' hp hr hs⟩

theorem EveryStep.of_inputs {P : List ι → ι → Prop} (h : ∀ pre i, pre ++ [i] <+: is → P pre i) :
    EveryStep step s₀ is (fun pre _ i => P pre i) :=
  fun pre i _ _ _ _ hp _ _ => h pre i hp

theorem EveryStep.later {P : σ → ι → Prop} {as bs : List ι} {s : σ} {o : List ω}
    (h : EveryStep step s₀ (as ++ bs) (fun _ s i => P s i)) (hr : run step s₀ as = .ok (s, o)) :
    EveryStep step s bs (fun _ s i => P s i) := by
  intro pre i s₁ o₁ s₂ o₂ hp hr₁ hs
  have hp' : (as ++ pre) ++ [i] <+: as ++ bs := by
    rw [List.append_assoc]
    exact (List.prefix_append_right_inj as).mpr hp
  exact h (as ++ pre) i s₁ (o ++ o₁) s₂ o₂ hp' (run_append_ok.mpr ⟨s, o, o₁, hr, hr₁, rfl⟩) hs

theorem EveryStep.nil {P : List ι → σ → ι → Prop} {s : σ} : EveryStep step s [] P := by
  intro pre i s₁ o₁ s₂ o₂ hp
  simp at hp

theorem everyStep_cons {P : List ι → σ → ι → Prop} {i : ι} {is : List ι} {s : σ} :
    EveryStep step s (i :: is) P ↔ ∀ s' o, step s i = .ok (s', o) →
      P [] s i ∧ EveryStep step s' is (fun pre s j => P (i :: pre) s j) := by
  constructor
  · intro h s' o hs
    refine ⟨h [] i s [] s' o (by simp) rfl hs, fun pre j s₁ o₁ s₂ o₂ hp hr hj => ?_⟩
    exact h (i :: pre) j s₁ (o ++ o₁) s₂ o₂ (List.cons_prefix_cons.mpr ⟨rfl, hp⟩)
      (run_cons_ok.mpr ⟨s', o, o₁, hs, hr, rfl⟩) hj
  · intro h pre j s₁ o₁ s₂ o₂ hp hr hj
    cases pre with
    | nil =>
      obtain ⟨rfl, -⟩ := List.cons_prefix_cons.mp hp
      cases hr
      exact (h s₂ o₂ hj).1
    | cons k pre =>
      obtain ⟨rfl, htail⟩ := List.cons_prefix_cons.mp hp
      obtain ⟨s', o', o'', hk, hpre, -⟩ := run_cons_ok.mp hr
      exact (h s' o' hk).2 pre j s₁ o'' s₂ o₂ htail hpre hj

theorem EveryStep.cons {P : List ι → σ → ι → Prop} {i : ι} {is : List ι} {s : σ} (hP : P [] s i)
    (h : ∀ s' o, step s i = .ok (s', o) → EveryStep step s' is (fun pre s j => P (i :: pre) s j)) :
    EveryStep step s (i :: is) P :=
  everyStep_cons.mpr fun s' o hs => ⟨hP, h s' o hs⟩

/-- A condition on the steps of a run is decided by running it. -/
def decideEveryStep (step : σ → ι → Except ε (σ × List ω)) :
    (is : List ι) → (s : σ) → (P : List ι → σ → ι → Prop) → [∀ pre s i, Decidable (P pre s i)] →
      Decidable (EveryStep step s is P)
  | [], _, _, _ => .isTrue .nil
  | i :: is, s, P, _ =>
    match hs : step s i with
    | .error _ => .isTrue (everyStep_cons.mpr fun _ _ h => by rw [hs] at h; cases h)
    | .ok (s', o) =>
      letI := decideEveryStep step is s' fun pre s j => P (i :: pre) s j
      decidable_of_iff (P [] s i ∧ EveryStep step s' is fun pre s j => P (i :: pre) s j)
        ⟨fun h => everyStep_cons.mpr fun _ _ h' => by rw [hs] at h'; cases h'; exact h,
          fun h => everyStep_cons.mp h s' o hs⟩

instance {P : List ι → σ → ι → Prop} [∀ pre s i, Decidable (P pre s i)] (s : σ) (is : List ι) :
    Decidable (EveryStep step s is P) := decideEveryStep step is s P

theorem EveryStep.shorten {P : List ι → σ → ι → Prop} {pre : List ι} (h : EveryStep step s₀ is P) (hp : pre <+: is) :
    EveryStep step s₀ pre P :=
  fun pre' i s o s' o' hp' hr hs => h pre' i s o s' o' (hp'.trans hp) hr hs

/-- **Invariant rule.** What holds at the start and is preserved by each step that meets `P`
    holds after every step of a run whose steps all meet `P`. -/
theorem everyState_of_step {P : List ι → σ → ι → Prop} {I : List ι → σ → List ω → Prop}
    (init : I [] s₀ [])
    (pres : ∀ pre s o i s' o', I pre s o → P pre s i → step s i = .ok (s', o') →
      I (pre ++ [i]) s' (o ++ o'))
    (h : EveryStep step s₀ is P) : EveryState step s₀ is I := by
  intro pre
  induction pre using List.reverseRecOn with
  | nil =>
    intro s o _ hr
    cases hr
    exact init
  | append_singleton pre i ih =>
    intro s o hp hr
    obtain ⟨s₁, o₁, o₂, h₁, h₂, rfl⟩ := run_snoc_ok.mp hr
    exact pres pre s₁ o₁ i s o₂ (ih s₁ o₁ (prefix_of_snoc hp) h₁) (h pre i s₁ o₁ s o₂ hp h₁ h₂) h₂

/-- **Exact invariant rule.** If a step that meets `P` preserves `I`, a step that does not breaks
    `Q`, and `I` implies `Q`, then `Q` holds after every step iff every step meets `P`. The
    condition `F` on the inputs is given throughout. -/
theorem everyState_iff_everyStep {F : List ι → ι → Prop} {P : List ι → σ → ι → Prop}
    {I Q : List ι → σ → List ω → Prop} (init : I [] s₀ [])
    (pres : ∀ pre s o i s' o', I pre s o → F pre i → P pre s i → step s i = .ok (s', o') →
      I (pre ++ [i]) s' (o ++ o'))
    (breaks : ∀ pre s o i s' o', I pre s o → F pre i → ¬ P pre s i → step s i = .ok (s', o') →
      ¬ Q (pre ++ [i]) s' (o ++ o'))
    (imp : ∀ pre s o, I pre s o → Q pre s o) (hF : ∀ pre i, pre ++ [i] <+: is → F pre i) :
    EveryState step s₀ is Q ↔ EveryStep step s₀ is P := by
  constructor
  · intro hQ
    -- by induction on the prefix, every step before the one at hand met `P`
    have key : ∀ pre s o, pre <+: is → run step s₀ pre = .ok (s, o) → I pre s o := by
      intro pre
      induction pre using List.reverseRecOn with
      | nil =>
        intro s o _ hr
        cases hr
        exact init
      | append_singleton pre i ih =>
        intro s o hp hr
        obtain ⟨s₁, o₁, o₂, h₁, h₂, rfl⟩ := run_snoc_ok.mp hr
        have hI := ih s₁ o₁ (prefix_of_snoc hp) h₁
        by_cases hP : P pre s₁ i
        · exact pres pre s₁ o₁ i s o₂ hI (hF pre i hp) hP h₂
        · exact absurd (hQ _ s _ hp hr) (breaks pre s₁ o₁ i s o₂ hI (hF pre i hp) hP h₂)
    intro pre i s o s' o' hp hr hs
    by_contra hP
    exact breaks pre s o i s' o' (key pre s o (prefix_of_snoc hp) hr) (hF pre i hp) hP hs
      (hQ _ s' _ hp (run_snoc_ok.mpr ⟨s, o, o', hr, hs, rfl⟩))
  · intro hP pre s o hp hr
    refine imp pre s o (everyState_of_step (P := fun pre s i => F pre i ∧ P pre s i) init ?_ ?_ pre s o hp hr)
    · exact fun pre s o i s' o' hI h hs => pres pre s o i s' o' hI h.1 h.2 hs
    · exact (EveryStep.of_inputs hF).and hP

end Invariant

/-! Two runs. -/

/-- Two results agree: both fail, or both succeed with related values. -/
def Agree {α β : Type*} (R : α → β → Prop) : Except ε α → Except ε β → Prop
  | .ok a, .ok b => R a b
  | .error _, .error _ => True
  | _, _ => False

section Agree
universe u v
variable {α γ : Type u} {β δ : Type v} {R : α → β → Prop} {S : γ → δ → Prop}

theorem Agree.bind {x : Except ε α} {y : Except ε β} {f : α → Except ε γ} {g : β → Except ε δ}
    (h : Agree R x y) (hfg : ∀ a b, R a b → Agree S (f a) (g b)) : Agree S (x >>= f) (y >>= g) := by
  rcases x with e | a <;> rcases y with e' | b
  · trivial
  · exact h.elim
  · exact h.elim
  · exact hfg a b h

/-- The bind rule for a first part that the two computations share. -/
theorem Agree.bind_same {γ' : Type u} {S : γ → γ' → Prop} {x : Except ε α} {f : α → Except ε γ}
    {g : α → Except ε γ'} (h : ∀ a, Agree S (f a) (g a)) : Agree S (x >>= f) (x >>= g) := by
  rcases x with e | a
  · trivial
  · exact h a

theorem Agree.ok_left {x : Except ε α} {y : Except ε β} (h : Agree R x y) {a : α} (hx : x = .ok a) :
    ∃ b, y = .ok b ∧ R a b := by
  subst hx
  rcases y with e | b
  · exact h.elim
  · exact ⟨b, rfl, h⟩

theorem Agree.via {x : Except ε α} {y : Except ε β} {z : Except ε γ} {S : α → γ → Prop} {T : β → γ → Prop}
    (hy : Agree R x y) (hz : Agree S x z) (hT : ∀ a b c, R a b → S a c → T b c) : Agree T y z := by
  rcases x with e | a <;> rcases y with e' | b <;> rcases z with e'' | c
  · trivial
  · exact hz.elim
  · exact hy.elim
  · exact hy.elim
  · exact hy.elim
  · exact hy.elim
  · exact hz.elim
  · exact hT a b c hy hz

theorem Agree.ok_both {x : Except ε α} {y : Except ε β} (h : Agree R x y) {a : α} {b : β} (hx : x = .ok a)
    (hy : y = .ok b) : R a b := by
  subst hx hy
  exact h

end Agree

section Lockstep
variable {ν : Type*} {step₁ : σ → ι → Except ε (σ × List ω)} {step₂ : τ → ι → Except ε (τ × List ω')}
  {view₁ : ω → ν} {view₂ : ω' → ν} {s₀ : σ} {t₀ : τ} {is : List ι}

/-- **Exact lockstep rule.** Two machines read the same inputs. If steps that meet `P` keep their states
    related and their outputs alike, and a step that does not makes `Q` fail, then `Q` holds and the
    outputs are alike after every common prefix iff every step of the first run meets `P`. -/
theorem lockstep_iff {P : σ → ι → Prop} {R Q : σ → τ → Prop} (init : R s₀ t₀)
    (pres : ∀ s t i, R s t → P s i →
      Agree (fun a b => R a.1 b.1 ∧ a.2.map view₁ = b.2.map view₂) (step₁ s i) (step₂ t i))
    (breaks : ∀ s t i s' o, R s t → ¬ P s i → step₁ s i = .ok (s', o) →
      ∃ t' o', step₂ t i = .ok (t', o') ∧ ¬ Q s' t')
    (imp : ∀ s t, R s t → Q s t) :
    (∀ pre s o t o', pre <+: is → run step₁ s₀ pre = .ok (s, o) → run step₂ t₀ pre = .ok (t, o') →
      Q s t ∧ o.map view₁ = o'.map view₂) ↔ EveryStep step₁ s₀ is (fun _ s i => P s i) := by
  constructor
  · intro hQ
    have key : ∀ pre s o, pre <+: is → run step₁ s₀ pre = .ok (s, o) →
        ∃ t o', run step₂ t₀ pre = .ok (t, o') ∧ R s t := by
      intro pre
      induction pre using List.reverseRecOn with
      | nil =>
        intro s o _ hr
        cases hr
        exact ⟨t₀, [], rfl, init⟩
      | append_singleton pre i ih =>
        intro s o hp hr
        obtain ⟨s₁, o₁, o₂, h₁, h₂, rfl⟩ := run_snoc_ok.mp hr
        obtain ⟨t₁, p₁, hrt, hR⟩ := ih s₁ o₁ (prefix_of_snoc hp) h₁
        by_cases hP : P s₁ i
        · obtain ⟨⟨t', p'⟩, ht, hR', -⟩ := (pres s₁ t₁ i hR hP).ok_left h₂
          exact ⟨t', p₁ ++ p', run_snoc_ok.mpr ⟨t₁, p₁, p', hrt, ht, rfl⟩, hR'⟩
        · obtain ⟨t', p', ht, hn⟩ := breaks s₁ t₁ i s o₂ hR hP h₂
          exact absurd (hQ _ s _ t' _ hp hr (run_snoc_ok.mpr ⟨t₁, p₁, p', hrt, ht, rfl⟩)).1 hn
    intro pre i s o s' o' hp hr hs
    by_contra hP
    obtain ⟨t, p, hrt, hR⟩ := key pre s o (prefix_of_snoc hp) hr
    obtain ⟨t', p', ht, hn⟩ := breaks s t i s' o' hR hP hs
    exact hn (hQ _ s' _ t' _ hp (run_snoc_ok.mpr ⟨s, o, o', hr, hs, rfl⟩)
      (run_snoc_ok.mpr ⟨t, p, p', hrt, ht, rfl⟩)).1
  · intro hP pre s o t o' hp hr hrt
    suffices h : R s t ∧ o.map view₁ = o'.map view₂ from ⟨imp s t h.1, h.2⟩
    induction pre using List.reverseRecOn generalizing s o t o' with
    | nil =>
      cases hr
      cases hrt
      exact ⟨init, rfl⟩
    | append_singleton pre i ih =>
      obtain ⟨s₁, o₁, o₂, h₁, h₂, rfl⟩ := run_snoc_ok.mp hr
      obtain ⟨t₁, p₁, p₂, k₁, k₂, rfl⟩ := run_snoc_ok.mp hrt
      obtain ⟨hR, ho⟩ := ih s₁ o₁ t₁ p₁ (prefix_of_snoc hp) h₁ k₁
      obtain ⟨hR', ho'⟩ := (pres s₁ t₁ i hR (hP pre i s₁ o₁ s o₂ hp h₁ h₂)).ok_both h₂ k₂
      exact ⟨hR', by rw [List.map_append, List.map_append, ho, ho']⟩

end Lockstep

section Stutter
variable {step : σ → ι → Except ε (σ × List ω)} {R : σ → σ → Prop} {vis : ι → Bool}

/-- The relation survives a run of invisible inputs on the left. -/
theorem run_invisible (left : ∀ s t i s' o, R s t → vis i = false → step s i = .ok (s', o) → R s' t)
    {is : List ι} (hv : ∀ i ∈ is, vis i = false) :
    ∀ {s t s' o}, R s t → run step s is = .ok (s', o) → R s' t := by
  induction is with
  | nil =>
    intro s t s' o hR hr
    cases hr
    exact hR
  | cons i is ih =>
    intro s t s' o hR hr
    obtain ⟨s₁, o₁, o₂, h₁, h₂, -⟩ := run_cons_ok.mp hr
    exact ih (fun j hj => hv j (List.mem_cons_of_mem i hj))
      (left s t i s₁ o₁ hR (hv i List.mem_cons_self) h₁) h₂

/-- **Stuttering rule.** Two input lists with the same visible inputs lead from related states to
    related states, when visible inputs keep states related and invisible ones, taken on either
    side, do too. -/
theorem run_stutter (symm : ∀ s t, R s t → R t s)
    (left : ∀ s t i s' o, R s t → vis i = false → step s i = .ok (s', o) → R s' t)
    (both : ∀ s t i s' o t' o', R s t → vis i = true → step s i = .ok (s', o) →
      step t i = .ok (t', o') → R s' t') :
    ∀ (is js : List ι) (s t s' t' : σ) (o o' : List ω), is.filter vis = js.filter vis → R s t →
      run step s is = .ok (s', o) → run step t js = .ok (t', o') → R s' t' := by
  intro is
  induction is with
  | nil =>
    intro js s t s' t' o o' hf hR hr hrt
    cases hr
    have hv : ∀ j ∈ js, vis j = false := by
      intro j hj
      simpa using List.filter_eq_nil_iff.mp hf.symm j hj
    exact symm _ _ (run_invisible left hv (symm _ _ hR) hrt)
  | cons i is ih =>
    intro js s t s' t' o o' hf hR hr hrt
    obtain ⟨s₁, o₁, o₂, h₁, h₂, rfl⟩ := run_cons_ok.mp hr
    cases hi : vis i
    · -- an invisible input on the left alone
      rw [List.filter_cons_of_neg (by simp [hi])] at hf
      exact ih js s₁ t s' t' o₂ o' hf (left s t i s₁ o₁ hR hi h₁) h₂ hrt
    · -- the next visible input of the right list is this one
      rw [List.filter_cons_of_pos hi] at hf
      obtain ⟨js₁, js₂, rfl, hinv, hvj, hf'⟩ := List.filter_eq_cons_iff.mp hf.symm
      obtain ⟨t₁, p₁, p₂, k₁, k₂, rfl⟩ := run_append_ok.mp hrt
      obtain ⟨t₂, q₁, q₂, m₁, m₂, rfl⟩ := run_cons_ok.mp k₂
      have hv : ∀ j ∈ js₁, vis j = false := fun j hj => by simpa using hinv j hj
      have hR₁ := symm _ _ (run_invisible left hv (symm _ _ hR) k₁)
      exact ih js₂ s₁ t₂ s' t' o₂ q₂ hf'.symm (both s t₁ i s₁ o₁ t₂ q₁ hR₁ hi h₁ m₁) h₂ m₂

end Stutter

section Project
variable {step : σ → ι → Except ε (σ × List ω)} {step' : τ → ι → Except ε (τ × List ω')} {R : σ → τ → Prop}
  {F : ι → Prop} {vis : ι → Bool} {out : ω → Option ω'}

/-- **Projection rule.** A part of a machine is a machine of its own if it follows the inputs that are
    visible to it, and the others leave it alone and let it emit nothing. -/
theorem run_project
    (seen : ∀ s t i s' o, R s t → F i → vis i = true → step s i = .ok (s', o) →
      ∃ t', step' t i = .ok (t', o.filterMap out) ∧ R s' t')
    (unseen : ∀ s t i s' o, R s t → F i → vis i = false → step s i = .ok (s', o) →
      R s' t ∧ o.filterMap out = []) :
    ∀ (is : List ι) (s : σ) (t : τ) (s' : σ) (o : List ω), (∀ i ∈ is, F i) → R s t →
      run step s is = .ok (s', o) →
      ∃ t', run step' t (is.filter vis) = .ok (t', o.filterMap out) ∧ R s' t' := by
  intro is
  induction is with
  | nil =>
    intro s t s' o _ hR hr
    cases hr
    exact ⟨t, rfl, hR⟩
  | cons i is ih =>
    intro s t s' o hF hR hr
    obtain ⟨s₁, o₁, o₂, h₁, h₂, rfl⟩ := run_cons_ok.mp hr
    have hi := hF i List.mem_cons_self
    have his : ∀ j ∈ is, F j := fun j hj => hF j (List.mem_cons_of_mem i hj)
    cases hv : vis i
    · obtain ⟨hR₁, ho⟩ := unseen s t i s₁ o₁ hR hi hv h₁
      rw [List.filter_cons_of_neg (by simp [hv]), List.filterMap_append, ho, List.nil_append]
      exact ih s₁ t s' o₂ his hR₁ h₂
    · obtain ⟨t₁, k₁, hR₁⟩ := seen s t i s₁ o₁ hR hi hv h₁
      obtain ⟨t', k₂, hR'⟩ := ih s₁ t₁ s' o₂ his hR₁ h₂
      rw [List.filter_cons_of_pos hv, List.filterMap_append]
      exact ⟨t', run_cons_ok.mpr ⟨t₁, _, _, k₁, k₂, rfl⟩, hR'⟩

end Project

section Agreement
variable {step : σ → ι → Except ε (σ × List ω)} {step' : τ → ι → Except ε (τ × List ω)} {P : σ → ι → Prop}

/-- At every step that is tried, whether it succeeds or not: `P` of the state before it and its input. -/
def EveryTry (step : σ → ι → Except ε (σ × List ω)) (s₀ : σ) (is : List ι) (P : σ → ι → Prop) : Prop :=
  ∀ pre i s o, pre ++ [i] <+: is → run step s₀ pre = .ok (s, o) → P s i

theorem EveryTry.shorten {s₀ : σ} {pre is : List ι} (h : EveryTry step s₀ is P) (hp : pre <+: is) :
    EveryTry step s₀ pre P :=
  fun pre' i s o hp' hr => h pre' i s o (hp'.trans hp) hr

theorem EveryTry.nil {s₀ : σ} : EveryTry step s₀ [] P := by
  intro pre i s o hp
  have hlen := hp.length_le
  simp at hlen

theorem EveryTry.cons {s₀ s₁ : σ} {i : ι} {is : List ι} {o₁ : List ω} (hP : P s₀ i)
    (h₁ : step s₀ i = .ok (s₁, o₁)) (h : EveryTry step s₁ is P) : EveryTry step s₀ (i :: is) P := by
  intro pre j s o hp hr
  cases pre with
  | nil =>
    cases hr
    obtain ⟨hji, -⟩ := List.cons_prefix_cons.mp hp
    exact hji ▸ hP
  | cons k pre =>
    obtain ⟨hki, hp'⟩ := List.cons_prefix_cons.mp hp
    obtain ⟨s₂, o₂, o₃, h₂, h₃, -⟩ := run_cons_ok.mp hr
    rw [hki, h₁] at h₂
    cases h₂
    exact h pre j s o₃ hp' h₃

theorem EveryTry.uncons {s₀ : σ} {i : ι} {is : List ι} (h : EveryTry step s₀ (i :: is) P) :
    P s₀ i ∧ ∀ s₁ o₁, step s₀ i = .ok (s₁, o₁) → EveryTry step s₁ is P := by
  refine ⟨h [] i s₀ [] ⟨is, rfl⟩ rfl, ?_⟩
  intro s₁ o₁ h₁ pre j s o hp hr
  apply h (i :: pre) j s (o₁ ++ o)
  · rw [List.cons_append]
    exact List.cons_prefix_cons.mpr ⟨rfl, hp⟩
  · exact run_cons_ok.mpr ⟨s₁, o₁, o, h₁, hr, rfl⟩

/-- **Agreement rule.** If steps that meet `P` fail together, keep the states related and emit the same, so do
    runs all of whose tried steps meet `P`. -/
theorem run_agree {R : σ → τ → Prop}
    (pres : ∀ s t i, R s t → P s i → Agree (fun a b => R a.1 b.1 ∧ a.2 = b.2) (step s i) (step' t i)) :
    ∀ (is : List ι) (s : σ) (t : τ), R s t → EveryTry step s is P →
      Agree (fun a b => R a.1 b.1 ∧ a.2 = b.2) (run step s is) (run step' t is) := by
  intro is
  induction is with
  | nil => exact fun s t hR _ => ⟨hR, rfl⟩
  | cons i is ih =>
    intro s t hR h
    obtain ⟨hP, hrest⟩ := h.uncons
    have hstep := pres s t i hR hP
    rcases hs : step s i with e | ⟨s₁, o₁⟩ <;> rcases ht : step' t i with e' | ⟨t₁, p₁⟩ <;> rw [hs, ht] at hstep
    · simp only [run, hs, ht]
      trivial
    · exact hstep.elim
    · exact hstep.elim
    · have hrun := ih s₁ t₁ hstep.1 (hrest s₁ o₁ hs)
      rcases hs' : run step s₁ is with e | ⟨s₂, o₂⟩ <;> rcases ht' : run step' t₁ is with e' | ⟨t₂, p₂⟩ <;>
        rw [hs', ht'] at hrun
      · simp only [run, hs, ht, hs', ht']
        trivial
      · exact hrun.elim
      · exact hrun.elim
      · have ho : o₁ ++ o₂ = p₁ ++ p₂ := congrArg₂ (· ++ ·) hstep.2 hrun.2
        simp only [run, hs, ht, hs', ht']
        exact ⟨hrun.1, ho⟩

end Agreement

section Ghost
variable {γ : Type*} {step : σ → ι → Except ε (σ × List ω)} {after : γ → σ → ι → γ}

/-- The machine with a record of its run beside the state. The steps do not read it. -/
def ghost (step : σ → ι → Except ε (σ × List ω)) (after : γ → σ → ι → γ) (s : σ × γ) (i : ι) :
    Except ε ((σ × γ) × List ω) :=
  match step s.1 i with
  | .error e => .error e
  | .ok (s₁, o) => .ok ((s₁, after s.2 s.1 i), o)

theorem ghost_ok {s s' : σ × γ} {i : ι} {o : List ω} (h : ghost step after s i = .ok (s', o)) :
    step s.1 i = .ok (s'.1, o) ∧ s'.2 = after s.2 s.1 i := by
  unfold ghost at h
  split at h
  · cases h
  · next hs =>
    cases h
    exact ⟨hs, rfl⟩

/-- A step that agrees with another one still does with the record beside its state. -/
theorem agree_ghost {step' : τ → ι → Except ε (τ × List ω)} {R : σ × γ → τ → Prop} {s : σ × γ} {t : τ} {i : ι}
    (h : Agree (fun a b => R (a.1, after s.2 s.1 i) b.1 ∧ a.2 = b.2) (step s.1 i) (step' t i)) :
    Agree (fun a b => R a.1 b.1 ∧ a.2 = b.2) (ghost step after s i) (step' t i) := by
  unfold ghost
  rcases hs : step s.1 i with e | ⟨s₁, o₁⟩ <;> rcases ht : step' t i with e' | ⟨t₁, p₁⟩ <;> rw [hs, ht] at h
  · trivial
  · exact h.elim
  · exact h.elim
  · exact h

theorem run_ghost (is : List ι) (s : σ × γ) :
    Agree (fun a b => a.1.1 = b.1 ∧ a.2 = b.2) (run (ghost step after) s is) (run step s.1 is) := by
  refine run_agree (R := fun s t => s.1 = t) (P := fun _ _ => True) ?_ is s s.1 rfl fun _ _ _ _ _ _ => trivial
  intro s t i hst _
  subst hst
  refine agree_ghost (R := fun s t => s.1 = t) ?_
  rcases step s.1 i with e | ⟨s₁, o₁⟩
  · trivial
  · exact ⟨rfl, rfl⟩

end Ghost

end Machine
