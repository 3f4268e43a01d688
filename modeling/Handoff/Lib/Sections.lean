import Handoff.Lib.Interleaving
import Mathlib.Logic.Basic

/- Calls made of critical sections, and operations that run between them.

   The state has parts, and `graft S x y` is `y` with the parts of `S` taken from `x`. A computation is `Local` to `S` when
   it reads and writes the parts of `S` only; two computations that are local to disjoint sets of parts can be swapped
   (`Local.swap`).

   A thread makes calls, and a call is a sequence of sections, each atomic, that may end after any of them. Other threads
   run operations between the sections, each local to one part. `touched t` are the parts that the sections before `t`
   may have used and `closed t` those that no section from `t` on uses. An operation on a part that is closed could as
   well run after the call, one on a part that is untouched before it (`Layout`). So a run in which every operation
   finds its part closed or untouched does what some run does in which no call is interrupted (`uninterrupted`); it
   keeps the order of the calls and the order of the operations on each part. -/
namespace Sections

open Interleaving

/-- A state with parts `π`. -/
class Parts (π : outParam Type*) (σ : Type*) where
  graft : (π → Bool) → σ → σ → σ
  graft_self (S : π → Bool) (x : σ) : graft S x x = x
  graft_left (S : π → Bool) (x y z : σ) : graft S (graft S x y) z = graft S x z
  graft_comm (S T : π → Bool) (x y z : σ) : (∀ p, S p = true → T p = false) →
    graft S x (graft T y z) = graft T y (graft S x z)

export Parts (graft)

variable {π σ β γ ε : Type*} {S T : π → Bool}

/-- The computation works on the parts of `S` only. -/
def Local [Parts π σ] (S : π → Bool) (f : σ → Except ε (σ × β)) : Prop :=
  ∀ x y, f (graft S x y) = (f x).map fun r => (graft S r.1 y, r.2)

namespace Local
variable [Parts π σ] {f : σ → Except ε (σ × β)} {g : σ → Except ε (σ × γ)} {x y x₁ : σ} {b : β} {c : γ}

theorem result (hf : Local S f) (h : f x = .ok (y, b)) : graft S y x = y := by
  have hself := hf x x
  rw [Parts.graft_self, h] at hself
  exact (Prod.mk.inj (Except.ok.inj hself)).1.symm

theorem outside (hf : Local S f) (h : f x = .ok (y, b)) (hST : ∀ p, S p = true → T p = false) : graft T x y = y := by
  rw [← hf.result h, ← Parts.graft_comm S T y x x hST, Parts.graft_self]

theorem ok (hf : Local S f) (h : f x = .ok (y, b)) (z : σ) : f (graft S x z) = .ok (graft S y z, b) := by
  rw [hf, h]
  rfl

/-- **Swap rule.** -/
theorem swap (hf : Local S f) (hg : Local T g) (hST : ∀ p, S p = true → T p = false) (h : f x = .ok (x₁, b))
    (h' : g x₁ = .ok (y, c)) : ∃ x₂, g x = .ok (x₂, c) ∧ f x₂ = .ok (y, b) := by
  have hTS : ∀ p, T p = true → S p = false := fun p hT => by
    by_contra hS
    rw [hST p (by simpa using hS)] at hT
    cases hT
  have hview : g x₁ = (g x).map fun r => (graft T r.1 x₁, r.2) := by
    conv_lhs => rw [← hf.outside h hST]
    exact hg x x₁
  rcases hgx : g x with e | ⟨x₂, c'⟩
  · rw [hgx, h'] at hview
    cases hview
  · rw [hgx, h'] at hview
    obtain ⟨rfl, rfl⟩ := Prod.mk.inj (Except.ok.inj hview)
    have hx₂ : graft S x x₂ = x₂ := hg.outside hgx hTS
    refine ⟨x₂, rfl, ?_⟩
    rw [← hx₂, hf.ok h, hx₂]
    have hsame : graft S x₁ x₂ = graft T x₂ x₁ := by
      rw [← hg.result hgx, ← Parts.graft_comm T S x₂ x₁ x hTS, hf.result h, Parts.graft_left]
    rw [hsame]

end Local

/-! Calls and operations. -/

variable {τ ν ι ω : Type*}

/-- The sections of calls, where a call enters, and the operations, each with its part. -/
structure System (σ π τ ν ι ω ε : Type*) where
  sec : τ → σ → Except ε (σ × List ω × Option τ)
  entry : ν → τ
  op : ι → σ → Except ε (σ × Unit)
  part : ι → π

/-- What the sections use. `free t p`: an operation on part `p` may run before section `t`. -/
structure Layout [Parts π σ] [DecidableEq π] (sys : System σ π τ ν ι ω ε) (free uses touched closed : τ → π → Bool) : Prop where
  sec : ∀ t, Local (uses t) (sys.sec t)
  op : ∀ i, Local (fun p => p = sys.part i) (sys.op i)
  unused : ∀ t p, closed t p = true → uses t p = false
  next : ∀ t t' x y o, sys.sec t x = .ok (y, o, some t') →
    (∀ p, touched t' p = false → touched t p = false ∧ uses t p = false) ∧ ∀ p, closed t p = true → closed t' p = true
  apart : ∀ t i, free t (sys.part i) = true → closed t (sys.part i) = true ∨ touched t (sys.part i) = false

/-- The state, where the call in progress is, if there is one, and what has been emitted. -/
structure Fine (σ τ ω : Type*) where
  state : σ
  pc : Option τ
  out : List ω

inductive Event (ν ι : Type*)
  | start (n : ν)
  | go
  | op (i : ι)

def Event.start? : Event ν ι → Option ν
  | .start n => some n
  | _ => none

/-- The operation, if it is on part `p`. -/
def Event.on? [DecidableEq π] (part : ι → π) (p : π) : Event ν ι → Option ι
  | .op i => if part i = p then some i else none
  | _ => none

/-- A step, where it can happen. -/
def fineStep (sys : System σ π τ ν ι ω ε) (free : τ → π → Bool) (s : Fine σ τ ω) : Event ν ι → Option (Fine σ τ ω)
  | .start n =>
    match s.pc with
    | none => some { s with pc := some (sys.entry n) }
    | some _ => none
  | .go =>
    match s.pc with
    | none => none
    | some t =>
      match sys.sec t s.state with
      | .ok (y, o, pc) => some ⟨y, pc, s.out ++ o⟩
      | .error _ => none
  | .op i =>
    if s.pc.all fun t => free t (sys.part i) then
      match sys.op i s.state with
      | .ok (y, _) => some { s with state := y }
      | .error _ => none
    else none

/-- Sections of one call in a row, from section `t₀` in state `x`. -/
inductive Through (sys : System σ π τ ν ι ω ε) (t₀ : τ) (x : σ) : τ → σ → List ω → Prop
  | start : Through sys t₀ x t₀ x []
  | more {t t' : τ} {y z : σ} {o o' : List ω} (head : Through sys t₀ x t y o)
      (last : sys.sec t y = .ok (z, o', some t')) : Through sys t₀ x t' z (o ++ o')

/-- A call that is not interrupted. -/
def Call (sys : System σ π τ ν ι ω ε) (n : ν) (x z : σ) (o : List ω) : Prop :=
  ∃ t y o₁ o₂, Through sys (sys.entry n) x t y o₁ ∧ sys.sec t y = .ok (z, o₂, none) ∧ o = o₁ ++ o₂

/-- Calls and operations one after the other, from state `x`. -/
inductive Coarse (sys : System σ π τ ν ι ω ε) (x : σ) : List (ν ⊕ ι) → σ → List ω → Prop
  | nil : Coarse sys x [] x []
  | call {y z : σ} {cs : List (ν ⊕ ι)} {n : ν} {o o' : List ω} (head : Coarse sys x cs y o) (last : Call sys n y z o') :
      Coarse sys x (cs ++ [.inl n]) z (o ++ o')
  | op {y z : σ} {cs : List (ν ⊕ ι)} {i : ι} {o : List ω} (head : Coarse sys x cs y o)
      (last : sys.op i y = .ok (z, ())) : Coarse sys x (cs ++ [.inr i]) z o

/-- Operations in a row. -/
inductive Ops (sys : System σ π τ ν ι ω ε) : σ → List ι → σ → Prop
  | nil (x : σ) : Ops sys x [] x
  | cons {x y z : σ} {i : ι} {is : List ι} (head : sys.op i x = .ok (y, ())) (tail : Ops sys y is z) : Ops sys x (i :: is) z

/-- The operation of a step, if it is on part `p`. -/
def on? [DecidableEq π] (part : ι → π) (p : π) : ν ⊕ ι → Option ι
  | .inr i => if part i = p then some i else none
  | .inl _ => none

section Moves
variable {sys : System σ π τ ν ι ω ε} {free uses touched closed : τ → π → Bool} {x y z : σ} {is : List ι}
  {i : ι}

theorem Ops.snoc (h : Ops sys x is y) (hi : sys.op i y = .ok (z, ())) : Ops sys x (is ++ [i]) z := by
  induction h with
  | nil => exact .cons hi (.nil _)
  | cons head _ ih => exact .cons head (ih hi)

/-- What works on other parts than the operations before it could run before them. -/
theorem Ops.swap [Parts π σ] [DecidableEq π] (L : Layout sys free uses touched closed) {g : σ → Except ε (σ × γ)}
    {c : γ} (hg : Local T g)
    (h : Ops sys x is y) (hT : ∀ i ∈ is, T (sys.part i) = false) (hy : g y = .ok (z, c)) :
    ∃ x', g x = .ok (x', c) ∧ Ops sys x' is z := by
  induction h with
  | nil => exact ⟨z, hy, .nil z⟩
  | @cons x x₁ y i is head tail ih =>
    obtain ⟨hi, his⟩ := List.forall_mem_cons.mp hT
    obtain ⟨x₂, hx₂, htail⟩ := ih his hy
    have hdisj : ∀ p, decide (p = sys.part i) = true → T p = false := fun p hp => (of_decide_eq_true hp) ▸ hi
    obtain ⟨x', hx', hop⟩ := (L.op i).swap hg hdisj head hx₂
    exact ⟨x', hx', .cons hop htail⟩

/-- An operation on an untouched part could run before the call. -/
theorem Through.swap [Parts π σ] [DecidableEq π] (L : Layout sys free uses touched closed) {t₀ t : τ} {o : List ω}
    (h : Through sys t₀ x t y o)
    (htouched : touched t (sys.part i) = false) (hi : sys.op i y = .ok (z, ())) :
    ∃ x', sys.op i x = .ok (x', ()) ∧ Through sys t₀ x' t z o := by
  induction h generalizing z with
  | start => exact ⟨z, hi, .start⟩
  | @more t₁ _ _ _ _ _ _ last ih =>
    obtain ⟨huntouched, hunused⟩ := (L.next _ _ _ _ _ last).1 _ htouched
    have hdisj : ∀ p, uses t₁ p = true → decide (p = sys.part i) = false := by
      intro p hp
      refine decide_eq_false fun heq => ?_
      rw [heq, hunused] at hp
      cases hp
    obtain ⟨z₁, hz₁, hsec⟩ := (L.sec _).swap (L.op i) hdisj last hi
    obtain ⟨x', hx', hthrough⟩ := ih huntouched hz₁
    exact ⟨x', hx', .more hthrough hsec⟩

theorem Coarse.ops {cs : List (ν ⊕ ι)} {o : List ω} (h : Coarse sys x cs y o) (hops : Ops sys y is z) :
    Coarse sys x (cs ++ is.map .inr) z o := by
  induction hops generalizing cs with
  | nil => simpa using h
  | @cons y y₁ z i is head tail ih =>
    rw [List.map_cons, List.append_cons]
    exact ih (h.op head)

end Moves

section Runs
variable [DecidableEq π] {sys : System σ π τ ν ι ω ε} {free uses touched closed : τ → π → Bool} {x : σ}

/-- What has happened, told without interruptions: the operations after the call in progress are on parts it no longer
    uses. -/
inductive Told (sys : System σ π τ ν ι ω ε) (closed : τ → π → Bool) (x : σ) : List (Event ν ι) → Fine σ τ ω → Prop
  | idle {es : List (Event ν ι)} {cs : List (ν ⊕ ι)} {y : σ} {o : List ω} (coarse : Coarse sys x cs y o)
      (calls : es.filterMap Event.start? = cs.filterMap Sum.getLeft?)
      (ops : ∀ p, es.filterMap (Event.on? sys.part p) = cs.filterMap (on? sys.part p)) : Told sys closed x es ⟨y, none, o⟩
  | busy {es : List (Event ν ι)} {cs : List (ν ⊕ ι)} {n : ν} {y z z' : σ} {t : τ} {o o' : List ω} {later : List ι}
      (coarse : Coarse sys x cs y o) (through : Through sys (sys.entry n) y t z o') (after : Ops sys z later z')
      (unused : ∀ i ∈ later, closed t (sys.part i) = true)
      (calls : es.filterMap Event.start? = cs.filterMap Sum.getLeft? ++ [n])
      (ops : ∀ p, es.filterMap (Event.on? sys.part p) =
        cs.filterMap (on? sys.part p) ++ later.filter fun i => sys.part i = p) :
      Told sys closed x es ⟨z', some t, o ++ o'⟩

theorem filterMap_ops (part : ι → π) (p : π) (is : List ι) :
    ((is.map Sum.inr : List (ν ⊕ ι)).filterMap (on? part p)) = is.filter fun i => part i = p := by
  induction is with
  | nil => rfl
  | cons i is ih =>
    by_cases hi : part i = p <;> simp [on?, hi, ← ih]

theorem told_start {es : List (Event ν ι)} {s s' : Fine σ τ ω} {n : ν} (h : Told sys closed x es s)
    (hs : fineStep sys free s (.start n) = some s') : Told sys closed x (es ++ [.start n]) s' := by
  cases h with
  | @idle cs y o coarse calls ops =>
    cases hs
    have htold : Told sys closed x (es ++ [.start n]) ⟨y, some (sys.entry n), o ++ []⟩ :=
      .busy (n := n) coarse .start (.nil y) (fun i hi => by cases hi) (by simp [calls, Event.start?])
        (fun p => by simp [ops, Event.on?])
    rwa [List.append_nil] at htold
  | busy => cases hs

theorem told_go [Parts π σ] (L : Layout sys free uses touched closed) {es : List (Event ν ι)} {s s' : Fine σ τ ω}
    (h : Told sys closed x es s) (hs : fineStep sys free s .go = some s') : Told sys closed x (es ++ [.go]) s' := by
  cases h with
  | idle => cases hs
  | @busy cs n y z z' t o o' later coarse through after unused calls ops =>
    simp only [fineStep] at hs
    split at hs
    · next y' o'' pc hsec =>
      cases hs
      obtain ⟨c, hc, hafter⟩ := after.swap L (L.sec t) (fun i hi => L.unused t _ (unused i hi)) hsec
      have hcalls : (es ++ [(.go : Event ν ι)]).filterMap Event.start? = es.filterMap Event.start? := by simp [Event.start?]
      have hops : ∀ p, (es ++ [(.go : Event ν ι)]).filterMap (Event.on? sys.part p) = es.filterMap (Event.on? sys.part p) := by
        intro p
        simp [Event.on?]
      rw [List.append_assoc]
      rcases pc with _ | t'
      · -- the call returns: the operations on the parts it used come after it
        have hcall : Call sys n y c (o' ++ o'') := ⟨t, z, o', o'', through, hc, rfl⟩
        refine .idle ((coarse.call hcall).ops hafter) ?_ fun p => ?_
        · rw [hcalls, calls, List.filterMap_append, List.filterMap_append, List.append_assoc]
          simp
        · rw [hops, ops, List.filterMap_append, List.filterMap_append, filterMap_ops]
          simp [on?]
      · exact .busy coarse (through.more hc) hafter (fun i hi => (L.next t t' _ _ _ hc).2 _ (unused i hi))
          (hcalls.trans calls) fun p => (hops p).trans (ops p)
    · cases hs

theorem told_op [Parts π σ] (L : Layout sys free uses touched closed) {es : List (Event ν ι)} {s s' : Fine σ τ ω} {i : ι}
    (h : Told sys closed x es s) (hs : fineStep sys free s (.op i) = some s') : Told sys closed x (es ++ [.op i]) s' := by
  have hcalls : (es ++ [(.op i : Event ν ι)]).filterMap Event.start? = es.filterMap Event.start? := by simp [Event.start?]
  have hops : ∀ p, (es ++ [(.op i : Event ν ι)]).filterMap (Event.on? sys.part p) =
      es.filterMap (Event.on? sys.part p) ++ [i].filter fun i => sys.part i = p := by
    intro p
    by_cases hp : sys.part i = p <;> simp [Event.on?, hp]
  simp only [fineStep] at hs
  split at hs
  · next hfree =>
    split at hs
    · next y' _ hop =>
      cases hs
      cases h with
      | idle coarse calls ops =>
        refine .idle (coarse.op hop) (by rw [hcalls, calls]; simp) fun p => ?_
        rw [hops, ops, List.filterMap_append, ← filterMap_ops]
        rfl
      | @busy cs n y z z' t o o' later coarse through after unused calls ops =>
        by_cases hclosed : closed t (sys.part i) = true
        · refine .busy coarse through (after.snoc hop) ?_ (hcalls.trans calls) fun p => ?_
          · exact List.forall_mem_append.mpr ⟨unused, List.forall_mem_singleton.mpr hclosed⟩
          · rw [hops, ops, List.filter_append, List.append_assoc]
        · have htouched := (L.apart t i hfree).resolve_left hclosed
          -- the operations that are to come later are on other parts
          have hne : ∀ j ∈ later, sys.part j ≠ sys.part i := fun j hj heq => hclosed (heq ▸ unused j hj)
          obtain ⟨c, hc, hafter⟩ := after.swap L (L.op i) (fun j hj => decide_eq_false (hne j hj)) hop
          obtain ⟨a, ha, hthrough⟩ := through.swap L htouched hc
          refine .busy (coarse.op ha) hthrough hafter unused ?_ fun p => ?_
          · rw [hcalls, calls, List.filterMap_append]
            simp
          · rw [hops, ops, List.filterMap_append, List.append_assoc, List.append_assoc]
            congr 1
            by_cases hp : sys.part i = p
            · have hnone : (later.filter fun j => sys.part j = p) = [] :=
                List.filter_eq_nil_iff.mpr fun j hj => by simpa [← hp] using hne j hj
              rw [hnone, List.append_nil, List.nil_append]
              simp [on?, hp]
            · simp [on?, hp]
    · cases hs
  · cases hs

/-- **A step** is told as a call, as a part of one, or as an operation before or after it. -/
theorem told_step [Parts π σ] (L : Layout sys free uses touched closed) {es : List (Event ν ι)} {s s' : Fine σ τ ω}
    {e : Event ν ι} (h : Told sys closed x es s) (hs : fineStep sys free s e = some s') :
    Told sys closed x (es ++ [e]) s' := by
  cases e with
  | start n => exact told_start h hs
  | go => exact told_go L h hs
  | op i => exact told_op L h hs

/-- **Calls need not be interrupted.** -/
theorem uninterrupted [Parts π σ] (L : Layout sys free uses touched closed) {es : List (Event ν ι)} {y : σ} {o : List ω}
    (h : Interleaving.Runs (fineStep sys free) ⟨x, none, []⟩ es ⟨y, none, o⟩) :
    ∃ cs : List (ν ⊕ ι), Coarse sys x cs y o ∧ cs.filterMap Sum.getLeft? = es.filterMap Event.start? ∧
      ∀ p, cs.filterMap (on? sys.part p) = es.filterMap (Event.on? sys.part p) := by
  have hrun : ∀ {es es' : List (Event ν ι)} {s s' : Fine σ τ ω}, Told sys closed x es s →
      Interleaving.Runs (fineStep sys free) s es' s' → Told sys closed x (es ++ es') s' := by
    intro es es' s s' htold hruns
    induction hruns generalizing es with
    | nil => simpa using htold
    | cons head _ ih =>
      rw [List.append_cons]
      exact ih (told_step L htold head)
  have hstart : Told sys closed x [] (⟨x, none, []⟩ : Fine σ τ ω) := .idle .nil rfl fun _ => rfl
  have htold := hrun hstart h
  rw [List.nil_append] at htold
  cases htold with
  | idle coarse calls ops => exact ⟨_, coarse, calls.symm, fun p => (ops p).symm⟩

end Runs

end Sections
