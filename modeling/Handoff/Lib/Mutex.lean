import Handoff.Lib.Interleaving
import Mathlib.Logic.Function.Basic

/- Threads whose critical sections one mutex guards.

   Each thread runs a list of sections; the body of a section is a list of operations on the shared state, between
   `lock` and `unlock`. A step is one operation of one thread. Whatever the interleaving, the shared state is what
   the sections make of it one after the other, in the order in which they took the lock (`runs_serial`): that
   order respects the order of each thread, and the section that holds the lock has done some of its
   operations. Some thread can always go on (`Serial.moves`). -/
namespace Mutex

open Interleaving

variable {ι κ σ ε : Type*} [DecidableEq ι]

inductive Op (ε : Type*)
  | lock
  | act (e : ε)
  | unlock

/-- What is left of a section when `es` is left of its body. -/
def tail (es : List ε) : List (Op ε) := es.map .act ++ [.unlock]

/-- The program of a thread. -/
def program (body : κ → List ε) (sections : List κ) : List (Op ε) :=
  (sections.map fun k => .lock :: tail (body k)).flatten

structure State (ι σ ε : Type*) where
  owner : Option ι
  todo : ι → List (Op ε)
  shared : σ

/-- One step of thread `t`. It waits while another thread holds the lock. -/
def step (act : σ → ε → σ) (s : State ι σ ε) (t : ι) : Option (State ι σ ε) :=
  match s.todo t with
  | [] => none
  | .lock :: ops =>
    if s.owner = none then some { s with owner := some t, todo := Function.update s.todo t ops } else none
  | .act e :: ops => some { s with todo := Function.update s.todo t ops, shared := act s.shared e }
  | .unlock :: ops => some { s with owner := none, todo := Function.update s.todo t ops }

def start (body : κ → List ε) (sections : ι → List κ) (s₀ : σ) : State ι σ ε :=
  ⟨none, fun t => program body (sections t), s₀⟩

/-- Whether the next step of thread `t` takes the lock. -/
def takes (s : State ι σ ε) (t : ι) : Bool :=
  match s.todo t with
  | .lock :: _ => true
  | _ => false

/-- The threads that take the lock when `ts` make their steps from `s`, in order. -/
def lockers (act : σ → ε → σ) : State ι σ ε → List ι → List ι
  | _, [] => []
  | s, t :: ts => (if takes s t then [t] else []) ++ (step act s t).elim [] fun s' => lockers act s' ts

/-- A section that holds the lock: its thread, and the operations it has done and has not done. -/
structure Open (ι κ ε : Type*) where
  thread : ι
  label : κ
  before : List ε
  after : List ε

/-- The threads of the sections that have been begun, in order. -/
def begun (done : List (ι × κ)) (cur : Option (Open ι κ ε)) : List ι :=
  done.map (·.1) ++ cur.toList.map (·.thread)

/-- The sections of one thread. -/
def ofThread (t : ι) (done : List (ι × κ)) : List κ := (done.filter (·.1 = t)).map (·.2)

/-- A state between or within sections. Each thread has done its first sections, `done` being all that were done in
    their order, may be within one, and has `rest` left. -/
structure Serial (act : σ → ε → σ) (body : κ → List ε) (sections : ι → List κ) (s₀ : σ) (s : State ι σ ε)
    (done : List (ι × κ)) (cur : Option (Open ι κ ε)) (rest : ι → List κ) : Prop where
  owner : s.owner = cur.map (·.thread)
  todo : ∀ t, s.todo t = (cur.elim [] fun c => if c.thread = t then tail c.after else []) ++ program body (rest t)
  threads : ∀ t, sections t = ofThread t done ++ (cur.elim [] fun c => if c.thread = t then [c.label] else []) ++ rest t
  within : ∀ c ∈ cur, body c.label = c.before ++ c.after
  shared : s.shared = (cur.elim [] (·.before)).foldl act ((done.flatMap fun d => body d.2).foldl act s₀)

section Steps
variable {act : σ → ε → σ} {body : κ → List ε} {sections : ι → List κ} {s₀ : σ} {s s' : State ι σ ε}
  {done : List (ι × κ)} {cur : Option (Open ι κ ε)} {rest : ι → List κ} {t : ι}

theorem serial_start (act : σ → ε → σ) (body : κ → List ε) (sections : ι → List κ) (s₀ : σ) :
    Serial act body sections s₀ (start body sections s₀) [] none sections where
  owner := rfl
  todo _ := rfl
  threads _ := rfl
  within _ h := by cases h
  shared := rfl

theorem Serial.outside (h : Serial act body sections s₀ s done cur rest) (ht : ∀ c ∈ cur, c.thread ≠ t) :
    s.todo t = program body (rest t) := by
  rw [h.todo t]
  rcases cur with _ | c
  · rfl
  · simp [ht c rfl]

theorem Serial.inside {c : Open ι κ ε} (h : Serial act body sections s₀ s done (some c) rest)
    (hstep : step act s c.thread = some s') : takes s c.thread = false ∧
      ∃ done' cur', Serial act body sections s₀ s' done' cur' rest ∧ begun done' cur' = begun done (some c) := by
  obtain ⟨u, k, before, after⟩ := c
  have htodo := h.todo u
  have hwithin := h.within _ rfl
  rcases after with _ | ⟨e, after⟩
  · simp only [Option.elim_some, if_true, tail, List.map_nil, List.nil_append, List.singleton_append] at htodo
    simp only [step, htodo, Option.some.injEq] at hstep
    subst hstep
    refine ⟨by simp only [takes, htodo], done ++ [(u, k)], none, ⟨rfl, ?_, ?_, (fun _ h => by cases h), ?_⟩,
      by simp [begun]⟩
    · intro t
      by_cases ht : t = u
      · subst ht
        simp
      · have := h.todo t
        simpa [Function.update_of_ne ht, Ne.symm ht] using this
    · intro t
      have := h.threads t
      by_cases ht : u = t
      · subst ht
        simpa [ofThread] using this
      · simpa [ofThread, ht] using this
    · have := h.shared
      simp only [List.append_nil] at hwithin
      simpa [hwithin] using this
  · simp only [Option.elim_some, if_true, tail, List.map_cons, List.cons_append] at htodo
    simp only [step, htodo, Option.some.injEq] at hstep
    subst hstep
    refine ⟨by simp only [takes, htodo], done, some ⟨u, k, before ++ [e], after⟩,
      ⟨h.owner, ?_, h.threads, ?_, ?_⟩, rfl⟩
    · intro t
      by_cases ht : t = u
      · subst ht
        simp [tail]
      · have := h.todo t
        simpa [Function.update_of_ne ht, Ne.symm ht] using this
    · rintro _ ⟨⟩
      simpa using hwithin
    · have := h.shared
      simp only [Option.elim_some] at this ⊢
      rw [List.foldl_append, ← this]
      rfl

theorem Serial.enter (h : Serial act body sections s₀ s done cur rest) (ht : ∀ c ∈ cur, c.thread ≠ t)
    (hstep : step act s t = some s') : takes s t = true ∧
      ∃ cur' rest', Serial act body sections s₀ s' done cur' rest' ∧ begun done cur' = begun done cur ++ [t] := by
  have hout := h.outside ht
  rcases hrest : rest t with _ | ⟨k, ks⟩
  · rw [hrest] at hout
    simp [step, hout, program] at hstep
  · rw [hrest] at hout
    have hout' : s.todo t = .lock :: (tail (body k) ++ program body ks) := hout
    simp only [step, hout'] at hstep
    split at hstep
    · next howner =>
      cases hstep
      obtain rfl : cur = none := by simpa [h.owner] using howner
      refine ⟨by simp only [takes, hout'], some ⟨t, k, [], body k⟩, Function.update rest t ks,
        ⟨rfl, ?_, ?_, (fun _ hc => by cases hc; rfl), h.shared⟩, by simp [begun]⟩
      · intro u
        by_cases hu : u = t
        · subst hu
          simp
        · have := h.todo u
          simpa [Function.update_of_ne hu, Ne.symm hu] using this
      · intro u
        have := h.threads u
        by_cases hu : u = t
        · subst hu
          simpa [hrest] using this
        · simpa [Function.update_of_ne hu, Ne.symm hu] using this
    · cases hstep

/-- **One step.** A section begins when its thread takes the lock, and not otherwise. -/
theorem Serial.step (h : Serial act body sections s₀ s done cur rest) (hstep : step act s t = some s') :
    ∃ done' cur' rest', Serial act body sections s₀ s' done' cur' rest' ∧
      begun done' cur' = begun done cur ++ if takes s t then [t] else [] := by
  by_cases hcur : ∃ c ∈ cur, c.thread = t
  · obtain ⟨c, hc, rfl⟩ := hcur
    cases hc
    obtain ⟨htakes, done', cur', h', hbegun⟩ := h.inside hstep
    exact ⟨done', cur', rest, h', by simp [hbegun, htakes]⟩
  · obtain ⟨htakes, cur', rest', h', hbegun⟩ := h.enter (fun c hc ht => hcur ⟨c, hc, ht⟩) hstep
    exact ⟨done, cur', rest', h', by simp [hbegun, htakes]⟩

theorem Serial.runs {ts : List ι} (h : Serial act body sections s₀ s done cur rest)
    (hrun : Runs (Mutex.step act) s ts s') : ∃ done' cur' rest', Serial act body sections s₀ s' done' cur' rest' ∧
      begun done' cur' = begun done cur ++ lockers act s ts := by
  -- what has been begun grows by what each step takes, so the induction is from the front
  induction hrun generalizing done cur rest with
  | nil => exact ⟨done, cur, rest, h, by simp [lockers]⟩
  | cons head _ ih =>
    obtain ⟨done₁, cur₁, rest₁, h₁, hbegun₁⟩ := h.step head
    obtain ⟨done', cur', rest', h', hbegun⟩ := ih h₁
    exact ⟨done', cur', rest', h', by simp [hbegun, hbegun₁, lockers, head]⟩

/-- **Every run is serial**, its sections in the order in which their threads took the lock. -/
theorem runs_serial {ts : List ι} (hrun : Runs (Mutex.step act) (start body sections s₀) ts s) :
    ∃ done cur rest, Serial act body sections s₀ s done cur rest ∧
      begun done cur = lockers act (start body sections s₀) ts :=
  (serial_start act body sections s₀).runs hrun

/-- **No deadlock**: while a thread has something left, some thread can make a step. -/
theorem Serial.moves (h : Serial act body sections s₀ s done cur rest) (ht : s.todo t ≠ []) :
    ∃ u s', Mutex.step act s u = some s' := by
  rcases cur with _ | ⟨u, k, before, after⟩
  · have hout := h.outside (t := t) fun _ hc => by cases hc
    rcases hrest : rest t with _ | ⟨k, ks⟩
    · rw [hout, hrest] at ht
      exact absurd rfl ht
    · have hout' : s.todo t = .lock :: (tail (body k) ++ program body ks) := by
        rw [hout, hrest]
        rfl
      exact ⟨t, _, by simp only [Mutex.step, hout']; exact if_pos h.owner⟩
  · have htodo := h.todo u
    simp only [Option.elim_some, if_true] at htodo
    rcases after with _ | ⟨e, after⟩
    · exact ⟨u, _, by simp only [Mutex.step, htodo, tail, List.map_nil, List.nil_append, List.singleton_append]; rfl⟩
    · exact ⟨u, _, by simp only [Mutex.step, htodo, tail, List.map_cons, List.cons_append]; rfl⟩

theorem Serial.finished (h : Serial act body sections s₀ s done cur rest) (hdone : ∀ t, s.todo t = []) :
    cur = none ∧ ∀ t, rest t = [] := by
  constructor
  · rcases cur with _ | ⟨u, k, before, after⟩
    · rfl
    · have := h.todo u
      rw [hdone u] at this
      simp [tail] at this
  · intro t
    have := h.todo t
    rw [hdone t] at this
    rcases hr : rest t with _ | ⟨k, ks⟩
    · rfl
    · rw [hr] at this
      simp [program] at this

end Steps

/-! Labels that stand for other labels. -/

section Labels
variable {α : Type*} {f : α → κ}

theorem ofThread_cons (t : ι) (d : ι × κ) (done : List (ι × κ)) :
    ofThread t (d :: done) = if d.1 = t then d.2 :: ofThread t done else ofThread t done := by
  by_cases h : d.1 = t <;> simp [ofThread, h]

theorem exists_ofThread {done : List (ι × κ)} {xs : ι → List α} (h : ∀ t, (xs t).map f = ofThread t done) :
    ∃ done' : List (ι × α), done = done'.map (Prod.map id f) ∧ ∀ t, ofThread t done' = xs t := by
  induction done generalizing xs with
  | nil => exact ⟨[], rfl, fun t => (List.map_eq_nil_iff.mp (h t)).symm⟩
  | cons d done ih =>
    obtain ⟨u, k⟩ := d
    have hu := h u
    rw [ofThread_cons, if_pos rfl] at hu
    obtain ⟨x, xs', hx, rfl, hxs'⟩ := List.map_eq_cons_iff.mp hu
    have hothers : ∀ t, (Function.update xs u xs' t).map f = ofThread t done := fun t => by
      by_cases ht : t = u
      · subst ht
        rw [Function.update_self, hxs']
      · rw [Function.update_of_ne ht, h t, ofThread_cons, if_neg (Ne.symm ht)]
    obtain ⟨done', rfl, hdone'⟩ := ih hothers
    refine ⟨(u, x) :: done', rfl, fun t => ?_⟩
    rw [ofThread_cons, hdone']
    by_cases ht : u = t
    · subst ht
      rw [if_pos rfl, Function.update_self, hx]
    · rw [if_neg ht, Function.update_of_ne (Ne.symm ht)]

theorem ofThread_filterMap (t : ι) (g : κ → Option α) (done : List (ι × κ)) :
    ofThread t (done.filterMap fun d => (g d.2).map (d.1, ·)) = (ofThread t done).filterMap g := by
  induction done with
  | nil => rfl
  | cons d done ih =>
    rw [List.filterMap_cons, ofThread_cons]
    rcases hg : g d.2 with _ | a <;> by_cases ht : d.1 = t <;> simp [hg, ht, ih, ofThread_cons]

end Labels

end Mutex
