import Handoff.SchedulerLoop

/- A run of the loop with an observer.

   The observer is told of each handler call that returns: which handler, when it was due, and the state
   it was called in. It keeps a state of its own and does not interfere (`watch_loop`). What
   it keeps makes statements about the past of a run into statements about its state. -/
namespace Handoff

open Iterate

section Watch
variable {α ρ γ : Type} (hs : Handlers α ρ) (events : List (SchedulerEvent α)) (clock : Nat → Nat)
  (note : γ → Handler α → UInt64 → TcpCtx × ρ → γ)

/-- What the observer makes of a step from `s`. -/
def observed (s : RunState α ρ) (g : γ) : γ :=
  match s.pc with
  | .wait fire h _ =>
    if clock (s.reads + 1) - clock 0 < fire.toNat then g
    else
      match hs.call h s.world with
      | .ok _ => note g h fire s.world
      | .error _ => g
  | _ => g

/-- One step of the loop with its observer. -/
def watchStep (x : RunState α ρ × γ) : RunState α ρ × γ :=
  (schedulerStep hs events clock x.1, observed hs clock note x.1 x.2)

theorem watch_loop (x : RunState α ρ × γ) (n : Nat) :
    ((watchStep hs events clock note)^[n] x).1 = (schedulerStep hs events clock)^[n] x.1 := by
  induction n generalizing x with
  | zero => rfl
  | succ n ih => rw [Function.iterate_succ_apply, Function.iterate_succ_apply, ih]; rfl

/-- All a step of the loop can do, with the observer. -/
inductive WatchMoves (s : RunState α ρ) (g : γ) : RunState α ρ × γ → Prop
  | finish (hpc : s.pc = .head) (hev : events[s.i]? = none) : WatchMoves s g ({ s with pc := .done }, g)
  | event (e : SchedulerEvent α) (hpc : s.pc = .head) (hev : events[s.i]? = some e)
      (hlt : e.timeMs < getTcpSchedulerFire s.world.1) :
      WatchMoves s g ({ s with i := s.i + 1, pc := .wait e.timeMs (.event e) s.world.1.sampleInterval }, g)
  | tick (e : SchedulerEvent α) (hpc : s.pc = .head) (hev : events[s.i]? = some e)
      (hle : getTcpSchedulerFire s.world.1 ≤ e.timeMs) :
      WatchMoves s g ({ s with pc := .wait (getTcpSchedulerFire s.world.1) .tick s.world.1.sampleInterval
                               world := (advance s.world.1, s.world.2) }, g)
  | early (fire : UInt64) (h : Handler α) (si : Int) (hpc : s.pc = .wait fire h si) :
      WatchMoves s g ({ s with reads := s.reads + 1 }, g)
  | call (fire : UInt64) (h : Handler α) (si : Int) (w : TcpCtx × ρ) (elapsed : Nat) (hpc : s.pc = .wait fire h si)
      (hcall : hs.call h s.world = .ok w) :
      WatchMoves s g ({ s with reads := s.reads + 1, pc := .head, world := w,
                               calls := s.calls ++ [⟨h, fire, elapsed, si⟩] }, note g h fire s.world)
  | fault (fire : UInt64) (h : Handler α) (si : Int) (f : Fault) (hpc : s.pc = .wait fire h si)
      (hcall : hs.call h s.world = .error f) :
      WatchMoves s g ({ s with reads := s.reads + 1, pc := .crashed f }, g)
  | halted (hpc : s.pc = .done ∨ ∃ f, s.pc = .crashed f) : WatchMoves s g (s, g)

theorem watch_moves (s : RunState α ρ) (g : γ) :
    WatchMoves hs events note s g (watchStep hs events clock note (s, g)) := by
  have hmoves := schedulerStep_moves hs events clock s
  unfold watchStep
  generalize schedulerStep hs events clock s = s' at hmoves ⊢
  cases hmoves with
  | finish hpc hev =>
    rw [show observed hs clock note s g = g by simp only [observed, hpc]]
    exact .finish hpc hev
  | event e hpc hev hlt =>
    rw [show observed hs clock note s g = g by simp only [observed, hpc]]
    exact .event e hpc hev hlt
  | tick e hpc hev hle =>
    rw [show observed hs clock note s g = g by simp only [observed, hpc]]
    exact .tick e hpc hev hle
  | early fire h si hpc hearly =>
    rw [show observed hs clock note s g = g by simp only [observed, hpc, if_pos hearly]]
    exact .early fire h si hpc
  | call fire h si w hpc hlate hcall =>
    rw [show observed hs clock note s g = note g h fire s.world by
      simp only [observed, hpc, if_neg (Nat.not_lt.mpr hlate), hcall]]
    exact .call fire h si w _ hpc hcall
  | fault fire h si f hpc hlate hcall =>
    rw [show observed hs clock note s g = g by simp only [observed, hpc, if_neg (Nat.not_lt.mpr hlate), hcall]]
    exact .fault fire h si f hpc hcall
  | halted hpc =>
    have hsame : observed hs clock note s g = g := by
      obtain hpc | ⟨f, hpc⟩ := hpc <;> simp only [observed, hpc]
    rw [hsame]
    exact .halted hpc

end Watch

end Handoff
