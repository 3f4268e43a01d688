import Handoff.Lib.Serial
import Handoff.LinkMemory
import Handoff.WindowTicks

/- A phase of burst estimation.

   `action_set_burst` seeds the window with the one remembered for the current link, each tick
   raises it to its estimate if that is larger, and the action that ends the phase writes it
   back. So the phase computes the maximum of the remembered window and the estimates of its
   ticks (`burst_running_max`). `Burst` keeps beside the controller which bytes each tick
   is about: those the window stage has counted since the tick before it or since the phase
   began. -/
namespace Handoff

open Machine Serial

/-! The bytes of a phase. -/

/-- The bytes a packet adds to the counter: what its number is ahead of the last one, if no earlier stage keeps
    it from being read. -/
def countedFor (w : WorkerCtx) (nfa : NfqData) : UInt64 :=
  match nfa.payload with
  | none => 0
  | some bs =>
    if ¬ Drops w ∧ w.doReorder = 0 ∧ Readable bs ∧ w.doRwnd ≠ 0 then (Bytes.ack bs - w.lastAck).toUInt64 else 0

theorem callback_counts {csum : List UInt8 → UInt16} {w w' : WorkerCtx} {nfa : NfqData} {vs : List Verdict}
    (h : workerCallback csum w nfa = .ok (w', vs)) : w'.dataRcvd = w.dataRcvd + countedFor w nfa := by
  obtain ⟨⟨bs, hp⟩, hd⟩ := workerCallback_ok csum h
  rw [workerCallback_some csum hp hd] at h
  simp only [countedFor, hp]
  split at h
  · next hdr =>
    cases h
    simp [hdr]
  · next hdr =>
    split at h
    · next hre =>
      have hfin : w' = (finish csum (afterDrop w) nfa.packetId bs).1 := by
        rw [Except.ok.injEq] at h
        rw [h]
      have hre' : w.doReorder = 0 := by simpa using hre
      rw [hfin, finish_fst, afterRwnd]
      simp only [afterDrop_doRwnd, afterDrop_dataRcvd, afterDrop_lastAck, hdr, hre', not_false_eq_true, true_and]
      split
      · rfl
      · simp
    · next hre =>
      obtain ⟨w₁, vs₁, hadmit, hend⟩ := reorderStep_ok (by simpa using hre) h
      have hre' : w.doReorder ≠ 0 := by simpa using hre
      have hsame : w₁.dataRcvd = w.dataRcvd := by
        obtain ⟨-, -, -, ids, rfl⟩ | ⟨-, -, -, rfl⟩ := reorderAdmit_ok hadmit <;> exact afterDrop_dataRcvd w
      rw [if_neg (fun hc => hre' hc.2.1), UInt64.add_zero]
      obtain ⟨-, rfl, -⟩ | ⟨-, rfl, -⟩ := hend
      · exact hsame
      · exact hsame

/-- What is kept of a phase: the bytes counted since the last tick, and those each tick was about. -/
structure Burst where
  bytes : UInt64
  samples : List UInt64

def Burst.after (g : Burst) (s : Controller) : ControlInput → Burst
  | .packet nfa => { g with bytes := g.bytes + countedFor s.worker nfa }
  | .tick => ⟨0, g.samples ++ [g.bytes]⟩
  | .action _ => g

/-- The actions of the controller. Packets, ticks and the other actions may come between any two of them. -/
def ControlInput.steers : ControlInput → Bool
  | .action (.solUpdate _ _) => true
  | .action (.setRwnd _ _) => true
  | .action (.setBurst _ _) => true
  | .action (.setAdapt _ _) => true
  | .action (.initTcpSched _ _) => true
  | _ => false

/-- The window `b` bytes in one period make up in one RTT. -/
def burstSample (p : LinkParameter) (sampleInterval : Int) (b : UInt64) : Int :=
  ⌊expectedBytes b p.rtt sampleInterval⌋ / 2^10

/-- An estimate that an `int` holds, and that 16 bits hold after the shift. -/
def SampleFits (p : LinkParameter) (sampleInterval : Int) (b : UInt64) : Prop :=
  ⌊expectedBytes b p.rtt sampleInterval⌋ < 2^31 ∧ burstSample p sampleInterval b ≤ 65535

/-! The invariant of a phase. -/

/-- Inside a phase that began with the sampler `t` on the link `p`: the worker has counted the bytes, and its
    window is the maximum so far. -/
structure InBurst (t : TcpCtx) (p : LinkParameter) (s : Controller) (g : Burst) : Prop where
  tcp : s.tcp = { t with sampleInterval := t.burstSampleInterval }
  on : s.worker.doBurst ≠ 0
  bytes : s.worker.dataRcvd = g.bytes
  top : (∀ b ∈ g.samples, SampleFits p t.burstSampleInterval b) →
    (s.worker.tuneRwnd.toNat : Int) = highest p.histRw (g.samples.map (burstSample p t.burstSampleInterval))

section Phase
variable {csum : List UInt8 → UInt16} {pos : Nat} {t : TcpCtx} {p : LinkParameter} {s s' : Controller} {g : Burst}
  {o : List Verdict}

theorem burst_begins {q : UInt16} (hp : readAt s.tcp.histParam s.tcp.mark = .ok p) (h0 : 0 ≤ p.histRw)
    (h1 : p.histRw ≤ 65535) (hs : controlStep csum pos s (.action (.setBurst q 1)) = .ok (s', o)) :
    InBurst s.tcp p s' ⟨0, []⟩ := by
  simp only [controlStep, Action.body?, setBurst, hp, C.ok_bind, Int.one_pos, if_true, C.pure_eq_ok, Except.ok.injEq,
    Prod.mk.injEq] at hs
  obtain ⟨rfl, -⟩ := hs
  refine ⟨rfl, Int.one_ne_zero, rfl, fun _ => ?_⟩
  exact (installed_iff.mpr ⟨h0, by omega⟩).symm

theorem inside_action {a : Action} {q : UInt16} {f : Body} {w w' : WorkerCtx} {t' : TcpCtx} (hb : a.body? = some (q, f))
    (hi : (ControlInput.action a).steers = false) (h : f pos w t = .ok (w', t')) :
    t' = t ∧ w'.doBurst = w.doBurst ∧ w'.doAdapt = w.doAdapt ∧ w'.dataRcvd = w.dataRcvd ∧
      w'.tuneRwnd = w.tuneRwnd := by
  cases a with
  | setMark q mark => cases hb; cases h; exact ⟨rfl, rfl, rfl, rfl, rfl⟩
  | setDedup q enable => cases hb; cases h; exact ⟨rfl, rfl, rfl, rfl, rfl⟩
  | setReorder q enable count offset =>
    cases hb
    cases h
    refine ⟨rfl, ?_⟩
    simp only [workerSetReorder]
    by_cases he : enable ≠ 0
    · rw [if_pos he]
      exact ⟨rfl, rfl, rfl, rfl⟩
    · rw [if_neg he]
      exact ⟨rfl, rfl, rfl, rfl⟩
  | setDrop q enable dropCount =>
    cases hb
    cases h
    refine ⟨rfl, ?_⟩
    unfold workerSetDrop
    split <;> exact ⟨rfl, rfl, rfl, rfl⟩
  | solUpdate q mark => cases hi
  | setRwnd q rwnd => cases hi
  | setBurst q enable => cases hi
  | setAdapt q enable => cases hi
  | initTcpSched q args => cases hi
  | _ => cases hb

theorem burst_sample (h : InBurst t p s g) (hp : readAt t.histParam t.mark = .ok p) (hrtt : 0 ≤ p.rtt)
    (hsi : 0 < t.burstSampleInterval) (hs : controlStep csum pos s .tick = .ok (s', o)) :
    InBurst t p s' ⟨0, g.samples ++ [g.bytes]⟩ := by
  have hp' : readAt s.tcp.histParam s.tcp.mark = .ok p := by
    rw [h.tcp]
    exact hp
  have hperiod : s.tcp.sampleInterval = t.burstSampleInterval := by rw [h.tcp]
  simp only [controlStep, burst_tick hp' h.on, C.ok_bind, C.pure_eq_ok, Except.ok.injEq, Prod.mk.injEq] at hs
  obtain ⟨rfl, -⟩ := hs
  refine ⟨h.tcp, h.on, rfl, ?_⟩
  intro hfits
  have htop := h.top fun b hb => hfits b (List.mem_append_left _ hb)
  obtain ⟨hint, hshort⟩ := hfits g.bytes (by simp)
  have hpos := @expectedBytes_nonneg g.bytes p.rtt _ hrtt hsi
  have hfit : FitsInt (expectedBytes g.bytes p.rtt t.burstSampleInterval) := by
    rw [FitsInt, trunc_nonneg hpos, intMin, intMax]
    have h0 := Int.floor_nonneg.mpr hpos
    omega
  have hest : ((burstRwEst g.bytes p.rtt t.burstSampleInterval).toNat : Int) = burstSample p t.burstSampleInterval g.bytes := by
    have h0 := Int.floor_nonneg.mpr hpos
    rw [toNat_burstRwEst hrtt hsi hfit, burstSample]
    omega
  simp only [List.map_append, List.map_cons, List.map_nil, highest_snoc, ← htop, hperiod, h.bytes]
  rw [← hest] at hshort ⊢
  split
  · rw [UInt64.toNat_toUInt16, Nat.mod_eq_of_lt (by omega)]
    omega
  · omega

/-- **One step inside a phase.** -/
theorem inside_step {i : ControlInput} (h : InBurst t p s g) (hp : readAt t.histParam t.mark = .ok p) (hrtt : 0 ≤ p.rtt)
    (hsi : 0 < t.burstSampleInterval) (hi : i.steers = false) (hs : controlStep csum pos s i = .ok (s', o)) :
    InBurst t p s' (g.after s i) := by
  cases i with
  | tick => exact burst_sample h hp hrtt hsi hs
  | packet nfa =>
    simp only [controlStep, C.bind_ok, C.pure_eq_ok, Except.ok.injEq, Prod.exists, Prod.mk.injEq] at hs
    obtain ⟨w, vs, hcb, rfl, -⟩ := hs
    have hset := callback_settings hcb
    simp only [settings, Prod.mk.injEq] at hset
    obtain ⟨htune, hburst, -⟩ := hset
    refine ⟨h.tcp, by rw [hburst]; exact h.on, ?_, ?_⟩
    · show w.dataRcvd = g.bytes + countedFor s.worker nfa
      rw [callback_counts hcb, h.bytes]
    · intro hfits
      rw [htune]
      exact h.top hfits
  | action a =>
    rcases hb : a.body? with _ | ⟨q, f⟩
    · simp only [controlStep, hb, Except.ok.injEq, Prod.mk.injEq] at hs
      exact hs.1 ▸ h
    · simp only [controlStep, hb, C.bind_ok, C.pure_eq_ok, Except.ok.injEq, Prod.exists, Prod.mk.injEq] at hs
      obtain ⟨w, t', hf, rfl, -⟩ := hs
      obtain ⟨rfl, hburst, -, hbytes, htune⟩ := inside_action hb hi hf
      refine ⟨h.tcp, by rw [hburst]; exact h.on, hbytes.trans h.bytes, ?_⟩
      intro hfits
      rw [htune]
      exact h.top hfits

/-- **The phase ends.** The maximum is in the window and remembered for the link. -/
theorem burst_ends {q : UInt16} (h : InBurst t p s g) (hp : readAt t.histParam t.mark = .ok p)
    (hfits : ∀ b ∈ g.samples, SampleFits p t.burstSampleInterval b)
    (hs : controlStep csum pos s (.action (.setBurst q 0)) = .ok (s', o)) :
    (s'.worker.tuneRwnd.toNat : Int) = highest p.histRw (g.samples.map (burstSample p t.burstSampleInterval)) ∧
      s'.tcp.mark = t.mark ∧ remembered s'.tcp t.mark = .ok s'.worker.tuneRwnd.toNat ∧
      ∀ i, i ≠ t.mark → readAt s'.tcp.histParam i = readAt t.histParam i := by
  have htop := h.top hfits
  have hseed : p.histRw ≤ s.worker.tuneRwnd.toNat := by
    rw [htop]
    exact le_highest _ _
  simp only [controlStep, Action.body?, setBurst, h.tcp, hp, C.ok_bind, lt_irrefl, if_false] at hs
  split at hs
  · next hlt =>
    simp only [C.bind_ok, C.pure_eq_ok, Except.ok.injEq, Prod.exists, Prod.mk.injEq] at hs
    obtain ⟨w, t', ⟨hist, hw, rfl, rfl⟩, rfl, -⟩ := hs
    obtain ⟨hself, hothers⟩ := readAt_writeAt hw
    exact ⟨htop, rfl, remembered_ok.mpr ⟨_, hself, rfl⟩, hothers⟩
  · next hle =>
    simp only [C.pure_eq_ok, C.ok_bind, Except.ok.injEq, Prod.mk.injEq] at hs
    obtain ⟨rfl, -⟩ := hs
    have heq : p.histRw = s.worker.tuneRwnd.toNat := by
      have hle' : ¬ p.histRw < s.worker.tuneRwnd.toNat := hle
      omega
    exact ⟨htop, rfl, remembered_ok.mpr ⟨p, hp, heq⟩, fun _ _ => rfl⟩

end Phase

/-! A whole phase. -/

/-- The inputs of a phase on queue `q`. -/
def burstPhase (q : UInt16) (mid : List ControlInput) : List ControlInput :=
  .action (.setBurst q 1) :: mid ++ [.action (.setBurst q 0)]

section Run
variable {csum : List UInt8 → UInt16} {pos : Nat} {q : UInt16}

/-- What a phase leaves, on the link `p` of the sampler `t`: the maximum of the remembered window and of the estimates
    of `samples` is the window and is remembered for the link; the other links are as before. -/
structure BurstMaximum (t : TcpCtx) (p : LinkParameter) (samples : List UInt64) (s : Controller) : Prop where
  window : (s.worker.tuneRwnd.toNat : Int) = highest p.histRw (samples.map (burstSample p t.burstSampleInterval))
  current : s.tcp.mark = t.mark
  link : remembered s.tcp t.mark =
    .ok (highest p.histRw (samples.map (burstSample p t.burstSampleInterval)))
  others : ∀ i, i ≠ t.mark → readAt s.tcp.histParam i = readAt t.histParam i

theorem control_burst {p : LinkParameter} {s s' : Controller} {g' : Burst} {mid : List ControlInput} {o : List Verdict}
    (hp : readAt s.tcp.histParam s.tcp.mark = .ok p) (h0 : 0 ≤ p.histRw) (h1 : p.histRw ≤ 65535) (hrtt : 0 ≤ p.rtt)
    (hsi : 0 < s.tcp.burstSampleInterval) (hmid : ∀ i ∈ mid, i.steers = false)
    (hr : run (ghost (controlStep csum pos) Burst.after) (s, ⟨0, []⟩) (burstPhase q mid) = .ok ((s', g'), o))
    (hfits : ∀ b ∈ g'.samples, SampleFits p s.tcp.burstSampleInterval b) :
    BurstMaximum s.tcp p g'.samples s' := by
  obtain ⟨x, o₁, o₂, hmost, hlast, -⟩ := run_snoc_ok.mp hr
  obtain ⟨x₀, p₁, p₂, hfirst, hinside, -⟩ := run_cons_ok.mp hmost
  obtain ⟨hs₀, hg₀⟩ := ghost_ok hfirst
  obtain ⟨hs', hg'⟩ := ghost_ok hlast
  have hstart : InBurst s.tcp p x₀.1 x₀.2 := by
    rw [hg₀]
    exact burst_begins hp h0 h1 hs₀
  have hall : EveryState (ghost (controlStep csum pos) Burst.after) x₀ mid (fun _ x _ => InBurst s.tcp p x.1 x.2) := by
    refine everyState_of_step (P := fun _ _ (i : ControlInput) => i.steers = false) hstart ?_ ?_
    · intro _ x _ i y _ h hi hs
      obtain ⟨hstep, hafter⟩ := ghost_ok hs
      rw [hafter]
      exact inside_step h hp hrtt hsi hi hstep
    · apply EveryStep.of_inputs
      intro pre i hpre
      exact hmid i (hpre.subset (by simp))
  have hend : InBurst s.tcp p x.1 x.2 := hall mid x p₂ (List.prefix_refl _) hinside
  simp only at hg'
  subst hg'
  obtain ⟨hwin, hcur, hrem, hothers⟩ := burst_ends hend hp hfits hs'
  exact ⟨hwin, hcur, hwin ▸ hrem, hothers⟩

/-- **A burst phase computes the running maximum.** In every run of the emulator that begins a burst phase on the
    linked worker, goes on with any packets and ticks and ends the phase, if the estimates fit, the window and
    the one remembered for the current link are the maximum of the window remembered before and the
    estimates of all ticks; the other links are unchanged. -/
theorem burst_running_max {e e' : Emulator} {s : Controller} {p : LinkParameter} {mid : List ControlInput}
    {is : List EmuInput} {o : List (Nat × Verdict)} (h : Holds pos q e s) (hlink : e.tcp.wkctx = some pos)
    (hp : readAt e.tcp.histParam e.tcp.mark = .ok p) (h0 : 0 ≤ p.histRw) (h1 : p.histRw ≤ 65535) (hrtt : 0 ≤ p.rtt)
    (hsi : 0 < e.tcp.burstSampleInterval) (hmid : ∀ i ∈ mid, i.steers = false)
    (hcs : List.Forall₂ (ControlInput.At pos q) (burstPhase q mid) is)
    (hr : run (emuStep csum) e is = .ok (e', o)) :
    ∃ s' g', run (ghost (controlStep csum pos) Burst.after) (s, ⟨0, []⟩) (burstPhase q mid) =
        .ok ((s', g'), o.map Prod.snd) ∧ Holds pos q e' s' ∧
      ((∀ b ∈ g'.samples, SampleFits p e.tcp.burstSampleInterval b) → BurstMaximum e.tcp p g'.samples s') := by
  obtain ⟨s', hs', h'⟩ := control_run hcs h hlink hr
  have hagree : Agree (fun a b => a.1.1 = b.1 ∧ a.2 = b.2)
      (run (ghost (controlStep csum pos) Burst.after) (s, ⟨0, []⟩) (burstPhase q mid))
      (run (controlStep csum pos) s (burstPhase q mid)) := run_ghost _ _
  rw [hs'] at hagree
  rcases hg : run (ghost (controlStep csum pos) Burst.after) (s, ⟨0, []⟩) (burstPhase q mid) with f | ⟨⟨s₁, g'⟩, o₁⟩ <;>
    rw [hg] at hagree
  · exact hagree.elim
  · obtain ⟨hs₁, ho₁⟩ := hagree
    simp only at hs₁ ho₁
    subst hs₁ ho₁
    refine ⟨s₁, g', rfl, h', ?_⟩
    rw [h.tcp] at hp hsi ⊢
    exact control_burst hp h0 h1 hrtt hsi hmid hg

end Run

/-! A phase with one packet and one tick, on a link remembered with a window of 20. -/

def slowLink : LinkParameter := ⟨1, 20, 100⟩

/-- Queue 0 is open, and its worker rewrites and is linked. -/
def linkedQueue : Emulator :=
  { openedQueue with
    tcp := { zeroTcp with wkctx := some 0, mark := 1, burstSampleInterval := 30, histParam := #v[⟨0, 0, 0⟩, slowLink, ⟨2, 0, 0⟩] }
    action.heap := [{ freshObj quietLib 0 with worker := { zeroWorker with doRwnd := 1 } }] }

/-- The packet acknowledges 30720 bytes: 102400 in one RTT, a window of 100. -/
def samplePacket : NfqData := ⟨1, some (ackSegment 30720 5)⟩

theorem sample_hundred : SampleFits slowLink 30 30720 ∧ burstSample slowLink 30 30720 = 100 := by
  have hfloor : ⌊expectedBytes 30720 slowLink.rtt 30⌋ = 102400 := by
    rw [expectedBytes, show (30720 : UInt64).toNat = 30720 from rfl, show slowLink.rtt = 100 from rfl, Int.floor_eq_iff]
    norm_num
  have hsample : burstSample slowLink 30 30720 = 100 := by
    rw [burstSample, hfloor]
    rfl
  refine ⟨⟨?_, ?_⟩, hsample⟩
  · rw [hfloor]
    decide
  · rw [hsample]
    decide

/-- One packet and one tick. -/
def sampleInputs : List EmuInput :=
  [.action quietLib (.setBurst 0 1), .packet 0 samplePacket, .tick, .action quietLib (.setBurst 0 0)]

theorem burst_running_max_hundred :
    ∃ e' o, run (emuStep zeroCsum) linkedQueue sampleInputs = .ok (e', o) ∧ remembered e'.tcp 1 = .ok 100 := by
  have hat : List.Forall₂ (ControlInput.At 0 0) (burstPhase 0 [.packet samplePacket, .tick]) sampleInputs := by
    exact .cons ⟨rfl, _, rfl⟩ (.cons ⟨rfl, rfl⟩ (.cons trivial (.cons ⟨rfl, _, rfl⟩ .nil)))
  have hmid : ∀ i ∈ [.packet samplePacket, .tick], ControlInput.steers i = false := by
    intro i hi
    simp only [List.mem_cons, List.not_mem_nil, or_false] at hi
    obtain rfl | rfl := hi <;> rfl
  have hok : (run (emuStep zeroCsum) linkedQueue sampleInputs).isOk = true := by decide +kernel
  rcases hr : run (emuStep zeroCsum) linkedQueue sampleInputs with f | ⟨e', o⟩
  · rw [hr] at hok
    cases hok
  obtain ⟨s', g', hg, hh, hmax⟩ := burst_running_max (s := ⟨{ zeroWorker with doRwnd := 1 }, linkedQueue.tcp⟩)
    ⟨rfl, rfl, rfl⟩ rfl (p := slowLink) rfl (by decide) (by decide) (by decide) (by decide) hmid hat hr
  have hsamples : g'.samples = [30720] := by
    have hkept : (run (ghost (controlStep zeroCsum 0) Burst.after)
        (⟨{ zeroWorker with doRwnd := 1 }, linkedQueue.tcp⟩, ⟨0, []⟩) (burstPhase 0 [.packet samplePacket, .tick])).map
        (fun r => r.1.2.samples) = .ok [30720] := by decide +kernel
    rw [hg] at hkept
    exact Except.ok.inj hkept
  have hfits : ∀ b ∈ g'.samples, SampleFits slowLink linkedQueue.tcp.burstSampleInterval b := by
    intro b hb
    rw [hsamples, List.mem_singleton] at hb
    rw [hb]
    exact sample_hundred.1
  have hlink := (hmax hfits).link
  have hmaximum : highest slowLink.histRw ([30720].map (burstSample slowLink 30)) = 100 := by
    rw [List.map_singleton, sample_hundred.2]
    rfl
  rw [hsamples, ← hh.tcp] at hlink
  exact ⟨e', o, rfl, hlink.trans (congrArg _ hmaximum)⟩

end Handoff
