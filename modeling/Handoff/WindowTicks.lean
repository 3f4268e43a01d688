import Handoff.Lib.Machine
import Handoff.WorkerRun
import Mathlib.Tactic.Linarith

/- What one tick of the sampler makes of the window.

   The window is 16 bits wide, and what a tick computes for it is not: a burst estimate passes
   through `int` and a shift, a passive tick multiplies by `1 + pace` or `1 - pace / 4` and drops
   the fraction. A tick that decides to raise the window raises it iff the result fits and the
   fraction dropped is not all that was gained (`raise_iff`). A window that reaches zero
   stays there (`closed_stays`); ticks reach it from 1, by lowering it, and by a raise
   that wraps around to zero, and in no other way (`passive_open_iff`). -/
namespace Handoff

open Machine

/-! Truncation. -/

/-- The number is in the range of `int` when its fraction is dropped. -/
def FitsInt (x : ℚ) : Prop := intMin ≤ trunc x ∧ trunc x ≤ intMax

/-- The number is in the range of `uint16_t` when its fraction is dropped. -/
def FitsU16 (x : ℚ) : Prop := 0 ≤ trunc x ∧ trunc x ≤ 65535

section Truncation
variable {x : ℚ}

theorem trunc_nonneg (h : 0 ≤ x) : trunc x = ⌊x⌋ := if_pos h

theorem fitsInt_iff (h : 0 ≤ x) : FitsInt x ↔ x < 2^31 := by
  have h0 : 0 ≤ ⌊x⌋ := Int.floor_nonneg.mpr h
  have hlt : ⌊x⌋ < 2^31 ↔ x < 2^31 := by
    rw [Int.floor_lt]
    norm_cast
  rw [FitsInt, trunc_nonneg h, intMin, intMax, ← hlt]
  omega

theorem fitsU16_iff (h : 0 ≤ x) : FitsU16 x ↔ x < 65536 := by
  have h0 : 0 ≤ ⌊x⌋ := Int.floor_nonneg.mpr h
  have hlt : ⌊x⌋ < 65536 ↔ x < 65536 := by
    rw [Int.floor_lt]
    norm_cast
  rw [FitsU16, trunc_nonneg h, ← hlt]
  omega

theorem cvtInt_fits (h : FitsInt x) : cvtInt x = trunc x := if_pos h

theorem toNat_cvtU16 (h0 : 0 ≤ x) (h : x < 2^31) : (cvtU16 x).toNat = ⌊x⌋.toNat % 65536 := by
  have hf : 0 ≤ ⌊x⌋ := Int.floor_nonneg.mpr h0
  rw [cvtU16, cvtInt_fits ((fitsInt_iff h0).mpr h), trunc_nonneg h0, UInt16.ofInt, UInt16.toNat_ofNat']
  omega

end Truncation

/-! A passive tick. -/

/-- The share of the window `t` that `d` bytes make up. -/
def utilisation (t : UInt16) (d : UInt64) : ℚ := (d >>> rwscale).toNat / t.toNat

/-- The window a passive tick leaves. -/
def passiveWindow (tctx : TcpCtx) (t : UInt16) (d : UInt64) : UInt16 :=
  if tctx.threshold < utilisation t d then cvtU16 (t.toNat * (1 + tctx.pace))
  else if utilisation t d < 7 / 10 then cvtU16 (t.toNat * (1 - tctx.pace / 4))
  else t

section Passive
variable {tctx : TcpCtx} {ctx : WorkerCtx}

theorem passive_tick (hb : ctx.doBurst = 0) (ha : ctx.doAdapt ≠ 0) (ht : 0 < ctx.tuneRwnd) :
    tcpSchedule tctx ctx =
      .ok { ctx with tuneRwnd := passiveWindow tctx ctx.tuneRwnd ctx.dataRcvd, dataRcvd := 0 } := by
  rw [tcpSchedule, if_neg (not_not.mpr hb), if_pos ⟨ha, ht⟩]
  rfl

theorem still_tick (hb : ctx.doBurst = 0) (h : ctx.doAdapt = 0 ∨ ctx.tuneRwnd = 0) :
    tcpSchedule tctx ctx = .ok { ctx with dataRcvd := 0 } := by
  have hstill : ¬ (ctx.doAdapt ≠ 0 ∧ 0 < ctx.tuneRwnd) := by
    obtain ha | ht := h
    · exact fun hc => hc.1 ha
    · rw [ht]
      exact fun hc => absurd hc.2 (by decide)
  rw [tcpSchedule, if_neg (not_not.mpr hb), if_neg hstill]

end Passive

section Window
variable {t : UInt16} {pace : ℚ}

theorem window_pos (h : 0 < t) : (1 : ℚ) ≤ t.toNat := by
  have hn : 1 ≤ t.toNat := UInt16.lt_iff_toNat_lt.mp h
  exact_mod_cast hn

theorem window_le (t : UInt16) : (t.toNat : ℚ) ≤ 65535 := by
  have hn : t.toNat ≤ 65535 := Nat.le_of_lt_succ (UInt16.toNat_lt t)
  exact_mod_cast hn

theorem grown_bounds (h : 0 < t) (h0 : 0 < pace) (h1 : pace ≤ 1) :
    (t.toNat : ℚ) ≤ t.toNat * (1 + pace) ∧ (t.toNat : ℚ) * (1 + pace) ≤ 131070 := by
  have hpos := window_pos h
  have hle := window_le t
  refine ⟨?_, ?_⟩
  · calc (t.toNat : ℚ) = t.toNat * 1 := (mul_one _).symm
      _ ≤ t.toNat * (1 + pace) := by gcongr; linarith
  · calc (t.toNat : ℚ) * (1 + pace) ≤ 65535 * 2 := by gcongr; linarith
      _ = 131070 := by norm_num

theorem toNat_grown (h : 0 < t) (h0 : 0 < pace) (h1 : pace ≤ 1) :
    (cvtU16 (t.toNat * (1 + pace))).toNat = ⌊(t.toNat : ℚ) * (1 + pace)⌋.toNat % 65536 := by
  obtain ⟨hlo, hhi⟩ := grown_bounds h h0 h1
  have hpos := window_pos h
  exact toNat_cvtU16 (by linarith) (by linarith)

theorem grown_closed_iff (h : 0 < t) (h0 : 0 < pace) (h1 : pace ≤ 1) :
    cvtU16 (t.toNat * (1 + pace)) = 0 ↔
      65536 ≤ (t.toNat : ℚ) * (1 + pace) ∧ (t.toNat : ℚ) * (1 + pace) < 65537 := by
  obtain ⟨hlo, hhi⟩ := grown_bounds h h0 h1
  have hpos := window_pos h
  rw [← UInt16.toNat_inj, toNat_grown h h0 h1]
  generalize (t.toNat : ℚ) * (1 + pace) = x at hlo hhi
  have hone : 1 ≤ ⌊x⌋ := Int.le_floor.mpr (by push_cast; linarith)
  have hmax : ⌊x⌋ ≤ 131070 := Int.floor_le_iff.mpr (by push_cast; linarith)
  have hwrap : ⌊x⌋ = 65536 ↔ 65536 ≤ x ∧ x < 65537 := by
    rw [Int.floor_eq_iff]
    norm_num
  rw [← hwrap]
  simp only [UInt16.toNat_zero]
  omega

theorem shrunk_closed_iff (h : 0 < t) (h0 : 0 < pace) (h1 : pace ≤ 1) :
    cvtU16 (t.toNat * (1 - pace / 4)) = 0 ↔ t = 1 := by
  have hle := window_le t
  have hpos := window_pos h
  have hlo : 0 ≤ (t.toNat : ℚ) * (1 - pace / 4) := mul_nonneg (by linarith) (by linarith)
  have hhi : (t.toNat : ℚ) * (1 - pace / 4) ≤ 65535 := by
    calc (t.toNat : ℚ) * (1 - pace / 4) ≤ t.toNat * 1 := by gcongr; linarith
      _ ≤ 65535 := by linarith
  have hmax : ⌊(t.toNat : ℚ) * (1 - pace / 4)⌋ ≤ 65535 := Int.floor_le_iff.mpr (by push_cast; linarith)
  rw [← UInt16.toNat_inj, toNat_cvtU16 hlo (by linarith)]
  simp only [UInt16.toNat_zero]
  refine ⟨?_, ?_⟩
  · intro hz
    have hfloor : ⌊(t.toNat : ℚ) * (1 - pace / 4)⌋ < 1 := by omega
    rw [Int.floor_lt] at hfloor
    -- from 2 on three quarters of the window are more than 1
    by_contra hne
    have htwo : 2 ≤ t.toNat := by
      have hn : 1 ≤ t.toNat := UInt16.lt_iff_toNat_lt.mp h
      have hne' : t.toNat ≠ 1 := fun h1 => hne (UInt16.toNat_inj.mp h1)
      omega
    have htwo' : (2 : ℚ) ≤ t.toNat := by exact_mod_cast htwo
    have hbig : (2 : ℚ) * (3 / 4) ≤ t.toNat * (1 - pace / 4) := by gcongr; linarith
    push_cast at hfloor
    linarith
  · intro ht
    have hfloor : ⌊(t.toNat : ℚ) * (1 - pace / 4)⌋ < 1 := by
      rw [Int.floor_lt, ht, UInt16.toNat_one]
      push_cast
      linarith
    omega

end Window

/-! Runs of passive ticks. -/

/-- What closes the window `t` at a tick with `d` bytes: a lowering from 1, or a raise that wraps around to
    zero. -/
def Closes (tctx : TcpCtx) (t : UInt16) (d : UInt64) : Prop :=
  if tctx.threshold < utilisation t d then
    65536 ≤ (t.toNat : ℚ) * (1 + tctx.pace) ∧ (t.toNat : ℚ) * (1 + tctx.pace) < 65537
  else utilisation t d < 7 / 10 ∧ t = 1

instance (tctx : TcpCtx) (t : UInt16) (d : UInt64) : Decidable (Closes tctx t d) := by
  unfold Closes
  infer_instance

/-- A tick with `d` bytes received since the last one. -/
def passiveStep (tctx : TcpCtx) (ctx : WorkerCtx) (d : UInt64) : C (WorkerCtx × List Verdict) := do
  let ctx ← tcpSchedule tctx { ctx with dataRcvd := d }
  return (ctx, [])

/-- Passive adaptation alone is on. -/
structure Passive (ctx : WorkerCtx) : Prop where
  burst : ctx.doBurst = 0
  adapt : ctx.doAdapt ≠ 0

section Runs
variable {tctx : TcpCtx} {ctx ctx' : WorkerCtx} {d : UInt64} {o : List Verdict}

theorem passiveWindow_closed_iff {t : UInt16} (ht : 0 < t) (h0 : 0 < tctx.pace) (h1 : tctx.pace ≤ 1) :
    passiveWindow tctx t d = 0 ↔ Closes tctx t d := by
  unfold passiveWindow Closes
  split
  · exact grown_closed_iff ht h0 h1
  · split
    · next hlow => simp only [shrunk_closed_iff ht h0 h1, hlow, true_and]
    · next hlow =>
      simp only [hlow, false_and, iff_false]
      intro hz
      rw [hz] at ht
      exact absurd ht (by decide)

theorem passiveStep_ok (hp : Passive ctx) (hs : passiveStep tctx ctx d = .ok (ctx', o)) :
    Passive ctx' ∧
      ctx'.tuneRwnd = if 0 < ctx.tuneRwnd then passiveWindow tctx ctx.tuneRwnd d else ctx.tuneRwnd := by
  simp only [passiveStep, C.bind_ok, C.pure_eq_ok, Except.ok.injEq, Prod.mk.injEq] at hs
  obtain ⟨w, hw, rfl, -⟩ := hs
  by_cases ht : 0 < ctx.tuneRwnd
  · rw [@passive_tick tctx { ctx with dataRcvd := d } hp.burst hp.adapt ht] at hw
    cases hw
    exact ⟨⟨hp.burst, hp.adapt⟩, (if_pos ht).symm⟩
  · have hz : ctx.tuneRwnd = 0 := by
      rw [UInt16.lt_iff_toNat_lt] at ht
      exact UInt16.toNat_inj.mp (by simpa using ht)
    rw [@still_tick tctx { ctx with dataRcvd := d } hp.burst (.inr hz)] at hw
    cases hw
    exact ⟨⟨hp.burst, hp.adapt⟩, (if_neg ht).symm⟩

/-- **A closed window stays closed** under passive ticks. -/
theorem closed_stays (hp : Passive ctx) (hz : ctx.tuneRwnd = 0) (ds : List UInt64) :
    EveryState (passiveStep tctx) ctx ds (fun _ c _ => c.tuneRwnd = 0) := by
  have hall : EveryState (passiveStep tctx) ctx ds (fun _ c _ => Passive c ∧ c.tuneRwnd = 0) := by
    refine everyState_of_step (P := fun _ _ _ => True) ⟨hp, hz⟩ ?_ fun _ _ _ _ _ _ _ _ _ => trivial
    intro pre s o d s' o' h _ hs
    obtain ⟨hp, hz⟩ := h
    obtain ⟨hp', ht⟩ := passiveStep_ok hp hs
    refine ⟨hp', ?_⟩
    rw [ht, hz]
    exact if_neg (by decide)
  exact fun pre s o hpre hr => (hall pre s o hpre hr).2

/-- **The window stays open iff no tick closes it**, in every run of passive ticks from a window above zero. -/
theorem passive_open_iff (h0 : 0 < tctx.pace) (h1 : tctx.pace ≤ 1) (hp : Passive ctx) (ht : 0 < ctx.tuneRwnd)
    (ds : List UInt64) :
    EveryState (passiveStep tctx) ctx ds (fun _ c _ => 0 < c.tuneRwnd) ↔
      EveryStep (passiveStep tctx) ctx ds (fun _ c d => ¬ Closes tctx c.tuneRwnd d) := by
  have hopen : ∀ {t : UInt16}, 0 < t ↔ t ≠ 0 := UInt16.pos_iff_ne_zero
  refine everyState_iff_everyStep (F := fun _ _ => True) (I := fun _ c _ => Passive c ∧ 0 < c.tuneRwnd) ⟨hp, ht⟩ ?_ ?_
    (fun _ _ _ h => h.2) (fun _ _ _ => trivial)
  · intro pre c o d c' o' h _ hno hs
    obtain ⟨hp, ht⟩ := h
    obtain ⟨hp', hw⟩ := passiveStep_ok hp hs
    rw [if_pos ht] at hw
    refine ⟨hp', ?_⟩
    rw [hopen, hw, ne_eq, passiveWindow_closed_iff ht h0 h1]
    exact hno
  · intro pre c o d c' o' h _ hcl hs
    obtain ⟨hp, ht⟩ := h
    obtain ⟨-, hw⟩ := passiveStep_ok hp hs
    rw [if_pos ht] at hw
    rw [hopen, not_not, hw, passiveWindow_closed_iff ht h0 h1]
    exact not_not.mp hcl

end Runs

/-- A sampler with the threshold and the pace of the README's example. -/
def adaptTcp : TcpCtx := { zeroTcp with threshold := 9 / 10, pace := 1 / 50 }

/-- Passive adaptation with the window `t`, when `d` bytes have come in. -/
def adapting (t : UInt16) (d : UInt64) : WorkerCtx :=
  { zeroWorker with doAdapt := 1, tuneRwnd := t, dataRcvd := d }

theorem adapting_passive (t : UInt16) (d : UInt64) : Passive (adapting t d) := ⟨rfl, Int.one_ne_zero⟩

/-- A full window of 100 grows to 102, a tick with 20 units lowers it to 101, and one with 80 leaves it. -/
theorem passive_open_iff_full :
    EveryState (passiveStep adaptTcp) (adapting 100 0) [102400, 20480, 81920] (fun _ c _ => 0 < c.tuneRwnd) ∧
      (run (passiveStep adaptTcp) (adapting 100 0) [102400, 20480, 81920]).toOption.map (·.1.tuneRwnd) = some 101 := by
  have h0 : 0 < adaptTcp.pace := by norm_num [adaptTcp]
  have h1 : adaptTcp.pace ≤ 1 := by norm_num [adaptTcp]
  exact ⟨(passive_open_iff h0 h1 (adapting_passive 100 0) (by decide) _).mpr (by decide +kernel), by decide +kernel⟩

/-- One idle tick closes a window of 1. -/
theorem idle_tick_closes :
    ¬ ∀ (tctx : TcpCtx) (ctx : WorkerCtx) (ds : List UInt64), 0 < tctx.pace → tctx.pace ≤ 1 → Passive ctx →
      0 < ctx.tuneRwnd → EveryState (passiveStep tctx) ctx ds (fun _ c _ => 0 < c.tuneRwnd) := by
  intro h
  have h0 : 0 < adaptTcp.pace := by norm_num [adaptTcp]
  have h1 : adaptTcp.pace ≤ 1 := by norm_num [adaptTcp]
  have hidle : utilisation 1 0 = 0 := by
    rw [utilisation, show ((0 : UInt64) >>> rwscale).toNat = 0 from rfl, Nat.cast_zero, zero_div]
  have hcl : Closes adaptTcp 1 0 := by
    rw [Closes, hidle, if_neg (by norm_num [adaptTcp])]
    exact ⟨by norm_num, rfl⟩
  have htick : tcpSchedule adaptTcp (adapting 1 0) = .ok (adapting (passiveWindow adaptTcp 1 0) 0) :=
    passive_tick rfl (by decide) (by decide)
  have hstep : passiveStep adaptTcp (adapting 1 0) 0 = .ok (adapting (passiveWindow adaptTcp 1 0) 0, []) := by
    show (do let ctx ← tcpSchedule adaptTcp (adapting 1 0); return (ctx, [])) = _
    rw [htick]
    rfl
  have hpos := h adaptTcp (adapting 1 0) [0] h0 h1 (adapting_passive 1 0) (by decide) [0] _ _ (List.prefix_refl _)
    (run_cons_ok.mpr ⟨_, _, _, hstep, rfl, rfl⟩)
  rw [adapting, (passiveWindow_closed_iff (by decide) h0 h1).mpr hcl] at hpos
  exact absurd hpos (by decide)

/-! A tick that decides to raise the window. -/

/-- `rw_est` of a burst tick. -/
def burstRwEst (d : UInt64) (rtt sampleInterval : Int) : UInt64 :=
  UInt64.ofInt (burstEstimate d rtt sampleInterval) >>> rwscale

/-- The bytes a burst tick expects in one RTT, when `d` came in during one period. -/
def expectedBytes (d : UInt64) (rtt sampleInterval : Int) : ℚ := d.toNat * ((rtt : ℚ) / sampleInterval)

/-- A burst estimate above the window, or in passive adaptation a utilisation above the threshold. -/
def DecidesToRaise (tctx : TcpCtx) (p : LinkParameter) (ctx : WorkerCtx) : Prop :=
  if ctx.doBurst ≠ 0 then ctx.tuneRwnd.toNat < (burstRwEst ctx.dataRcvd p.rtt tctx.sampleInterval).toNat
  else ctx.doAdapt ≠ 0 ∧ tctx.threshold < utilisation ctx.tuneRwnd ctx.dataRcvd

/-- The conversions to `int` and `uint16_t` that such a tick makes are in range. -/
def ConversionsFit (tctx : TcpCtx) (p : LinkParameter) (ctx : WorkerCtx) : Prop :=
  if ctx.doBurst ≠ 0 then
    FitsInt (expectedBytes ctx.dataRcvd p.rtt tctx.sampleInterval) ∧
      (burstRwEst ctx.dataRcvd p.rtt tctx.sampleInterval).toNat ≤ 65535
  else FitsU16 (ctx.tuneRwnd.toNat * (1 + tctx.pace))

/-- The window is raised, unless it was the largest one. -/
def Raised (ctx ctx' : WorkerCtx) : Prop := ctx.tuneRwnd = 65535 ∨ ctx.tuneRwnd < ctx'.tuneRwnd

/-- There is room for the raise: a burst expects less than 2^26 bytes, a passive raise stays below 2^16 and gains
    at least 1. -/
def RaiseFits (tctx : TcpCtx) (p : LinkParameter) (ctx : WorkerCtx) : Prop :=
  if ctx.doBurst ≠ 0 then expectedBytes ctx.dataRcvd p.rtt tctx.sampleInterval < 2^26
  else (ctx.tuneRwnd.toNat : ℚ) * (1 + tctx.pace) < 65536 ∧
    (ctx.tuneRwnd = 65535 ∨ 1 ≤ (ctx.tuneRwnd.toNat : ℚ) * tctx.pace)

section Estimate
variable {d : UInt64} {rtt si : Int}

theorem expectedBytes_nonneg (hrtt : 0 ≤ rtt) (hsi : 0 < si) : 0 ≤ expectedBytes d rtt si := by
  have hr : (0 : ℚ) ≤ rtt := by exact_mod_cast hrtt
  have hs : (0 : ℚ) < si := by exact_mod_cast hsi
  exact mul_nonneg (Nat.cast_nonneg _) (div_nonneg hr hs.le)

theorem toNat_burstRwEst (hrtt : 0 ≤ rtt) (hsi : 0 < si) (h : FitsInt (expectedBytes d rtt si)) :
    (burstRwEst d rtt si).toNat = ⌊expectedBytes d rtt si⌋.toNat / 1024 := by
  have h0 := @expectedBytes_nonneg d rtt si hrtt hsi
  have hf : 0 ≤ ⌊expectedBytes d rtt si⌋ := Int.floor_nonneg.mpr h0
  have hest : burstEstimate d rtt si = ⌊expectedBytes d rtt si⌋ := by
    rw [burstEstimate, if_neg (by omega)]
    exact (cvtInt_fits h).trans (trunc_nonneg h0)
  have hmax : ⌊expectedBytes d rtt si⌋ ≤ intMax := by
    have hle := h.2
    rwa [trunc_nonneg h0] at hle
  rw [intMax] at hmax
  rw [burstRwEst, hest, UInt64.toNat_shiftRight]
  generalize ⌊expectedBytes d rtt si⌋ = z at hf hmax
  have hz : (UInt64.ofInt z).toNat = z.toNat := by
    simp only [UInt64.ofInt, UInt64.toNat_ofNat']
    omega
  rw [hz, show (rwscale.toNat % 64) = 10 from rfl, Nat.shiftRight_eq_div_pow]

end Estimate

section Raise
variable {tctx : TcpCtx} {p : LinkParameter} {ctx : WorkerCtx}

theorem burst_tick (hp : readAt tctx.histParam tctx.mark = .ok p) (hb : ctx.doBurst ≠ 0) :
    tcpSchedule tctx ctx = .ok { ctx with
      tuneRwnd :=
        if ctx.tuneRwnd.toNat < (burstRwEst ctx.dataRcvd p.rtt tctx.sampleInterval).toNat then
          (burstRwEst ctx.dataRcvd p.rtt tctx.sampleInterval).toUInt16
        else ctx.tuneRwnd
      dataRcvd := 0 } := by
  rw [tcpSchedule, if_pos hb, hp]
  rfl

theorem burst_raise (hrtt : 0 ≤ p.rtt) (hsi : 0 < tctx.sampleInterval) (hb : ctx.doBurst ≠ 0)
    (hd : DecidesToRaise tctx p ctx) {ctx' : WorkerCtx}
    (hw : ctx'.tuneRwnd = (burstRwEst ctx.dataRcvd p.rtt tctx.sampleInterval).toUInt16) :
    Raised ctx ctx' ∧ ConversionsFit tctx p ctx ↔ RaiseFits tctx p ctx := by
  simp only [DecidesToRaise, if_pos hb] at hd
  simp only [ConversionsFit, RaiseFits, if_pos hb]
  have h0 := @expectedBytes_nonneg ctx.dataRcvd p.rtt tctx.sampleInterval hrtt hsi
  have hest := @toNat_burstRwEst ctx.dataRcvd p.rtt tctx.sampleInterval hrtt hsi
  generalize expectedBytes ctx.dataRcvd p.rtt tctx.sampleInterval = x at h0 hest ⊢
  generalize burstRwEst ctx.dataRcvd p.rtt tctx.sampleInterval = est at hd hest hw ⊢
  have hlt : ⌊x⌋ < 2^26 ↔ x < 2^26 := by
    rw [Int.floor_lt]
    norm_cast
  have hf : 0 ≤ ⌊x⌋ := Int.floor_nonneg.mpr h0
  refine ⟨?_, ?_⟩
  · intro h
    obtain ⟨-, hfits, hle⟩ := h
    rw [← hlt]
    rw [hest hfits] at hle
    omega
  · intro hx
    have hfits : FitsInt x := (fitsInt_iff h0).mpr (by linarith)
    have hle : est.toNat ≤ 65535 := by
      rw [hest hfits]
      rw [← hlt] at hx
      omega
    refine ⟨.inr ?_, hfits, hle⟩
    rw [hw, UInt16.lt_iff_toNat_lt, UInt64.toNat_toUInt16, Nat.mod_eq_of_lt (by omega)]
    exact hd

theorem passive_raise (h0 : 0 < tctx.pace) (h1 : tctx.pace ≤ 1) (ht : 0 < ctx.tuneRwnd) (hb : ctx.doBurst = 0)
    {ctx' : WorkerCtx} (hw : ctx'.tuneRwnd = cvtU16 (ctx.tuneRwnd.toNat * (1 + tctx.pace))) :
    Raised ctx ctx' ∧ ConversionsFit tctx p ctx ↔ RaiseFits tctx p ctx := by
  simp only [ConversionsFit, RaiseFits, hb, ne_eq, not_true_eq_false, if_false]
  obtain ⟨hlo, hhi⟩ := grown_bounds ht h0 h1
  have hpos := window_pos ht
  rw [fitsU16_iff (by linarith), and_comm]
  refine and_congr_right fun hroom => or_congr_right ?_
  -- the fraction dropped is not all that was gained
  have hgain : (ctx.tuneRwnd.toNat : Int) + 1 ≤ ⌊(ctx.tuneRwnd.toNat : ℚ) * (1 + tctx.pace)⌋ ↔
      1 ≤ (ctx.tuneRwnd.toNat : ℚ) * tctx.pace := by
    rw [Int.le_floor]
    push_cast
    constructor <;> intro h <;> linarith
  have hmax : ⌊(ctx.tuneRwnd.toNat : ℚ) * (1 + tctx.pace)⌋ < 65536 := Int.floor_lt.mpr (by push_cast; linarith)
  rw [← hgain, hw, UInt16.lt_iff_toNat_lt, toNat_grown ht h0 h1]
  omega

/-- **A tick that decides to raise the window raises it, with every conversion in range, iff there is room for the
    raise.** -/
theorem raise_iff (hp : readAt tctx.histParam tctx.mark = .ok p) (hrtt : 0 < p.rtt) (hsi : 0 < tctx.sampleInterval)
    (h0 : 0 < tctx.pace) (h1 : tctx.pace ≤ 1) (ht : 0 < ctx.tuneRwnd) (hd : DecidesToRaise tctx p ctx) :
    ∃ ctx', tcpSchedule tctx ctx = .ok ctx' ∧
      (Raised ctx ctx' ∧ ConversionsFit tctx p ctx ↔ RaiseFits tctx p ctx) := by
  by_cases hb : ctx.doBurst ≠ 0
  · refine ⟨_, burst_tick hp hb, burst_raise hrtt.le hsi hb hd ?_⟩
    rw [DecidesToRaise, if_pos hb] at hd
    exact if_pos hd
  · have hd' := hd
    rw [DecidesToRaise, if_neg hb] at hd'
    refine ⟨_, passive_tick (not_not.mp hb) hd'.1 ht, passive_raise h0 h1 ht (not_not.mp hb) ?_⟩
    exact if_pos hd'.2

end Raise

/-- The link parameters of the runs below. -/
def fastLink : LinkParameter := ⟨1, 0, 100⟩

/-- A sampler with period 10 on link 1. -/
def linkedTcp : TcpCtx := { adaptTcp with mark := 1, sampleInterval := 10, histParam := #v[⟨0, 0, 0⟩, fastLink, ⟨2, 0, 0⟩] }

theorem full_window (t : UInt16) (d : UInt64) (h : (d >>> rwscale).toNat = t.toNat) (ht : 0 < t) : utilisation t d = 1 := by
  have hpos := window_pos ht
  rw [utilisation, h, div_self (by linarith)]

theorem raise_iff_hundred :
    ∃ ctx', tcpSchedule linkedTcp (adapting 100 102400) = .ok ctx' ∧
      (100 : UInt16) < ctx'.tuneRwnd := by
  have hfull := full_window 100 102400 rfl (by decide)
  have hd : DecidesToRaise linkedTcp fastLink (adapting 100 102400) := by
    refine ⟨by decide, ?_⟩
    show linkedTcp.threshold < utilisation 100 102400
    rw [hfull]
    norm_num [linkedTcp, adaptTcp]
  obtain ⟨ctx', hs, hiff⟩ := @raise_iff linkedTcp fastLink (adapting 100 102400) rfl (by decide)
    (by decide) (by norm_num [linkedTcp, adaptTcp]) (by norm_num [linkedTcp, adaptTcp]) (by decide) hd
  have hfits : RaiseFits linkedTcp fastLink (adapting 100 102400) := by
    show (((100 : UInt16).toNat : ℚ) * _ < 65536 ∧ _)
    rw [show (100 : UInt16).toNat = 100 from rfl]
    refine ⟨by norm_num [linkedTcp, adaptTcp], .inr ?_⟩
    show (1 : ℚ) ≤ ((100 : UInt16).toNat : ℚ) * _
    rw [show (100 : UInt16).toNat = 100 from rfl]
    norm_num [linkedTcp, adaptTcp]
  exact ⟨ctx', hs, (hiff.mpr hfits).1.resolve_left (by decide)⟩

/-- A full window of 10 is not raised by a pace of 2 %. -/
theorem small_window_stays :
    ¬ ∀ (tctx : TcpCtx) (p : LinkParameter) (ctx ctx' : WorkerCtx), readAt tctx.histParam tctx.mark = .ok p →
      0 < p.rtt → 0 < tctx.sampleInterval → 0 < tctx.pace → tctx.pace ≤ 1 → 0 < ctx.tuneRwnd →
      DecidesToRaise tctx p ctx → tcpSchedule tctx ctx = .ok ctx' →
      Raised ctx ctx' ∧ ConversionsFit tctx p ctx := by
  intro h
  have hfull := full_window 10 10240 rfl (by decide)
  have hd : DecidesToRaise linkedTcp fastLink (adapting 10 10240) := by
    refine ⟨by decide, ?_⟩
    show linkedTcp.threshold < utilisation 10 10240
    rw [hfull]
    norm_num [linkedTcp, adaptTcp]
  have hup : passiveWindow linkedTcp 10 10240 = 10 := by
    rw [passiveWindow, hfull, if_pos (by norm_num [linkedTcp, adaptTcp]), ← UInt16.toNat_inj,
      toNat_grown (by decide) (by norm_num [linkedTcp, adaptTcp]) (by norm_num [linkedTcp, adaptTcp]),
      show (10 : UInt16).toNat = 10 from rfl]
    have hfloor : ⌊((10 : Nat) : ℚ) * (1 + linkedTcp.pace)⌋ = 10 := by norm_num [linkedTcp, adaptTcp, Int.floor_eq_iff]
    rw [hfloor]
    rfl
  have hraised := (h linkedTcp fastLink (adapting 10 10240) _ rfl (by decide) (by decide)
    (by norm_num [linkedTcp, adaptTcp]) (by norm_num [linkedTcp, adaptTcp]) (by decide) hd
    (passive_tick rfl (by decide) (by decide))).1
  obtain hmax | hlt := hraised
  · exact absurd hmax (by decide)
  · have hlt' : (10 : UInt16) < passiveWindow linkedTcp 10 10240 := hlt
    rw [hup] at hlt'
    exact absurd hlt' (by decide)

end Handoff
