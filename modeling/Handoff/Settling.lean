import Handoff.Lib.Iterate
import Handoff.WindowTicks

/- Where passive adaptation takes the window.

   A connection receives what its window allows in a period, or what the link carries (`Fills`). Then each tick decides
   as it would for a link in full use (`passiveWindow_fills`): it grows a window that leaves the link's capacity more than
   `threshold` of it, and shrinks one that leaves it less than 0.7. If the two are far enough apart a window that grows
   does not jump over the range between, so the window moves into it from either side and rests there (`passive_settles`).
   Or it comes to rest below it, where growing by `pace` is less than one. -/
namespace Handoff

open Machine

/-! Conversions. -/

theorem cvtU16_floor {x : ℚ} (h0 : 0 ≤ x) (h : x < 65536) :
    ((cvtU16 x).toNat : ℚ) ≤ x ∧ x < (cvtU16 x).toNat + 1 := by
  have hf : 0 ≤ ⌊x⌋ := Int.floor_nonneg.mpr h0
  have hlt : ⌊x⌋ < 65536 := by
    rw [Int.floor_lt]
    exact_mod_cast h
  have hnat : (cvtU16 x).toNat = ⌊x⌋.toNat := by
    rw [toNat_cvtU16 h0 (by linarith)]
    omega
  have hcast : ((⌊x⌋.toNat : Nat) : ℚ) = ⌊x⌋ := by exact_mod_cast Int.toNat_of_nonneg hf
  rw [hnat, hcast]
  exact ⟨Int.floor_le x, Int.lt_floor_add_one x⟩

theorem window_le_of_lt {t u : UInt16} (h : (t.toNat : ℚ) < u.toNat + 1) : t.toNat ≤ u.toNat := by
  exact_mod_cast Nat.lt_succ_iff.mp (by exact_mod_cast h)

/-! One tick. -/

/-- The connection has filled its window `t` or the link, which carries `capacity` units of a window in a period. -/
def Fills (capacity : Nat) (t : UInt16) (d : UInt64) : Prop :=
  min capacity t.toNat ≤ (d >>> rwscale).toNat ∧ (d >>> rwscale).toNat ≤ capacity

/-- The window a tick leaves, if the whole capacity is compared with it. -/
def settleTick (tctx : TcpCtx) (capacity : Nat) (t : UInt16) : UInt16 :=
  if 0 < t then
    if tctx.threshold * t.toNat < capacity then cvtU16 (t.toNat * (1 + tctx.pace))
    else if (capacity : ℚ) < 7 / 10 * t.toNat then cvtU16 (t.toNat * (1 - tctx.pace / 4))
    else t
  else t

/-- The windows that a tick leaves as they are, by its own rule. -/
def InBand (tctx : TcpCtx) (capacity : Nat) (t : UInt16) : Prop :=
  7 / 10 * (t.toNat : ℚ) ≤ capacity ∧ (capacity : ℚ) ≤ tctx.threshold * t.toNat

/-- A window that is to grow, by less than one. -/
def Stuck (tctx : TcpCtx) (capacity : Nat) (t : UInt16) : Prop :=
  tctx.threshold * t.toNat < capacity ∧ tctx.pace * t.toNat < 1

/-- The settings of a sampler that lets the window settle: a window that has grown by `pace` past the threshold is not
    to shrink, and has not wrapped around. -/
structure Calm (tctx : TcpCtx) (capacity : Nat) : Prop where
  pace_pos : 0 < tctx.pace
  pace_le : tctx.pace ≤ 1
  threshold_lt : tctx.threshold < 1
  apart : 7 / 10 * (1 + tctx.pace) ≤ tctx.threshold
  fits : capacity * (1 + tctx.pace) < 65536 * tctx.threshold

section Tick
variable {tctx : TcpCtx} {capacity : Nat} {t : UInt16} {d : UInt64}

/-- **A full connection is adapted to as a full link is.** -/
theorem passiveWindow_fills (hc : Calm tctx capacity) (ht : 0 < t) (h : Fills capacity t d) :
    passiveWindow tctx t d = settleTick tctx capacity t := by
  have hpos : (0 : ℚ) < t.toNat := by linarith [window_pos ht]
  simp only [passiveWindow, settleTick, if_pos ht, utilisation, lt_div_iff₀ hpos, div_lt_iff₀ hpos]
  obtain hle | hlt := le_or_gt t.toNat capacity
  · -- the window is full: both grow it
    have hfull : (t.toNat : ℚ) ≤ (d >>> rwscale).toNat := by exact_mod_cast (min_eq_right hle) ▸ h.1
    have hroom : (t.toNat : ℚ) ≤ capacity := by exact_mod_cast hle
    have hbelow : tctx.threshold * t.toNat < t.toNat := mul_lt_of_lt_one_left hpos hc.threshold_lt
    rw [if_pos (by linarith), if_pos (by linarith)]
  · have hcap : (d >>> rwscale).toNat = capacity := Nat.le_antisymm h.2 ((min_eq_left hlt.le) ▸ h.1)
    rw [hcap]

/-- A window that grows stays below the range in which it shrinks. -/
theorem settleTick_below (hc : Calm tctx capacity) (ht : 0 < t) (hlow : tctx.threshold * t.toNat < capacity) :
    t.toNat ≤ (settleTick tctx capacity t).toNat ∧ 7 / 10 * ((settleTick tctx capacity t).toNat : ℚ) ≤ capacity ∧
      (settleTick tctx capacity t = t → tctx.pace * t.toNat < 1) := by
  have hpos := window_pos ht
  have hgrow : 0 < tctx.pace * t.toNat := mul_pos hc.pace_pos (by linarith)
  have hthresh : 0 < tctx.threshold := by linarith [hc.apart, hc.pace_pos]
  have hfits : (t.toNat : ℚ) * (1 + tctx.pace) < 65536 := by
    refine lt_of_mul_lt_mul_left ?_ hthresh.le
    calc tctx.threshold * (t.toNat * (1 + tctx.pace))
        = tctx.threshold * t.toNat * (1 + tctx.pace) := by ring
      _ ≤ capacity * (1 + tctx.pace) := mul_le_mul_of_nonneg_right hlow.le (by linarith [hc.pace_pos])
      _ < 65536 * tctx.threshold := hc.fits
      _ = tctx.threshold * 65536 := mul_comm _ _
  obtain ⟨hle, hlt⟩ := cvtU16_floor (x := t.toNat * (1 + tctx.pace)) (by nlinarith) hfits
  rw [settleTick, if_pos ht, if_pos hlow]
  refine ⟨window_le_of_lt (by linarith), ?_, ?_⟩
  · calc 7 / 10 * ((cvtU16 (t.toNat * (1 + tctx.pace))).toNat : ℚ)
        ≤ 7 / 10 * (t.toNat * (1 + tctx.pace)) := by linarith
      _ = 7 / 10 * (1 + tctx.pace) * t.toNat := by ring
      _ ≤ tctx.threshold * t.toNat := mul_le_mul_of_nonneg_right hc.apart (by linarith)
      _ ≤ capacity := hlow.le
  · intro hsame
    rw [hsame] at hlt
    linarith

theorem settleTick_above (hc : Calm tctx capacity) (ht : 0 < t) (hlow : ¬ tctx.threshold * t.toNat < capacity)
    (hhigh : (capacity : ℚ) < 7 / 10 * t.toNat) :
    (settleTick tctx capacity t).toNat < t.toNat ∧
      (t.toNat : ℚ) * (1 - tctx.pace / 4) < (settleTick tctx capacity t).toNat + 1 := by
  have hpos := window_pos ht
  have hmax := window_le t
  have hshrink : 0 < tctx.pace * t.toNat := mul_pos hc.pace_pos (by linarith)
  have h0 : 0 ≤ (t.toNat : ℚ) * (1 - tctx.pace / 4) := mul_nonneg (by linarith) (by linarith [hc.pace_le])
  obtain ⟨hle, hlt⟩ := cvtU16_floor h0 (by linarith)
  rw [settleTick, if_pos ht, if_neg hlow, if_pos hhigh]
  refine ⟨?_, hlt⟩
  have hless : ((cvtU16 (t.toNat * (1 - tctx.pace / 4))).toNat : ℚ) < t.toNat := by linarith
  exact_mod_cast hless

theorem settleTick_rest (hlow : ¬ tctx.threshold * t.toNat < capacity) (hhigh : ¬ (capacity : ℚ) < 7 / 10 * t.toNat) :
    settleTick tctx capacity t = t ∧ InBand tctx capacity t := by
  rw [settleTick, if_neg hlow, if_neg hhigh, ite_self]
  exact ⟨rfl, not_lt.mp hhigh, not_lt.mp hlow⟩

/-- A window on its way: it is closed only if the link carries nothing, and if `large`, growing by the pace is at least
    one. -/
structure OnTheWay (tctx : TcpCtx) (capacity : Nat) (large : Prop) (t : UInt16) : Prop where
  closed : t = 0 → capacity = 0
  grows : large → 1 ≤ tctx.pace * t.toNat

/-- How far the window has to go at most: down, and then up. -/
def height (capacity : Nat) (t : UInt16) : Nat :=
  if (capacity : ℚ) < 7 / 10 * t.toNat then 65536 + t.toNat else 65536 - t.toNat

theorem height_le (capacity : Nat) (t : UInt16) : height capacity t ≤ 131071 := by
  have hlt := UInt16.toNat_lt t
  unfold height
  split <;> omega

section Way
variable {large : Prop}

theorem settleTick_step (hc : Calm tctx capacity)
    (hlarge : large → 7 / 10 * (1 + tctx.pace) ≤ tctx.pace * (1 - tctx.pace / 4) * capacity)
    (h : OnTheWay tctx capacity large t) :
    settleTick tctx capacity t = t ∨
      OnTheWay tctx capacity large (settleTick tctx capacity t) ∧
        height capacity (settleTick tctx capacity t) < height capacity t := by
  by_cases ht : 0 < t
  · have hpos := window_pos ht
    have hmax := UInt16.toNat_lt t
    by_cases hlow : tctx.threshold * t.toNat < capacity
    · obtain ⟨hle, hbelow, -⟩ := settleTick_below hc ht hlow
      obtain heq | hlt := Nat.eq_or_lt_of_le hle
      · exact .inl (UInt16.toNat_inj.mp heq.symm)
      · refine .inr ⟨⟨fun hz => ?_, fun hl => ?_⟩, ?_⟩
        · rw [hz] at hlt
          exact absurd hlt (Nat.not_lt_zero _)
        · have hgrown : (t.toNat : ℚ) ≤ (settleTick tctx capacity t).toNat := by exact_mod_cast hle
          exact (h.grows hl).trans (mul_le_mul_of_nonneg_left hgrown hc.pace_pos.le)
        · have hnot : ¬ (capacity : ℚ) < 7 / 10 * t.toNat := by
            have hgrown : (t.toNat : ℚ) ≤ (settleTick tctx capacity t).toNat := by exact_mod_cast hle
            linarith
          rw [height, if_neg (not_lt.mpr hbelow), height, if_neg hnot]
          omega
    · by_cases hhigh : (capacity : ℚ) < 7 / 10 * t.toNat
      · obtain ⟨hlt, hfloor⟩ := settleTick_above hc ht hlow hhigh
        refine .inr ⟨⟨fun hz => ?_, fun hl => ?_⟩, ?_⟩
        · -- only a window of 1 shrinks to 0
          rw [hz, UInt16.toNat_zero, Nat.cast_zero, zero_add] at hfloor
          have hone : (t.toNat : ℚ) * (3 / 4) < 1 := by
            refine lt_of_le_of_lt (mul_le_mul_of_nonneg_left ?_ (by linarith)) hfloor
            linarith [hc.pace_le]
          have hcap : (capacity : ℚ) < 1 := by linarith
          exact Nat.lt_one_iff.mp (by exact_mod_cast hcap)
        · have hkeep : 0 < 1 - tctx.pace / 4 := by linarith [hc.pace_le]
          have hroom : tctx.pace * (1 - tctx.pace / 4) * capacity ≤ tctx.pace * (1 - tctx.pace / 4) * (7 / 10 * t.toNat) :=
            mul_le_mul_of_nonneg_left hhigh.le (mul_nonneg hc.pace_pos.le hkeep.le)
          have hnext := mul_lt_mul_of_pos_left hfloor hc.pace_pos
          linarith [hlarge hl]
        · rw [height, height, if_pos hhigh]
          split <;> omega
      · exact .inl (settleTick_rest hlow hhigh).1
  · exact .inl (if_neg ht)

theorem settleTick_rests (hc : Calm tctx capacity) (h : OnTheWay tctx capacity large t)
    (hrest : settleTick tctx capacity t = t) : InBand tctx capacity t ∨ Stuck tctx capacity t := by
  by_cases ht : 0 < t
  · by_cases hlow : tctx.threshold * t.toNat < capacity
    · exact .inr ⟨hlow, (settleTick_below hc ht hlow).2.2 hrest⟩
    · by_cases hhigh : (capacity : ℚ) < 7 / 10 * t.toNat
      · have hlt := (settleTick_above hc ht hlow hhigh).1
        rw [hrest] at hlt
        exact absurd hlt (Nat.lt_irrefl _)
      · exact .inl (settleTick_rest hlow hhigh).2
  · obtain rfl : t = 0 := by
      by_contra hne
      exact ht (UInt16.pos_iff_ne_zero.mpr hne)
    rw [InBand, h.closed rfl]
    simp

end Way

end Tick

/-! Runs. -/

/-- The first `n` ticks, at which `ds` are the bytes received. -/
def ticksOf (ds : Nat → UInt64) (n : Nat) : List UInt64 := (List.range n).map ds

section Runs
variable {tctx : TcpCtx} {capacity : Nat} {ctx : WorkerCtx} {ds : Nat → UInt64}

/-- The connection fills its window or the link in every period. -/
def AlwaysFills (tctx : TcpCtx) (capacity : Nat) (ctx : WorkerCtx) (ds : Nat → UInt64) : Prop :=
  ∀ n ctx' o, run (passiveStep tctx) ctx (ticksOf ds n) = .ok (ctx', o) → Fills capacity ctx'.tuneRwnd (ds n)

theorem passiveStep_defined (tctx : TcpCtx) (hp : Passive ctx) (d : UInt64) :
    ∃ ctx', passiveStep tctx ctx d = .ok (ctx', []) := by
  obtain ⟨ctx', hctx'⟩ : ∃ ctx', tcpSchedule tctx { ctx with dataRcvd := d } = .ok ctx' := by
    by_cases ht : 0 < ctx.tuneRwnd
    · exact ⟨_, @passive_tick tctx { ctx with dataRcvd := d } hp.burst hp.adapt ht⟩
    · have hz : ctx.tuneRwnd = 0 := by
        by_contra hne
        exact ht (UInt16.pos_iff_ne_zero.mpr hne)
      exact ⟨_, @still_tick tctx { ctx with dataRcvd := d } hp.burst (.inr hz)⟩
  refine ⟨ctx', ?_⟩
  rw [passiveStep, hctx']
  rfl

theorem passive_run (hc : Calm tctx capacity) (hp : Passive ctx) (hfills : AlwaysFills tctx capacity ctx ds) (n : Nat) :
    ∃ ctx', run (passiveStep tctx) ctx (ticksOf ds n) = .ok (ctx', []) ∧ Passive ctx' ∧
      ctx'.tuneRwnd = (settleTick tctx capacity)^[n] ctx.tuneRwnd := by
  induction n with
  | zero => exact ⟨ctx, rfl, hp, rfl⟩
  | succ n ih =>
    obtain ⟨ctx', hrun, hp', hw⟩ := ih
    obtain ⟨ctx'', hstep⟩ := passiveStep_defined tctx hp' (ds n)
    obtain ⟨hp'', hw'⟩ := passiveStep_ok hp' hstep
    refine ⟨ctx'', ?_, hp'', ?_⟩
    · rw [ticksOf, List.range_succ, List.map_append]
      exact run_snoc_ok.mpr ⟨ctx', [], [], hrun, hstep, rfl⟩
    · rw [Function.iterate_succ_apply', ← hw, hw']
      by_cases ht : 0 < ctx'.tuneRwnd
      · rw [if_pos ht]
        exact passiveWindow_fills hc ht (hfills n ctx' [] hrun)
      · rw [if_neg ht, settleTick, if_neg ht]

end Runs

/-- **Passive adaptation settles.** Let the pace be positive and at most 1 and the threshold below 1, at least 0.7 times
    one more than the pace and large enough that no window wraps (`Calm`), and the window open. A connection that fills
    its window or the link has one and the same window from some tick on, the 131071st at the latest: one of which the
    capacity is between 0.7 and `threshold`, or a smaller one that a tick would grow by less than one. It is of the first
    kind if growing by `pace` is at least one for the window it starts with, and the capacity is not too small either. -/
theorem passive_settles {tctx : TcpCtx} {capacity : Nat} (hc : Calm tctx capacity) {ctx : WorkerCtx} (hp : Passive ctx)
    (ht : 0 < ctx.tuneRwnd) {ds : Nat → UInt64} (hfills : AlwaysFills tctx capacity ctx ds) :
    ∃ w : UInt16, (∃ N ≤ 131071, ∀ n, N ≤ n →
        ∃ ctx', run (passiveStep tctx) ctx (ticksOf ds n) = .ok (ctx', []) ∧ ctx'.tuneRwnd = w) ∧
      (InBand tctx capacity w ∨ Stuck tctx capacity w) ∧
      (1 ≤ tctx.pace * ctx.tuneRwnd.toNat →
        7 / 10 * (1 + tctx.pace) ≤ tctx.pace * (1 - tctx.pace / 4) * capacity → InBand tctx capacity w) := by
  let large : Prop := 1 ≤ tctx.pace * ctx.tuneRwnd.toNat ∧
    7 / 10 * (1 + tctx.pace) ≤ tctx.pace * (1 - tctx.pace / 4) * capacity
  have hstart : OnTheWay tctx capacity large ctx.tuneRwnd :=
    ⟨fun hz => absurd (hz ▸ ht) (by decide), fun hl => hl.1⟩
  obtain ⟨w, hw, hrest, N, hN, hall⟩ := Iterate.comes_to_rest hstart
    fun t ht => settleTick_step hc (fun hl : large => hl.2) ht
  have hends := settleTick_rests hc hw hrest
  refine ⟨w, ⟨N, hN.trans (height_le _ _), fun n hn => ?_⟩, hends, fun hgrows hmatch => ?_⟩
  · obtain ⟨ctx', hrun, -, hw'⟩ := passive_run hc hp hfills n
    exact ⟨ctx', hrun, hw'.trans (hall n hn)⟩
  · exact hends.resolve_right fun hstuck => absurd hstuck.2 (not_lt.mpr (hw.grows ⟨hgrows, hmatch⟩))

/-- A link that carries 100 KiB a period, in full use from a window of 60 on. -/
theorem passive_settles_full :
    ∃ w : UInt16, (∃ N ≤ 131071, ∀ n, N ≤ n → ∃ ctx',
        run (passiveStep adaptTcp) (adapting 60 0) (ticksOf (fun _ => 102400) n) = .ok (ctx', []) ∧ ctx'.tuneRwnd = w) ∧
      InBand adaptTcp 100 w := by
  have hc : Calm adaptTcp 100 := ⟨by norm_num [adaptTcp], by norm_num [adaptTcp], by norm_num [adaptTcp],
    by norm_num [adaptTcp], by norm_num [adaptTcp]⟩
  have hunits : ((102400 : UInt64) >>> rwscale).toNat = 100 := rfl
  have hfills : AlwaysFills adaptTcp 100 (adapting 60 0) fun _ => 102400 := fun _ _ _ _ =>
    ⟨(min_le_left _ _).trans hunits.ge, hunits.le⟩
  obtain ⟨w, hrest, -, hband⟩ := passive_settles hc (adapting_passive 60 0) (by decide) hfills
  have hstart : (adapting 60 0).tuneRwnd.toNat = 60 := rfl
  exact ⟨w, hrest, hband (by rw [hstart]; norm_num [adaptTcp]) (by norm_num [adaptTcp])⟩

end Handoff
