import Handoff.Verdicts

/- The window clamp on the packets a worker accepts.

   A packet the window stage rewrites leaves with its window lowered to `tune_rwnd` and only
   the window and the checksum changed (`clamped_rewrite`); one it leaves alone has a window that
   is low enough (`finish_clamped`). The reorder stage accepts packets without looking at
   them, both the ones it lets pass and the ones it held (`reorderStep_lets`), so the clamp
   holds in a run exactly when none of those advertises more than `tune_rwnd`:
   `clamp_iff`. -/
namespace Handoff

open Machine

/-! Writing a field. -/

@[simp] theorem length_putU16 (bs : List UInt8) (i : Nat) (x : UInt16) : (putU16 bs i x).length = bs.length := by
  simp [putU16]

theorem putU16_other (bs : List UInt8) {i j : Nat} (x : UInt16) (h : j ≠ i) (h' : j ≠ i + 1) :
    (putU16 bs i x)[j]? = bs[j]? := by
  rw [putU16, List.getElem?_set_ne (Ne.symm h'), List.getElem?_set_ne (Ne.symm h)]

theorem byte_congr {bs bs' : List UInt8} {i : Nat} (h : bs[i]? = bs'[i]?) : Bytes.byte bs i = Bytes.byte bs' i := by
  simp only [Bytes.byte, List.getD_eq_getElem?_getD, h]

theorem ihl_congr {bs bs' : List UInt8} (h : bs[0]? = bs'[0]?) : Bytes.ihl bs = Bytes.ihl bs' := by
  rw [Bytes.ihl, Bytes.ihl, byte_congr h]

theorem u16_putU16 {bs : List UInt8} {i : Nat} (x : UInt16) (h : i + 1 < bs.length) :
    Bytes.u16 (putU16 bs i x) i = x := by
  have hx : x.toNat < 65536 := UInt16.toNat_lt x
  have h₀ : Bytes.byte (putU16 bs i x) i = UInt8.ofNat (x.toNat / 256) := by
    simp [Bytes.byte, putU16, show i < bs.length by omega]
  have h₁ : Bytes.byte (putU16 bs i x) (i + 1) = UInt8.ofNat (x.toNat % 256) := by
    simp [Bytes.byte, putU16, h]
  rw [Bytes.u16, h₀, h₁, ← UInt16.toNat_inj]
  simp only [UInt16.toNat_ofNat', UInt8.toNat_ofNat']
  omega

theorem u16_congr {bs bs' : List UInt8} {i : Nat} (h : bs[i]? = bs'[i]?) (h' : bs[i + 1]? = bs'[i + 1]?) :
    Bytes.u16 bs i = Bytes.u16 bs' i := by
  rw [Bytes.u16, Bytes.u16, byte_congr h, byte_congr h']

/-! What the clamp asks of a packet that leaves. -/

/-- `out` is `orig` with its window lowered to `tune`, unchanged but for the window and the checksum. -/
structure Clamped (tune : UInt16) (orig out : List UInt8) : Prop where
  window : (Bytes.window out).toNat = min (Bytes.window orig).toNat tune.toNat
  length : out.length = orig.length
  others : ∀ i, i ≠ Bytes.ihl orig + 14 → i ≠ Bytes.ihl orig + 15 → i ≠ Bytes.ihl orig + 16 →
    i ≠ Bytes.ihl orig + 17 → out[i]? = orig[i]?

theorem clamped_self {tune : UInt16} {bs : List UInt8} : Clamped tune bs bs ↔ Bytes.window bs ≤ tune := by
  rw [UInt16.le_iff_toNat_le]
  constructor
  · rintro ⟨h, -, -⟩
    omega
  · intro h
    exact ⟨by omega, rfl, fun _ _ _ _ _ => rfl⟩

theorem clamped_rewrite (csum : List UInt8 → UInt16) {tune : UInt16} {bs : List UInt8} (hr : Readable bs)
    (hw : tune < Bytes.window bs) : Clamped tune bs (rewriteWindow csum bs tune) := by
  obtain ⟨hihl, hlen⟩ := hr
  rw [UInt16.lt_iff_toNat_lt] at hw
  -- the checksum lies behind the window
  have hset : ∀ i, i ≠ Bytes.ihl bs + 14 → i ≠ Bytes.ihl bs + 15 →
      (putU16 bs (Bytes.ihl bs + 14) tune)[i]? = bs[i]? := fun i h h' => putU16_other bs tune h h'
  have hihl' : Bytes.ihl (putU16 bs (Bytes.ihl bs + 14) tune) = Bytes.ihl bs :=
    ihl_congr (hset 0 (by omega) (by omega))
  have hsum : ∀ i, i ≠ Bytes.ihl bs + 16 → i ≠ Bytes.ihl bs + 17 →
      (rewriteWindow csum bs tune)[i]? = (putU16 bs (Bytes.ihl bs + 14) tune)[i]? := by
    intro i h₁ h₂
    simp only [rewriteWindow, hihl']
    exact putU16_other _ _ h₁ h₂
  have hothers : ∀ i, i ≠ Bytes.ihl bs + 14 → i ≠ Bytes.ihl bs + 15 → i ≠ Bytes.ihl bs + 16 →
      i ≠ Bytes.ihl bs + 17 → (rewriteWindow csum bs tune)[i]? = bs[i]? := by
    intro i h₁ h₂ h₃ h₄
    rw [hsum i h₃ h₄, hset i h₁ h₂]
  refine ⟨?_, by simp [rewriteWindow], hothers⟩
  have hihl'' : Bytes.ihl (rewriteWindow csum bs tune) = Bytes.ihl bs :=
    ihl_congr (hothers 0 (by omega) (by omega) (by omega) (by omega))
  have hwin : Bytes.window (rewriteWindow csum bs tune) = tune := by
    rw [Bytes.window, hihl'', u16_congr (hsum _ (by omega) (by omega)) (hsum _ (by omega) (by omega))]
    exact u16_putU16 tune (by omega)
  rw [hwin]
  omega

/-! The packets of a run. -/

/-- The bytes of the last packet delivered under an id. -/
def original (ops : List WorkerOp) (id : UInt32) : Option (List UInt8) :=
  ((ops.filterMap WorkerOp.packet?).reverse.find? (fun nfa => nfa.packetId == id)).map (fun nfa => nfa.payload.getD [])

theorem original_of_delivered {ops : List WorkerOp} {id : UInt32} (h : id ∈ deliveredIds ops) :
    ∃ bs, original ops id = some bs := by
  obtain ⟨nfa, hmem, hid⟩ := List.mem_map.mp h
  unfold original
  rcases hf : (ops.filterMap WorkerOp.packet?).reverse.find? (fun nfa => nfa.packetId == id) with _ | m
  · have hne := List.find?_eq_none.mp hf nfa (List.mem_reverse.mpr hmem)
    simp [hid] at hne
  · rw [hf]
    exact ⟨_, rfl⟩

theorem original_self (pre : List WorkerOp) {nfa : NfqData} {bs : List UInt8} (hp : nfa.payload = some bs) :
    original (pre ++ [.callback nfa]) nfa.packetId = some bs := by
  simp [original, hp]

/-- A session lets the packet `i` go when the packet `id` arrives: the new packet at once, because it
    passes or because the session ends on it, and the held ones when the session ends. -/
def LetsGo (ctx : WorkerCtx) (id i : UInt32) : Prop :=
  (i = id ∧ (ctx.reorderCount ≤ 0 ∧ 0 < ctx.reorderOffset ∨ 0 < ctx.reorderCount ∧ ctx.reorderOffset ≤ 0)) ∨
  (i ∈ held ctx ∧ (ctx.reorderOffset ≤ 0 ∨ ctx.reorderCount ≤ 0 ∧ ctx.reorderOffset ≤ 1))

/-- **The reorder stage accepts untouched** the packets it lets go. -/
theorem reorderStep_lets {ctx ctx' : WorkerCtx} {id : UInt32} {vs : List Verdict} (h0 : ctx.doReorder ≠ 0)
    (h : reorderStep ctx id = .ok (ctx', vs)) :
    ∃ ids, vs = acceptAll ctx.mark ids ∧ ∀ i, i ∈ ids ↔ LetsGo ctx id i := by
  obtain ⟨ctx₁, vs₁, ha, hend⟩ := reorderStep_ok h0 h
  rcases reorderAdmit_ok ha with ⟨hc, hh, rfl, ids, hctx⟩ | ⟨hc, hh, hvs, hctx⟩
  · have ho : ctx₁.reorderOffset = ctx.reorderOffset := by rw [hctx]
    have hm : ctx₁.mark = ctx.mark := by rw [hctx]
    rcases hend with ⟨hoff, -, rfl⟩ | ⟨hoff, -, rfl⟩
    · refine ⟨(held ctx₁).reverse, by rw [hm]; rfl, fun i => ?_⟩
      rw [List.mem_reverse, hh, List.mem_append, List.mem_singleton, LetsGo]
      constructor
      · rintro (hi | rfl)
        · exact .inr ⟨hi, .inl (by omega)⟩
        · exact .inl ⟨rfl, .inr ⟨hc, by omega⟩⟩
      · rintro (⟨rfl, -⟩ | ⟨hi, -⟩)
        · exact .inr rfl
        · exact .inl hi
    · refine ⟨[], rfl, fun i => ?_⟩
      simp only [LetsGo, List.not_mem_nil, false_iff]
      rintro (⟨-, h⟩ | ⟨-, h⟩) <;> omega
  · have ho : ctx₁.reorderOffset = ctx.reorderOffset - 1 := by rw [hctx]
    have hm : ctx₁.mark = ctx.mark := by rw [hctx]
    have hpass : vs₁ = acceptAll ctx.mark (if 0 < ctx.reorderOffset then [id] else []) := by
      rw [hvs]
      split <;> rfl
    have hmem : ∀ i, i ∈ (if 0 < ctx.reorderOffset then [id] else []) ↔ i = id ∧ 0 < ctx.reorderOffset := by
      intro i
      split <;> simp_all
    rcases hend with ⟨hoff, -, rfl⟩ | ⟨hoff, -, rfl⟩
    · refine ⟨(if 0 < ctx.reorderOffset then [id] else []) ++ (held ctx).reverse, ?_, fun i => ?_⟩
      · rw [hpass, hm, hh]
        simp [acceptAll]
      · rw [List.mem_append, List.mem_reverse, hmem, LetsGo]
        constructor
        · rintro (⟨rfl, hpos⟩ | hi)
          · exact .inl ⟨rfl, .inl ⟨hc, hpos⟩⟩
          · exact .inr ⟨hi, .inr ⟨hc, by omega⟩⟩
        · rintro (⟨rfl, h | h⟩ | ⟨hi, -⟩)
          · exact .inl ⟨rfl, h.2⟩
          · omega
          · exact .inr hi
    · refine ⟨_, hpass, fun i => ?_⟩
      rw [hmem, LetsGo]
      constructor
      · rintro ⟨rfl, hpos⟩
        exact .inl ⟨rfl, .inl ⟨hc, hpos⟩⟩
      · rintro (⟨rfl, h | h⟩ | ⟨-, h⟩)
        · exact ⟨rfl, h.2⟩
        · omega
        · omega

section Runs
variable (csum : List UInt8 → UInt16)

theorem finish_clamped {ctx : WorkerCtx} {id i m : UInt32} {bs : List UInt8} {data : Option (List UInt8)}
    (hwf : WellFormed bs) (hon : ctx.doRwnd ≠ 0) (h : Verdict.accept i m data ∈ (finish csum ctx id bs).2) :
    i = id ∧ Clamped ctx.tuneRwnd bs (data.getD bs) := by
  unfold finish at h
  split at h
  · simp at h
  · simp only [List.mem_singleton, Verdict.accept.injEq] at h
    obtain ⟨rfl, -, rfl⟩ := h
    refine ⟨rfl, ?_⟩
    by_cases hw : ctx.tuneRwnd < Bytes.window bs
    · rw [rwndData, if_pos ⟨hwf.readable, hon, hw⟩]
      exact clamped_rewrite csum hwf.readable hw
    · rw [rwndData, if_neg (fun h => hw h.2.2)]
      exact clamped_self.mpr (UInt16.not_lt.mp hw)

/-- Every verdict of a step that accepts a packet while `do_rwnd` is on accepts it clamped. -/
def AcceptsClamped (ops : List WorkerOp) (ctx : WorkerCtx) (vs : List Verdict) : Prop :=
  ctx.doRwnd ≠ 0 → ∀ id mark data, Verdict.accept id mark data ∈ vs →
    ∃ orig, original ops id = some orig ∧ Clamped ctx.tuneRwnd orig (data.getD orig)

/-- Every packet a session lets go while `do_rwnd` is on advertises at most `tune_rwnd`. -/
def WithinClamp (pre : List WorkerOp) (ctx : WorkerCtx) : WorkerOp → Prop
  | .callback nfa => ctx.doRwnd ≠ 0 → ¬ Drops ctx → ctx.doReorder ≠ 0 → ∀ id, LetsGo ctx nfa.packetId id →
      ∀ orig, original (pre ++ [.callback nfa]) id = some orig → Bytes.window orig ≤ ctx.tuneRwnd
  | _ => True

instance (ctx : WorkerCtx) (id i : UInt32) : Decidable (LetsGo ctx id i) := inferInstanceAs (Decidable (_ ∨ _))

theorem letsGo_mem {ctx : WorkerCtx} {id i : UInt32} (h : LetsGo ctx id i) : i ∈ id :: held ctx := by
  obtain ⟨rfl, -⟩ | ⟨hi, -⟩ := h
  · exact List.mem_cons_self
  · exact List.mem_cons_of_mem _ hi

instance (pre : List WorkerOp) (ctx : WorkerCtx) : (op : WorkerOp) → Decidable (WithinClamp pre ctx op)
  | .callback nfa =>
    -- a test of the ids in the buffer, and not of all there are
    decidable_of_iff (ctx.doRwnd ≠ 0 → ¬ Drops ctx → ctx.doReorder ≠ 0 →
        (nfa.packetId :: held ctx).all (fun id => LetsGo ctx nfa.packetId id →
          ∀ orig ∈ original (pre ++ [WorkerOp.callback nfa]) id, Bytes.window orig ≤ ctx.tuneRwnd) = true)
      (by
        simp only [List.all_eq_true, decide_eq_true_eq]
        exact ⟨fun h hon hd hs id hgo => h hon hd hs id (letsGo_mem hgo) hgo, fun h hon hd hs id _ => h hon hd hs id⟩)
  | .setMark _ | .setRwnd _ | .setReorder _ _ _ | .setDedup _ | .setDrop _ _ | .solUpdate _ | .setBurst _ _
  | .setAdapt _ _ | .initTcpSched _ | .tcpSchedule _ => .isTrue trivial

/-- **One step.** Its verdicts are clamped iff what its session lets go is low enough. -/
theorem workerStep_clamp {pre : List WorkerOp} {ctx ctx' : WorkerCtx} {op : WorkerOp} {vs : List Verdict}
    (hwf : ∀ nfa bs, op = .callback nfa → nfa.payload = some bs → WellFormed bs)
    (hknown : ∀ id ∈ vs.map Verdict.id, id ∈ deliveredIds (pre ++ [op]))
    (h : workerStep csum ctx op = .ok (ctx', vs)) :
    AcceptsClamped (pre ++ [op]) ctx vs ↔ WithinClamp pre ctx op := by
  cases op with
  | callback nfa =>
    obtain ⟨⟨bs, hp⟩, hd⟩ := workerCallback_ok csum h
    simp only [workerStep, workerCallback_some csum hp hd] at h
    simp only [AcceptsClamped, WithinClamp]
    refine forall_congr' fun hon => ?_
    split at h
    · next hdr =>
      cases h
      simp [hdr]
    · next hdr =>
      split at h
      · next h0 =>
        -- the window stage has the last word
        obtain ⟨rfl, rfl⟩ : (finish csum (afterDrop ctx) nfa.packetId bs).1 = ctx' ∧
            (finish csum (afterDrop ctx) nfa.packetId bs).2 = vs := by
          simpa [Prod.ext_iff] using h
        simp only [h0, ne_eq, not_true_eq_false, false_imp_iff, imp_true_iff, iff_true]
        intro id mark data hv
        obtain ⟨rfl, hcl⟩ := finish_clamped csum (hwf nfa bs rfl hp) (by simpa using hon) hv
        rw [afterDrop_tuneRwnd] at hcl
        exact ⟨bs, original_self pre hp, hcl⟩
      · next h0 =>
        obtain ⟨ids, rfl, hids⟩ := reorderStep_lets (by simpa using h0) h
        have hlets : ∀ i, i ∈ ids ↔ LetsGo ctx nfa.packetId i := by
          intro i
          rw [hids i, LetsGo, LetsGo, afterDrop_reorderCount, afterDrop_reorderOffset]
          simp [held]
        simp only [hdr, h0, ne_eq, not_false_eq_true, true_imp_iff]
        constructor
        · intro hall i hi orig ho
          have hv : Verdict.accept i ctx.mark none ∈ acceptAll (afterDrop ctx).mark ids := by
            simpa [acceptAll] using (hlets i).mpr hi
          obtain ⟨orig', ho', hcl⟩ := hall i _ none hv
          rw [ho] at ho'
          cases ho'
          exact clamped_self.mp hcl
        · intro hall i m data hv
          obtain ⟨j, hj, hv'⟩ := List.mem_map.mp hv
          cases hv'
          have hdel := hknown i (by simpa using hj)
          obtain ⟨orig, ho⟩ := original_of_delivered hdel
          exact ⟨orig, ho, clamped_self.mpr (hall i ((hlets i).mp hj) orig ho)⟩
  | tcpSchedule tctx =>
    simp only [workerStep, C.bind_ok] at h
    obtain ⟨w, -, h⟩ := h
    cases h
    simp [AcceptsClamped, WithinClamp]
  | _ =>
    cases h
    simp [AcceptsClamped, WithinClamp]

/-- **The clamp holds of every accepted packet, exactly when no session lets go one that advertises too
    much.** -/
theorem clamp_iff (mem : WorkerCtx) (ops : List WorkerOp)
    (hwf : ∀ nfa bs, .callback nfa ∈ ops → nfa.payload = some bs → WellFormed bs) :
    (∀ pre op ctx vs ctx' vs', pre ++ [op] <+: ops →
      run (workerStep csum) (workerInitCtx mem) pre = .ok (ctx, vs) →
      workerStep csum ctx op = .ok (ctx', vs') → AcceptsClamped (pre ++ [op]) ctx vs') ↔
    EveryStep (workerStep csum) (workerInitCtx mem) ops (fun pre ctx op => WithinClamp pre ctx op) := by
  have hstep : ∀ pre op ctx vs ctx' vs', pre ++ [op] <+: ops →
      run (workerStep csum) (workerInitCtx mem) pre = .ok (ctx, vs) → workerStep csum ctx op = .ok (ctx', vs') →
      (AcceptsClamped (pre ++ [op]) ctx vs' ↔ WithinClamp pre ctx op) := by
    intro pre op ctx vs ctx' vs' hp hr hs
    refine workerStep_clamp csum ?_ ?_ hs
    · rintro nfa bs rfl hpay
      exact hwf nfa bs (hp.subset (by simp)) hpay
    · intro id hid
      have hrun := run_snoc_ok.mpr ⟨ctx, vs, vs', hr, hs, rfl⟩
      have hmem : id ∈ (vs ++ vs').map Verdict.id := by
        rw [List.map_append]
        exact List.mem_append_right _ hid
      rcases decided_subset csum hrun id hmem with hl | hl
      · simp [live_init] at hl
      · exact hl
  constructor
  · intro hall pre op ctx vs ctx' vs' hp hr hs
    exact (hstep pre op ctx vs ctx' vs' hp hr hs).mp (hall pre op ctx vs ctx' vs' hp hr hs)
  · intro hall pre op ctx vs ctx' vs' hp hr hs
    exact (hstep pre op ctx vs ctx' vs' hp hr hs).mpr (hall pre op ctx vs ctx' vs' hp hr hs)

end Runs

/-- Rewriting is on with window 10, and a session holds one packet and lets the next one pass. -/
def passedRun : List WorkerOp :=
  [.initTcpSched 1, .setRwnd 10, .setReorder 1 1 1, .callback ⟨1, some (ackSegment 5 100)⟩,
   .callback ⟨2, some (ackSegment 5 100)⟩]

/-- The same session with packets of window 10 at most, and a packet of window 100 after it. -/
def lowRun : List WorkerOp :=
  [.initTcpSched 1, .setRwnd 10, .setReorder 1 1 1, .callback ⟨1, some (ackSegment 5 7)⟩,
   .callback ⟨2, some (ackSegment 6 10)⟩, .callback ⟨3, some (ackSegment 7 100)⟩]

theorem passedRun_wellFormed (nfa : NfqData) (bs : List UInt8) (h : .callback nfa ∈ passedRun)
    (hp : nfa.payload = some bs) : WellFormed bs := by
  have hbs : bs = ackSegment 5 100 := by
    simp only [passedRun, List.mem_cons, reduceCtorEq, WorkerOp.callback.injEq, List.not_mem_nil, or_false,
      false_or] at h
    rcases h with rfl | rfl <;> exact (Option.some.inj hp).symm
  rw [hbs]
  decide

theorem lowRun_wellFormed (nfa : NfqData) (bs : List UInt8) (h : .callback nfa ∈ lowRun)
    (hp : nfa.payload = some bs) : WellFormed bs := by
  simp only [lowRun, List.mem_cons, reduceCtorEq, WorkerOp.callback.injEq, List.not_mem_nil, or_false, false_or] at h
  rcases h with rfl | rfl | rfl <;> cases hp <;> decide

theorem clamp_iff_passed :
    ((∀ pre op ctx vs ctx' vs', pre ++ [op] <+: passedRun →
      run (workerStep zeroCsum) (workerInitCtx zeroWorker) pre = .ok (ctx, vs) →
      workerStep zeroCsum ctx op = .ok (ctx', vs') → AcceptsClamped (pre ++ [op]) ctx vs') ↔
    EveryStep (workerStep zeroCsum) (workerInitCtx zeroWorker) passedRun (fun pre ctx op => WithinClamp pre ctx op)) ∧
    ∀ pre op ctx vs ctx' vs', pre ++ [op] <+: lowRun →
      run (workerStep zeroCsum) (workerInitCtx zeroWorker) pre = .ok (ctx, vs) →
      workerStep zeroCsum ctx op = .ok (ctx', vs') → AcceptsClamped (pre ++ [op]) ctx vs' :=
  ⟨clamp_iff zeroCsum zeroWorker passedRun passedRun_wellFormed,
    (clamp_iff zeroCsum zeroWorker lowRun lowRun_wellFormed).mpr (by decide)⟩

/-- The packet that passes leaves with window 100. -/
theorem passed_unclamped :
    ¬ ∀ pre op ctx vs ctx' vs', pre ++ [op] <+: passedRun →
      run (workerStep zeroCsum) (workerInitCtx zeroWorker) pre = .ok (ctx, vs) →
      workerStep zeroCsum ctx op = .ok (ctx', vs') → AcceptsClamped (pre ++ [op]) ctx vs' := by
  intro h
  have hacc := h (passedRun.take 4) (.callback ⟨2, some (ackSegment 5 100)⟩) _ _ _ _ (List.prefix_refl _) rfl rfl
    (by decide) 2 0 none (by decide)
  obtain ⟨orig, ho, hcl⟩ := hacc
  cases ho
  exact absurd (clamped_self.mp hcl) (by decide)

end Handoff
