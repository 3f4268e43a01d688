import Handoff.EventTable
import Mathlib.Data.List.TakeWhile

/- A line as a list of fields.

   Commas separate the fields of a line (`csvFields`), and `strtok` finds those that are not
   empty (`tokens_strtok`). So what the parser does with a line depends on the non-empty fields
   only: on how many there are for the type it finds, and on their numbers
   (`readEvent_tokens`). -/
namespace Handoff

/-- The fields of a line, empty ones included. The last one keeps the newline. -/
def csvFields (text : List Char) : List (List Char) := text.splitOn ','

/-- The non-empty fields. -/
def tokens (text : List Char) : List (List Char) := (csvFields text).filter (· ≠ [])

/-! `strtok` finds the tokens. -/

theorem tokens_comma (s : List Char) : tokens (',' :: s) = tokens s := by
  have h : csvFields (',' :: s) = [] :: csvFields s := List.splitOn_append_cons_self [] s
  simp [tokens, h]

theorem tokens_last {t : List Char} (ht : t ≠ []) (hc : ',' ∉ t) : tokens t = [t] := by
  have h : csvFields t = [t] := List.splitOn_eq_singleton hc
  simp [tokens, h, ht]

theorem tokens_next {t : List Char} (ht : t ≠ []) (hc : ',' ∉ t) (s : List Char) :
    tokens (t ++ ',' :: s) = t :: tokens s := by
  have h : csvFields (t ++ ',' :: s) = t :: csvFields s := List.splitOn_append_cons_self_of_not_mem hc s
  simp [tokens, h, ht]

theorem tokens_strtok (s : List Char) :
    tokens s = match strtok s with
      | none => []
      | some (t, rest) => t :: tokens rest := by
  induction s with
  | nil => rfl
  | cons c s ih =>
    by_cases hc : c = ','
    · rw [hc, tokens_comma, ih]
      rfl
    · have hstr : strtok (c :: s) = some ((c :: s).takeWhile (· != ','), ((c :: s).dropWhile (· != ',')).tail) := by
        simp [strtok, hc]
      have hne : (c :: s).takeWhile (· != ',') ≠ [] := by simp [hc]
      have hmem : ',' ∉ (c :: s).takeWhile (· != ',') := fun h => by simpa using List.mem_takeWhile_imp h
      have hsplit := List.takeWhile_append_dropWhile (p := (· != ',')) (l := c :: s)
      rw [hstr]
      rcases hdrop : (c :: s).dropWhile (· != ',') with _ | ⟨d, s'⟩
      · rw [hdrop, List.append_nil] at hsplit
        show tokens (c :: s) = (c :: s).takeWhile (· != ',') :: tokens []
        rw [hsplit]
        exact tokens_last (List.cons_ne_nil c s) (hsplit ▸ hmem)
      · have hd : d = ',' := by
          have hhead := List.head_dropWhile_not (· != ',') (show (c :: s).dropWhile (· != ',') ≠ [] by simp [hdrop])
          simpa only [hdrop, List.head_cons, bne_eq_false_iff_eq] using hhead
        show tokens (c :: s) = (c :: s).takeWhile (· != ',') :: tokens s'
        rw [hdrop, hd] at hsplit
        calc tokens (c :: s) = tokens ((c :: s).takeWhile (· != ',') ++ ',' :: s') := by rw [hsplit]
          _ = (c :: s).takeWhile (· != ',') :: tokens s' := tokens_next hne hmem s'

/-! Readers. -/

/-- `f` reads `k` tokens into `v`, and faults if there are fewer. -/
structure Takes {α : Type} (k : Nat) (f : List Char → C (α × List Char)) (v : List (List Char) → α) : Prop where
  short : ∀ rest, (tokens rest).length < k → f rest = .error .nullDeref
  full : ∀ rest, k ≤ (tokens rest).length →
    ∃ rest', f rest = .ok (v (tokens rest), rest') ∧ tokens rest' = (tokens rest).drop k

/-- The computation needs `k` tokens of `rest`, and is then `g` of the tokens. -/
def Reads {β : Type} (k : Nat) (rest : List Char) (c : C β) (g : List (List Char) → C β) : Prop :=
  c = if (tokens rest).length < k then .error .nullDeref else g (tokens rest)

section Readers
variable {α β : Type}

theorem Reads.done {rest : List Char} (c : C β) : Reads 0 rest c (fun _ => c) := rfl

theorem Takes.reads {j k : Nat} {f : List Char → C (α × List Char)} {v : List (List Char) → α} (hf : Takes j f v)
    {c : α × List Char → C β} {g : α → List (List Char) → C β}
    (h : ∀ x rest', Reads k rest' (c (x, rest')) (g x)) (rest : List Char) :
    Reads (k + j) rest (f rest >>= c) (fun ts => g (v ts) (ts.drop j)) := by
  unfold Reads
  by_cases hj : (tokens rest).length < j
  · rw [hf.short rest hj, if_pos (show (tokens rest).length < k + j by omega)]
    rfl
  · obtain ⟨rest', hrest, htokens⟩ := hf.full rest (Nat.le_of_not_lt hj)
    rw [hrest, C.ok_bind, h, htokens, List.length_drop]
    simp only [Nat.sub_lt_iff_lt_add (Nat.le_of_not_lt hj)]

/-- A value read last. -/
theorem Takes.last {j : Nat} {f : List Char → C (α × List Char)} {v : List (List Char) → α} (hf : Takes j f v)
    {c : α × List Char → C β} {g : α → C β} (h : ∀ x rest', c (x, rest') = g x) (rest : List Char) :
    Reads j rest (f rest >>= c) (fun ts => g (v ts)) := by
  have h0 : Reads (0 + j) rest (f rest >>= c) (fun ts => g (v ts)) := hf.reads (g := fun x _ => g x) ?_ rest
  · rwa [Nat.zero_add] at h0
  intro x rest'
  exact h x rest'

/-- The numbers of the fields, as an `int` and as a `long`. -/
def number (fs : List (List Char)) (i : Nat) : Int := toInt (strtol (fs[i]?.getD []))
def longNumber (fs : List (List Char)) (i : Nat) : Int := strtol (fs[i]?.getD [])

/-- One field read by `strtok`. -/
theorem takes_field {f : List Char → C (α × List Char)} {w : List Char → α}
    (h : ∀ rest, f rest = match strtok rest with
      | none => .error .nullDeref
      | some (t, rest) => .ok (w t, rest)) : Takes 1 f (fun ts => w (ts[0]?.getD [])) where
  short := by
    intro rest hlen
    have htokens := tokens_strtok rest
    rcases hstr : strtok rest with _ | ⟨t, rest'⟩ <;> rw [hstr] at htokens
    · rw [h, hstr]
    · rw [htokens] at hlen
      simp at hlen
  full := by
    intro rest hlen
    have htokens := tokens_strtok rest
    rcases hstr : strtok rest with _ | ⟨t, rest'⟩ <;> rw [hstr] at htokens
    · rw [htokens] at hlen
      simp at hlen
    · refine ⟨rest', ?_, ?_⟩
      · rw [h, hstr, htokens]
        rfl
      · rw [htokens]
        rfl

theorem nextInt_takes : Takes 1 nextInt (number · 0) :=
  takes_field (w := fun t => toInt (strtol t)) fun _ => rfl

theorem nextLong_takes : Takes 1 parseInitSched.nextLong (longNumber · 0) :=
  takes_field (w := strtol) fun _ => rfl

theorem Takes.bind {j k : Nat} {f : List Char → C (α × List Char)} {v : List (List Char) → α} (hf : Takes j f v)
    {c : α × List Char → C (β × List Char)} {w : α → List (List Char) → β}
    (h : ∀ x, Takes k (fun rest => c (x, rest)) (w x)) :
    Takes (k + j) (fun rest => f rest >>= c) (fun ts => w (v ts) (ts.drop j)) where
  short := by
    intro rest hlen
    by_cases hj : (tokens rest).length < j
    · rw [hf.short rest hj]
      rfl
    · obtain ⟨rest', hrest, htokens⟩ := hf.full rest (Nat.le_of_not_lt hj)
      rw [hrest, C.ok_bind]
      apply (h _).short
      rw [htokens, List.length_drop]
      omega
  full := by
    intro rest hlen
    obtain ⟨rest', hrest, htokens⟩ := hf.full rest (Nat.le_of_add_left_le hlen)
    obtain ⟨rest'', hlast, hdrop⟩ := (h (v (tokens rest))).full rest' (by rw [htokens, List.length_drop]; omega)
    refine ⟨rest'', ?_, ?_⟩
    · rw [hrest, C.ok_bind, hlast, htokens]
    · rw [hdrop, htokens, List.drop_drop, Nat.add_comm]

theorem Takes.pure (x : α) : Takes 0 (fun rest => .ok (x, rest)) (fun _ => x) where
  short := fun _ h => absurd h (Nat.not_lt_zero _)
  full := fun rest _ => ⟨rest, rfl, rfl⟩

theorem Takes.congr {k : Nat} {f : List Char → C (α × List Char)} {v v' : List (List Char) → α} (h : Takes k f v)
    (hv : ∀ ts, v ts = v' ts) : Takes k f v' := by
  rw [← funext hv]
  exact h

theorem Reads.congr {k : Nat} {rest : List Char} {c : C β} {g g' : List (List Char) → C β} (h : Reads k rest c g)
    (hg : ∀ ts, g ts = g' ts) : Reads k rest c g' := by
  rw [← funext hg]
  exact h

end Readers

/-! What the readers make of the fields. -/

/-- The parameters of a type, if the parser knows it. -/
def EventType.params : EventType → Option Nat
  | .init => some 3
  | .cmd => some 1
  | .ho => some 6
  | .solHandledup => some 2
  | .solInitSched => some 12
  | .solHo => some 8
  | .solHandlerw | .unknown => none

def hoFields (fs : List (List Char)) : HoFields where
  queueNum := number fs 0
  mark := number fs 1
  gapTime := number fs 2
  reordCnt := number fs 3
  reordOffset := number fs 4
  dropCnt := number fs 5

def solHoFields (fs : List (List Char)) : SolHoFields where
  queueNum := number fs 0
  mark := number fs 1
  enableFreeze := number fs 2
  freezeMs := number fs 3
  enableDedup := number fs 4
  smoothMs := number fs 5
  burstDuration := number fs 6
  enableAdapt := number fs 7

/-- The link whose parameters start at field `i`. -/
def linkParameter (fs : List (List Char)) (i : Nat) : LinkParameter :=
  ⟨number fs i, number fs (i + 1), number fs (i + 2)⟩

def initTcpSchedArgs (fs : List (List Char)) : InitTcpSchedArgs where
  enable := number fs 1
  sampleInterval := number fs 2
  threshold := longNumber fs 3 / 100
  pace := longNumber fs 4 / 100
  fire := number fs 5
  mark := 1
  initParam := #v[⟨0, 0, 0⟩, linkParameter fs 6, linkParameter fs 9]

theorem nextLink_takes : Takes 3 parseInitSched.nextLink (linkParameter · 0) := by
  apply Takes.congr
  · apply nextInt_takes.bind
    intro mark
    apply nextInt_takes.bind
    intro histRw
    apply nextInt_takes.bind
    intro rtt
    exact Takes.pure (LinkParameter.mk mark histRw rtt)
  · intro ts
    simp [linkParameter, number]

theorem readHo_reads (t rest : List Char) :
    Reads 5 rest (readHo (some t) rest) (fun ts => .ok (hoFields (t :: ts))) := by
  apply Reads.congr
  · apply nextInt_takes.reads
    intro mark rest
    apply nextInt_takes.reads
    intro gapTime rest
    apply nextInt_takes.reads
    intro reordCnt rest
    apply nextInt_takes.reads
    intro reordOffset rest
    apply nextInt_takes.last
    intro dropCnt rest
    rfl
  · intro ts
    simp [hoFields, number]

theorem readSolHo_reads (t rest : List Char) :
    Reads 7 rest (readSolHo (some t) rest) (fun ts => .ok (solHoFields (t :: ts))) := by
  apply Reads.congr
  · apply nextInt_takes.reads
    intro mark rest
    apply nextInt_takes.reads
    intro enableFreeze rest
    apply nextInt_takes.reads
    intro freezeMs rest
    apply nextInt_takes.reads
    intro enableDedup rest
    apply nextInt_takes.reads
    intro smoothMs rest
    apply nextInt_takes.reads
    intro burstDuration rest
    apply nextInt_takes.last
    intro enableAdapt rest
    rfl
  · intro ts
    simp [solHoFields, number]

/-- The requests of a line of a known type that has all its parameters. -/
def lineExpansion (type : EventType) (timeMs : Int) (fs : List (List Char)) : List Request :=
  let q := UInt16.ofInt (number fs 0)
  match type with
  | .init =>
    [(timeMs, .initNfqueue q), (number fs 2, .teardownNfqueue q), (timeMs, .startNfqueue q)] ++
      (if 0 < number fs 1 then [(timeMs, .setMark q (UInt32.ofInt (number fs 1)))] else [])
  | .cmd => [(timeMs, .command (fs[0]?.getD []))]
  | .ho => hoExpansion timeMs (hoFields fs)
  | .solHandledup => [(timeMs, .setDedup q (number fs 1))]
  | .solInitSched => [(timeMs, .initTcpSched q (initTcpSchedArgs fs))]
  | .solHo => solHoExpansion timeMs (solHoFields fs)
  | .solHandlerw | .unknown => []

/-- The sums of times the parser computes for the line are `int`s. -/
def LineSums (type : EventType) (timeMs : Int) (fs : List (List Char)) : Prop :=
  match type with
  | .ho => HoSums timeMs (hoFields fs)
  | .solHo => SolHoSums timeMs (solHoFields fs)
  | _ => True

instance (type : EventType) (timeMs : Int) (fs : List (List Char)) : Decidable (LineSums type timeMs fs) :=
  match type with
  | .ho => inferInstanceAs (Decidable (HoSums timeMs (hoFields fs)))
  | .solHo => inferInstanceAs (Decidable (SolHoSums timeMs (solHoFields fs)))
  | .init | .cmd | .solHandledup | .solHandlerw | .solInitSched | .unknown => inferInstanceAs (Decidable True)

/-- The outcome of a reader that has its parameters. -/
def lineOutcome (type : EventType) (timeMs : Int) (fs : List (List Char)) : C (List Request) :=
  if LineSums type timeMs fs then .ok (lineExpansion type timeMs fs) else .error .overflow

/-- The reader of a type, given its first parameter as `parse_event` leaves it, needs `n` parameters. -/
structure Parses (type : EventType) (timeMs : Int) (n : Nat)
    (parse : Option (List Char) → List Char → C (List Request)) : Prop where
  none : ∀ rest, parse none rest = .error .nullDeref
  some : ∀ t rest, Reads n rest (parse (some t) rest) (fun ts => lineOutcome type timeMs (t :: ts))

section Parsers
variable (timeMs : Int)

theorem parseInit_parses : Parses .init timeMs 2 (parseInit timeMs) where
  none _ := rfl
  some t rest := by
    apply Reads.congr
    · apply nextInt_takes.reads
      intro mark rest
      apply nextInt_takes.last
      intro endMs rest
      rfl
    · intro ts
      simp only [lineOutcome, LineSums, lineExpansion, number]
      simp
      rfl

theorem parseCmd_parses : Parses .cmd timeMs 0 (fun tok _ => parseCmd timeMs tok) where
  none _ := rfl
  some _ _ := rfl

theorem parseHo_parses : Parses .ho timeMs 5 (parseHo timeMs) where
  none _ := rfl
  some t rest := by
    have h := readHo_reads t rest
    unfold Reads at h ⊢
    unfold parseHo
    rw [h]
    split
    · rfl
    · exact hoRequests_eq timeMs _

theorem parseHandleDup_parses : Parses .solHandledup timeMs 1 (parseHandleDup timeMs) where
  none _ := rfl
  some t rest := by
    apply Reads.congr
    · apply nextInt_takes.last
      intro enable rest
      rfl
    · intro ts
      simp [lineOutcome, LineSums, lineExpansion, number]

theorem parseInitSched_parses : Parses .solInitSched timeMs 11 (parseInitSched timeMs) where
  none _ := rfl
  some t rest := by
    apply Reads.congr
    · apply nextInt_takes.reads
      intro enableRw rest
      apply nextInt_takes.reads
      intro sampleInterval rest
      apply nextLong_takes.reads
      intro threshold rest
      apply nextLong_takes.reads
      intro pace rest
      apply nextInt_takes.reads
      intro startTime rest
      apply nextLink_takes.reads
      intro p₁ rest
      apply nextLink_takes.last
      intro p₂ rest
      rfl
    · intro ts
      simp [lineOutcome, LineSums, lineExpansion, initTcpSchedArgs, linkParameter, number, longNumber]

theorem parseHandleSolution_parses : Parses .solHo timeMs 7 (parseHandleSolution timeMs) where
  none _ := rfl
  some t rest := by
    have h := readSolHo_reads t rest
    unfold Reads at h ⊢
    unfold parseHandleSolution
    rw [h]
    split
    · rfl
    · exact solHoRequests_eq timeMs _

end Parsers

theorem tokens_cons {s t : List Char} {ts : List (List Char)} (h : tokens s = t :: ts) :
    ∃ rest, strtok s = some (t, rest) ∧ tokens rest = ts := by
  rw [tokens_strtok] at h
  rcases hstr : strtok s with _ | ⟨t', rest⟩ <;> rw [hstr] at h
  · cases h
  · cases h
    exact ⟨rest, rfl, rfl⟩

theorem tokens_nil {s : List Char} (h : tokens s = []) : strtok s = none := by
  rw [tokens_strtok] at h
  rcases hstr : strtok s with _ | ⟨t', rest⟩
  · rfl
  · rw [hstr] at h
    cases h

/-- The reader, given what follows the type as `parse_event` splits it. -/
theorem Parses.calls {type : EventType} {timeMs : Int} {n : Nat}
    {parse : Option (List Char) → List Char → C (List Request)} (h : Parses type timeMs n parse) (fields : List Char) :
    (do let rs ← parse (match strtok fields with
            | Option.none => (Option.none, [])
            | Option.some (t, rest) => (Option.some t, rest) : Option (List Char) × List Char).1
          (match strtok fields with
            | Option.none => (Option.none, [])
            | Option.some (t, rest) => (Option.some t, rest) : Option (List Char) × List Char).2
        return (rs, (0 : Int)) : C (List Request × Int)) =
      if (tokens fields).length < n + 1 then .error .nullDeref
      else do
        let rs ← lineOutcome type timeMs (tokens fields)
        return (rs, 0) := by
  have htokens := tokens_strtok fields
  rcases hstr : strtok fields with _ | ⟨t, rest⟩ <;> rw [hstr] at htokens <;> rw [htokens]
  · show parse Option.none [] >>= _ = _
    rw [h.none []]
    rfl
  · have hsome : parse (Option.some t) rest = _ := h.some t rest
    show parse (Option.some t) rest >>= _ = _
    rw [hsome, List.length_cons]
    simp only [Nat.add_lt_add_iff_right]
    split <;> rfl

/-- **What the parser does with a line** that has a time and a type. -/
theorem readEvent_tokens {text time event : List Char} {args : List (List Char)}
    (h : tokens text = time :: event :: args) :
    readEvent text = match (getEventType event).params with
      | none => .ok ([], -1)
      | some n =>
        if args.length < n then .error .nullDeref
        else do
          let rs ← lineOutcome (getEventType event) (toInt (strtol time)) args
          return (rs, 0) := by
  obtain ⟨rest, htime, hrest⟩ := tokens_cons h
  obtain ⟨fields, hevent, rfl⟩ := tokens_cons hrest
  simp only [readEvent, htime, hevent]
  cases getEventType event with
  | init => exact (parseInit_parses _).calls fields
  | cmd => exact (parseCmd_parses _).calls fields
  | ho => exact (parseHo_parses _).calls fields
  | solHandledup => exact (parseHandleDup_parses _).calls fields
  | solInitSched => exact (parseInitSched_parses _).calls fields
  | solHo => exact (parseHandleSolution_parses _).calls fields
  | solHandlerw => rfl
  | unknown => rfl

/-- Without a time or a type the parser faults. -/
theorem readEvent_short {text : List Char} (h : (tokens text).length < 2) : readEvent text = .error .nullDeref := by
  rcases hts : tokens text with _ | ⟨time, ts⟩
  · simp [readEvent, tokens_nil hts]
  · obtain ⟨rest, htime, hrest⟩ := tokens_cons hts
    rw [hts, List.length_cons, ← hrest] at h
    have hnil : tokens rest = [] := List.length_eq_zero_iff.mp (by omega)
    simp [readEvent, htime, tokens_nil hnil]

end Handoff
