import Handoff.Lib.Timeline
import Handoff.Python
import Mathlib.Data.List.Nodup
import Mathlib.Logic.Function.Basic

/- Which link metrics.py attributes a throughput sample to.

   The handovers of a trace are a timeline of links (`Lib.Timeline`). `filter_link_duration` cuts it into the pieces of
   each link, from time 0 to the last sample (`filterLinkDuration_pieces`), after `filter_time_range` has dropped the
   handovers outside the range; a sample is counted once for each closed piece it lies in (`count_thuputsOn`). Where each
   is counted once, for the link in use, the throughputs of the links are those of their samples
   (`thuputs_attributed`). -/
namespace Handoff

open Timeline

/-! The code. -/

/-- `filter_time_range`. -/
def filterTimeRange {α : Type} (dataTimes : List ℚ) (data : List α) (startTime endTime : ℚ) : List ℚ × List α :=
  let filtered := (dataTimes.zip data).filter fun (t, _) => startTime ≤ t ∧ t ≤ endTime
  (filtered.map (·.1), filtered.map (·.2))

/-- `duration` of `filter_link_duration`: the intervals of each link, the empty list by default. -/
abbrev Duration := Nat → List (ℚ × ℚ)

/-- `intervals[-1][1] = t`. -/
def setLastEnd (intervals : List (ℚ × ℚ)) (t : ℚ) : Py (List (ℚ × ℚ)) :=
  match intervals.getLast? with
  | some (start, _) => .ok (intervals.dropLast ++ [(start, t)])
  | none => .error .indexError

/-- The variables of the loop of `filter_link_duration`. -/
structure DurationLoop where
  prevLink : Nat
  duration : Duration

def durationIteration (hoTimes : List ℚ) (targetLinks : List Nat) (s : DurationLoop) (i : Nat) : Py DurationLoop := do
  let targetLink ← getItem targetLinks i
  if targetLink ≠ s.prevLink then
    let hoTime ← getItem hoTimes i
    let intervals ← setLastEnd (s.duration s.prevLink) hoTime
    let duration := Function.update s.duration s.prevLink intervals
    return ⟨targetLink, Function.update duration targetLink (duration targetLink ++ [(hoTime, -1)])⟩
  else return s

/-- `filter_link_duration`. -/
def filterLinkDuration (hoTimes : List ℚ) (targetLinks : List Nat) (timeEnd : ℚ) (initialLink : Nat) : Py Duration := do
  let duration : Duration := Function.update (fun _ => []) initialLink [(0, -1)]
  let s ← (List.range hoTimes.length).foldlM (durationIteration hoTimes targetLinks) ⟨initialLink, duration⟩
  let intervals ← setLastEnd (s.duration s.prevLink) timeEnd
  return Function.update s.duration s.prevLink intervals

/-- `sub6_thuputs` and `mmw_thuputs`. -/
structure LinkThuputs (α : Type) where
  sub6Thuputs : List α
  mmwThuputs : List α

/-- The throughputs in the intervals of a link. -/
def thuputsDuring {α : Type} (thuputTimes : List ℚ) (thuputs : List α) (intervals : List (ℚ × ℚ)) : List α :=
  intervals.flatMap fun dur => (filterTimeRange thuputTimes thuputs dur.1 dur.2).2

/-- What `__main__` does between parsing and averaging: the samples and the handovers in range, the durations, and the
    throughputs of links 1 and 2. The handovers are those of the trace, as `parse_trace` returns them. -/
def linkThuputs {α : Type} (hoTimes : List ℚ) (targetLinks : List Nat) (thuputTimes : List ℚ) (thuputs : List α)
    (beginTime endTime : ℚ) : Py (LinkThuputs α) := do
  let (thuputTimes, thuputs) := filterTimeRange thuputTimes thuputs beginTime endTime
  let (hoTimes, targetLinks) := filterTimeRange hoTimes targetLinks beginTime endTime
  let linkDurations ← filterLinkDuration hoTimes targetLinks (← maxOf thuputTimes) 1
  return ⟨thuputsDuring thuputTimes thuputs (linkDurations 1), thuputsDuring thuputTimes thuputs (linkDurations 2)⟩

/-! The durations. -/

/-- The intervals of one link among some pieces. -/
def intervalsOf (ps : List (Piece ℚ Nat)) (link : Nat) : List (ℚ × ℚ) :=
  (ps.filter (·.label = link)).map fun p => (p.first, p.last)

section Duration
variable {link : Nat} {ps : List (Piece ℚ Nat)} {p : Piece ℚ Nat}

theorem intervalsOf_snoc_self (ps : List (Piece ℚ Nat)) (link : Nat) (s e : ℚ) :
    intervalsOf (ps ++ [⟨link, s, e⟩]) link = intervalsOf ps link ++ [(s, e)] := by
  simp [intervalsOf]

theorem intervalsOf_snoc_ne (h : p.label ≠ link) : intervalsOf (ps ++ [p]) link = intervalsOf ps link := by
  simp [intervalsOf, h]

theorem setLastEnd_pieces (ps : List (Piece ℚ Nat)) (link : Nat) (s e e' : ℚ) :
    setLastEnd (intervalsOf (ps ++ [⟨link, s, e⟩]) link) e' = .ok (intervalsOf (ps ++ [⟨link, s, e'⟩]) link) := by
  rw [intervalsOf_snoc_self, intervalsOf_snoc_self, setLastEnd, List.getLast?_append]
  simp

theorem update_pieces (ps : List (Piece ℚ Nat)) (link : Nat) (s e e' : ℚ) :
    Function.update (intervalsOf (ps ++ [⟨link, s, e⟩])) link (intervalsOf (ps ++ [⟨link, s, e'⟩]) link) =
      intervalsOf (ps ++ [⟨link, s, e'⟩]) := by
  funext l
  by_cases h : l = link
  · rw [h, Function.update_self]
  · rw [Function.update_of_ne h, intervalsOf_snoc_ne (Ne.symm h), intervalsOf_snoc_ne (Ne.symm h)]

theorem update_snoc (ps : List (Piece ℚ Nat)) (link : Nat) (s e : ℚ) :
    Function.update (intervalsOf ps) link (intervalsOf ps link ++ [(s, e)]) = intervalsOf (ps ++ [⟨link, s, e⟩]) := by
  funext l
  by_cases h : l = link
  · rw [h, Function.update_self, intervalsOf_snoc_self]
  · rw [Function.update_of_ne h, intervalsOf_snoc_ne (Ne.symm h)]

/-- The loop after the handovers `hos`: their pieces, the last one still open. -/
def afterHandovers (initialLink : Nat) (hos : List (ℚ × Nat)) : DurationLoop :=
  ⟨labelAfter initialLink hos, intervalsOf (pieces initialLink 0 (changes initialLink hos) (-1))⟩

theorem duration_step {hoTimes : List ℚ} {targetLinks : List Nat} {i : Nat} {ho : ℚ × Nat}
    (htime : getItem hoTimes i = .ok ho.1) (hlink : getItem targetLinks i = .ok ho.2) (initialLink : Nat)
    (hos : List (ℚ × Nat)) :
    durationIteration hoTimes targetLinks (afterHandovers initialLink hos) i =
      .ok (afterHandovers initialLink (hos ++ [ho])) := by
  obtain ⟨ps, s, hpieces⟩ := pieces_last initialLink (0 : ℚ) (changes initialLink hos)
  have hafter : labelAfter initialLink (hos ++ [ho]) = ho.2 := by
    rw [labelAfter_append, labelAfter_cons, labelAfter_nil]
  have hprev : (afterHandovers initialLink hos).prevLink = labelAfter initialLink hos := rfl
  rw [durationIteration, hlink, Py.ok_bind, hprev]
  by_cases hsame : ho.2 = labelAfter initialLink hos
  · -- the same link: nothing changes
    rw [if_neg (not_not.mpr hsame), afterHandovers, afterHandovers, changes_snoc, if_pos hsame, List.append_nil, hafter,
      hsame]
    rfl
  · rw [if_pos hsame, htime, Py.ok_bind]
    simp only [afterHandovers]
    rw [changes_snoc, if_neg hsame, pieces_snoc, hpieces, hpieces, labelAfter_changes, setLastEnd_pieces, Py.ok_bind,
      update_pieces, update_snoc, hafter]
    rfl

theorem duration_run (initialLink : Nat) (hos : List (ℚ × Nat)) {n : Nat} (hn : n ≤ hos.length) :
    (List.range n).foldlM (durationIteration (hos.map (·.1)) (hos.map (·.2))) (afterHandovers initialLink []) =
      .ok (afterHandovers initialLink (hos.take n)) := by
  induction n with
  | zero => rfl
  | succ n ih =>
    have hget : hos[n]? = some hos[n] := List.getElem?_eq_getElem hn
    have htime : getItem (hos.map (·.1)) n = .ok hos[n].1 := getItem_ok.mpr (by rw [List.getElem?_map, hget]; rfl)
    have hlink : getItem (hos.map (·.2)) n = .ok hos[n].2 := getItem_ok.mpr (by rw [List.getElem?_map, hget]; rfl)
    rw [List.range_succ, List.foldlM_append, ih (by omega), Py.ok_bind, List.foldlM_cons,
      duration_step htime hlink, List.take_succ_eq_append_getElem (by omega)]
    rfl

/-- **The durations are the pieces of the timeline**, each under its link. -/
theorem filterLinkDuration_pieces (hos : List (ℚ × Nat)) (timeEnd : ℚ) (initialLink : Nat) :
    filterLinkDuration (hos.map (·.1)) (hos.map (·.2)) timeEnd initialLink =
      .ok (intervalsOf (pieces initialLink 0 (changes initialLink hos) timeEnd)) := by
  have hstart : (⟨initialLink, Function.update (fun _ => []) initialLink [(0, -1)]⟩ : DurationLoop) =
      afterHandovers initialLink [] := by
    simp only [afterHandovers, changes, pieces, labelAfter_nil, DurationLoop.mk.injEq, true_and]
    exact update_snoc [] initialLink 0 (-1)
  obtain ⟨ps, s, hpieces⟩ := pieces_last initialLink (0 : ℚ) (changes initialLink hos)
  have hrun := duration_run initialLink hos (Nat.le_refl _)
  rw [List.take_length] at hrun
  rw [filterLinkDuration]
  simp only [hstart, List.length_map, hrun, Py.ok_bind]
  simp only [afterHandovers, hpieces, labelAfter_changes, setLastEnd_pieces, Py.ok_bind, update_pieces]
  rfl

end Duration

/-! The samples. -/

/-- The entries with a time in the range. -/
def between {α : Type} (xs : List (ℚ × α)) (s e : ℚ) : List (ℚ × α) := xs.filter fun x => s ≤ x.1 ∧ x.1 ≤ e

theorem filterTimeRange_between {α : Type} (xs : List (ℚ × α)) (s e : ℚ) :
    filterTimeRange (xs.map (·.1)) (xs.map (·.2)) s e = ((between xs s e).map (·.1), (between xs s e).map (·.2)) := by
  have hzip : (xs.map (·.1)).zip (xs.map (·.2)) = xs := by
    have hunzip := List.zip_unzip xs
    rwa [List.unzip_eq_map] at hunzip
  rw [filterTimeRange, hzip]
  rfl

/-- The throughputs of a link. -/
def thuputsOn {α : Type} (samples : List (ℚ × α)) (ps : List (Piece ℚ Nat)) (link : Nat) : List α :=
  (intervalsOf ps link).flatMap fun dur => (between samples dur.1 dur.2).map (·.2)

/-- The link changes of the handovers in range, from link 1. -/
def switches (hos : List (ℚ × Nat)) (b e : ℚ) : List (ℚ × Nat) := changes 1 (between hos b e)

/-- And the pieces between them. -/
def linkPieces (hos : List (ℚ × Nat)) (b e last : ℚ) : List (Piece ℚ Nat) := pieces 1 0 (switches hos b e) last

theorem linkThuputs_pieces {α : Type} (hos : List (ℚ × Nat)) (samples : List (ℚ × α)) {b e last : ℚ}
    (hlast : maxOf ((between samples b e).map (·.1)) = .ok last) :
    linkThuputs (hos.map (·.1)) (hos.map (·.2)) (samples.map (·.1)) (samples.map (·.2)) b e =
      .ok ⟨thuputsOn (between samples b e) (linkPieces hos b e last) 1,
        thuputsOn (between samples b e) (linkPieces hos b e last) 2⟩ := by
  have hduring : ∀ ds : List (ℚ × ℚ),
      thuputsDuring ((between samples b e).map (·.1)) ((between samples b e).map (·.2)) ds =
        ds.flatMap fun dur => (between (between samples b e) dur.1 dur.2).map (·.2) := by
    intro ds
    simp only [thuputsDuring, filterTimeRange_between]
  simp only [linkThuputs, filterTimeRange_between, hlast, Py.ok_bind, filterLinkDuration_pieces, hduring]
  rfl

section Count
variable {xs : List (ℚ × Nat)} {t : ℚ} {i : Nat}

theorem count_selected (hnodup : (xs.map (·.2)).Nodup) (hmem : (t, i) ∈ xs) (p : ℚ → Prop) [DecidablePred p] :
    ((xs.filter fun x => p x.1).map (·.2)).count i = if p t then 1 else 0 := by
  have hsub : ((xs.filter fun x => p x.1).map (·.2)).Sublist (xs.map (·.2)) := List.filter_sublist.map _
  have hiff : i ∈ (xs.filter fun x => p x.1).map (·.2) ↔ p t := by
    simp only [List.mem_map, List.mem_filter, decide_eq_true_eq]
    constructor
    · intro h
      obtain ⟨x, ⟨hx, hin⟩, rfl⟩ := h
      have hxt : x.1 = t := congrArg Prod.fst (List.inj_on_of_nodup_map hnodup hx hmem rfl)
      rwa [hxt] at hin
    · exact fun hin => ⟨(t, i), ⟨hmem, hin⟩, rfl⟩
  rw [(hnodup.sublist hsub).count]
  simp only [hiff]

theorem count_between (hnodup : (xs.map (·.2)).Nodup) (hmem : (t, i) ∈ xs) (s e : ℚ) :
    ((between xs s e).map (·.2)).count i = if s ≤ t ∧ t ≤ e then 1 else 0 :=
  count_selected hnodup hmem fun t => s ≤ t ∧ t ≤ e

/-- **A sample is counted once for each piece of the link it lies in.** -/
theorem count_thuputsOn (hnodup : (xs.map (·.2)).Nodup) (hmem : (t, i) ∈ xs) (ps : List (Piece ℚ Nat)) (link : Nat) :
    (thuputsOn xs ps link).count i = ((covering t ps).filter (·.label = link)).length := by
  induction ps with
  | nil => rfl
  | cons p ps ih =>
    by_cases hlabel : p.label = link
    · have hcons : thuputsOn xs (p :: ps) link = (between xs p.first p.last).map (·.2) ++ thuputsOn xs ps link := by
        simp [thuputsOn, intervalsOf, hlabel]
      rw [hcons, List.count_append, count_between hnodup hmem, ih]
      by_cases hin : p.first ≤ t ∧ t ≤ p.last
      · rw [if_pos hin, covering_cons_in hin, List.filter_cons_of_pos (by simpa using hlabel), List.length_cons,
          Nat.add_comm]
      · rw [if_neg hin, covering_cons_out hin, Nat.zero_add]
    · have hcons : thuputsOn xs (p :: ps) link = thuputsOn xs ps link := by
        simp [thuputsOn, intervalsOf, hlabel]
      rw [hcons, ih]
      by_cases hin : p.first ≤ t ∧ t ≤ p.last
      · rw [covering_cons_in hin, List.filter_cons_of_neg (by simpa using hlabel)]
      · rw [covering_cons_out hin]

theorem thuputsOn_subset {α : Type} (samples : List (ℚ × α)) (ps : List (Piece ℚ Nat)) (link : Nat) :
    thuputsOn samples ps link ⊆ samples.map (·.2) := by
  intro x hx
  obtain ⟨dur, -, hx⟩ := List.mem_flatMap.mp hx
  exact (List.filter_sublist.map _).subset hx

/-- What is selected as often as the samples with a property is a rearrangement of them. -/
theorem perm_selected (hnodup : (xs.map (·.2)).Nodup) {is : List Nat}
    (hsub : is ⊆ xs.map (·.2)) {p : ℚ → Prop} [DecidablePred p]
    (hcount : ∀ t i, (t, i) ∈ xs → is.count i = if p t then 1 else 0) :
    is.Perm ((xs.filter fun s => p s.1).map (·.2)) := by
  rw [List.perm_iff_count]
  intro i
  by_cases hi : i ∈ xs.map (·.2)
  · obtain ⟨⟨t, i⟩, hmem, rfl⟩ := List.mem_map.mp hi
    rw [hcount t i hmem, count_selected hnodup hmem p]
  · have hnone : i ∉ (xs.filter fun s => p s.1).map (·.2) := fun h => hi ((List.filter_sublist.map _).subset h)
    rw [List.count_eq_zero.mpr fun h => hi (hsub h), List.count_eq_zero.mpr hnone]

end Count

/-! The link in use. -/

/-- Whatever the throughputs are, they are selected by their positions. -/
def LinkThuputs.map {α β : Type} (f : α → β) (r : LinkThuputs α) : LinkThuputs β :=
  ⟨r.sub6Thuputs.map f, r.mmwThuputs.map f⟩

theorem filterTimeRange_map {α β : Type} (f : α → β) (times : List ℚ) (data : List α) (s e : ℚ) :
    filterTimeRange times (data.map f) s e =
      ((filterTimeRange times data s e).1, (filterTimeRange times data s e).2.map f) := by
  rw [filterTimeRange, List.zip_map_right, List.filter_map]
  simp only [filterTimeRange, List.map_map]
  rfl

theorem linkThuputs_map {α β : Type} (f : α → β) (hoTimes : List ℚ) (targetLinks : List Nat) (times : List ℚ)
    (data : List α) (b e : ℚ) :
    linkThuputs hoTimes targetLinks times (data.map f) b e =
      (linkThuputs hoTimes targetLinks times data b e).map (LinkThuputs.map f) := by
  have hduring : ∀ (times : List ℚ) (data : List α) (ds : List (ℚ × ℚ)),
      thuputsDuring times (data.map f) ds = (thuputsDuring times data ds).map f := by
    intro times data ds
    simp only [thuputsDuring, filterTimeRange_map, List.map_flatMap]
  simp only [linkThuputs, filterTimeRange_map, hduring]
  rcases maxOf (filterTimeRange times data b e).1 with _ | last
  · rfl
  · simp only [Py.ok_bind]
    rcases filterLinkDuration (filterTimeRange hoTimes targetLinks b e).1 (filterTimeRange hoTimes targetLinks b e).2
      last 1 with _ | durations <;> rfl

/-- Each sample in range, given by its position, is counted once, and among the throughputs of the link that the last
    handover of the trace by its time selected, which is link 1 before all of them. -/
def Attributed (hos : List (ℚ × Nat)) (times : List ℚ) (b e : ℚ) : Prop :=
  ∀ i t, times[i]? = some t → b ≤ t → t ≤ e →
    ∃ r, linkThuputs (hos.map (·.1)) (hos.map (·.2)) times (List.range times.length) b e = .ok r ∧
      r.sub6Thuputs.count i = (if labelAt 1 hos t = 1 then 1 else 0) ∧
      r.mmwThuputs.count i = if labelAt 1 hos t = 2 then 1 else 0

/-- What makes a sample be counted once, for its link. -/
structure Attributable (hos : List (ℚ × Nat)) (b e t : ℚ) : Prop where
  /-- A handover in range precedes the sample, or the last one before the range was to link 1. -/
  known : (∃ h ∈ hos, b ≤ h.1 ∧ h.1 ≤ t) ∨ labelAfter 1 (hos.filter (·.1 < b)) = 1
  /-- The sample is not at a link change, but for the first one if it is before time 0. -/
  apart : ∀ h ∈ switches hos b e, h.1 = t → t < 0 ∧ ∀ h' ∈ switches hos b e, t ≤ h'.1
  /-- The sample is not before time 0 and all link changes. -/
  begun : 0 ≤ t ∨ ∃ h ∈ switches hos b e, h.1 ≤ t

theorem zip_range (times : List ℚ) :
    (times.zip (List.range times.length)).map (·.1) = times ∧
      (times.zip (List.range times.length)).map (·.2) = List.range times.length ∧
      ∀ t i, (t, i) ∈ times.zip (List.range times.length) ↔ times[i]? = some t := by
  have hlen : times.length = (List.range times.length).length := by rw [List.length_range]
  refine ⟨List.map_fst_zip hlen.le, List.map_snd_zip hlen.ge, fun t i => ?_⟩
  rw [List.mem_iff_getElem?]
  constructor
  · rintro ⟨j, hj⟩
    obtain ⟨ht, hi⟩ := List.getElem?_zip_eq_some.mp hj
    obtain ⟨hlt, rfl⟩ := List.getElem?_eq_some_iff.mp hi
    rwa [List.getElem_range]
  · intro ht
    have hlt : i < times.length := (List.getElem?_eq_some_iff.mp ht).1
    exact ⟨i, List.getElem?_zip_eq_some.mpr ⟨ht, by simp [hlt]⟩⟩

section Attributed
variable {hos : List (ℚ × Nat)} {b e t : ℚ}

theorem labelAt_between (hsorted : hos.Pairwise (·.1 < ·.1)) (hb : b ≤ t) (he : t ≤ e) :
    labelAt 1 (between hos b e) t = labelAt 1 hos t ↔
      (∃ h ∈ hos, b ≤ h.1 ∧ h.1 ≤ t) ∨ labelAfter 1 (hos.filter (·.1 < b)) = 1 := by
  have hrange := labelAt_range hsorted hb he 1
  have hlast : (∃ h ∈ between hos b e, h.1 ≤ t) ↔ ∃ h ∈ hos, b ≤ h.1 ∧ h.1 ≤ t := by
    simp only [between, List.mem_filter, decide_eq_true_eq]
    constructor
    · exact fun ⟨h, ⟨hh, hin⟩, hle⟩ => ⟨h, hh, hin.1, hle⟩
    · exact fun ⟨h, hh, hin⟩ => ⟨h, ⟨hh, hin.1, hin.2.trans he⟩, hin.2⟩
  rw [hrange, ← hlast, eq_comm (a := labelAfter _ _)]
  exact labelAt_eq_iff

/-- One piece, of link 1 or 2. -/
theorem counts_iff {ps : List (Piece ℚ Nat)} {x : Nat} (hlabels : ∀ p ∈ ps, p.label = 1 ∨ p.label = 2)
    (hx : x = 1 ∨ x = 2) :
    (ps.filter (·.label = 1)).length = (if x = 1 then 1 else 0) ∧
        (ps.filter (·.label = 2)).length = (if x = 2 then 1 else 0) ↔
      ∃ p, ps = [p] ∧ p.label = x := by
  constructor
  · intro ⟨h1, h2⟩
    have hother : ps.filter (·.label = 2) = ps.filter fun p => !decide (p.label = 1) := by
      refine List.filter_congr fun p hp => ?_
      obtain h | h := hlabels p hp <;> simp [h]
    have hlen := List.length_eq_length_filter_add (l := ps) (·.label = 1)
    rw [← hother, h1, h2] at hlen
    have hone : ps.length = 1 := by
      obtain rfl | rfl := hx <;> simpa using hlen
    obtain ⟨p, rfl⟩ := List.length_eq_one_iff.mp hone
    refine ⟨p, rfl, ?_⟩
    obtain h | h := hlabels p List.mem_cons_self <;> obtain rfl | rfl := hx <;> simp [h] at h1 ⊢
  · intro hone
    obtain ⟨p, rfl, rfl⟩ := hone
    obtain h | h := hx <;> simp [h]

/-- The samples in range that are counted once, for their link. -/
theorem attributed_sample (hsorted : hos.Pairwise (·.1 < ·.1)) (hlinks : ∀ h ∈ hos, h.2 = 1 ∨ h.2 = 2)
    {times : List ℚ} {i : Nat} (hi : times[i]? = some t) (hb : b ≤ t) (he : t ≤ e) :
    (∃ r, linkThuputs (hos.map (·.1)) (hos.map (·.2)) times (List.range times.length) b e = .ok r ∧
      r.sub6Thuputs.count i = (if labelAt 1 hos t = 1 then 1 else 0) ∧
      r.mmwThuputs.count i = if labelAt 1 hos t = 2 then 1 else 0) ↔ Attributable hos b e t := by
  obtain ⟨hfst, hsnd, hpos⟩ := zip_range times
  have hmem : (t, i) ∈ times.zip (List.range times.length) := (hpos t i).mpr hi
  have hnodup : ((times.zip (List.range times.length)).map (·.2)).Nodup := by
    rw [hsnd]
    exact List.nodup_range
  generalize times.zip (List.range times.length) = samples at hfst hsnd hmem hnodup
  have hin : (t, i) ∈ between samples b e := List.mem_filter.mpr ⟨hmem, by simpa using ⟨hb, he⟩⟩
  have hnodup' : ((between samples b e).map (·.2)).Nodup := hnodup.sublist (List.filter_sublist.map _)
  obtain ⟨last, hlast⟩ := maxOf_defined (List.ne_nil_of_mem (List.mem_map_of_mem (f := (·.1)) hin))
  have hle : t ≤ last := (maxOf_eq_ok.mp hlast).2 t (List.mem_map_of_mem (f := (·.1)) hin)
  have hrun := linkThuputs_pieces hos samples hlast
  rw [hfst, hsnd] at hrun
  -- the links of the pieces and of the sample
  have hin_hos : ∀ h ∈ switches hos b e, h ∈ hos := fun h hh =>
    (List.mem_filter.mp ((changes_sublist 1 _).subset hh)).1
  have hlabels : ∀ p ∈ covering t (linkPieces hos b e last), p.label = 1 ∨ p.label = 2 := by
    intro p hp
    obtain h | ⟨c, hc, h⟩ := label_pieces (List.mem_filter.mp hp).1
    · exact .inl h
    · rw [h]
      exact hlinks c (hin_hos c hc)
  have hx : labelAt 1 hos t = 1 ∨ labelAt 1 hos t = 2 := by
    obtain h | ⟨c, hc, h⟩ := labelAt_mem 1 hos t
    · exact .inl h
    · rw [h]
      exact hlinks c hc
  have hkept : (between hos b e).Pairwise (·.1 < ·.1) := hsorted.sublist List.filter_sublist
  have hsorted' : (switches hos b e).Pairwise (·.1 < ·.1) := hkept.sublist (changes_sublist 1 _)
  calc _ ↔ ∃ p, covering t (linkPieces hos b e last) = [p] ∧ p.label = labelAt 1 hos t := by
        rw [← counts_iff hlabels hx, ← count_thuputsOn hnodup' hin, ← count_thuputsOn hnodup' hin]
        constructor
        · intro ⟨r, hr, hcounts⟩
          obtain rfl := Except.ok.inj (hrun.symm.trans hr)
          exact hcounts
        · exact fun hcounts => ⟨_, hrun, hcounts⟩
    _ ↔ _ := by
        rw [linkPieces, covered_once_iff hsorted' hle, switches, labelAt_changes hkept,
          labelAt_between hsorted hb he]
        exact ⟨fun ⟨h, h', h''⟩ => ⟨h'', h, h'⟩, fun ⟨h, h', h''⟩ => ⟨h', h'', h⟩⟩

end Attributed

/-- **Every sample in range is counted once, for the link in use**, iff each is attributable. -/
theorem attributed_iff {hos : List (ℚ × Nat)} (hsorted : hos.Pairwise (·.1 < ·.1))
    (hlinks : ∀ h ∈ hos, h.2 = 1 ∨ h.2 = 2) (times : List ℚ) (b e : ℚ) :
    Attributed hos times b e ↔ ∀ t ∈ times, b ≤ t → t ≤ e → Attributable hos b e t := by
  constructor
  · intro h t ht hb he
    obtain ⟨i, hi⟩ := List.mem_iff_getElem?.mp ht
    exact (attributed_sample hsorted hlinks hi hb he).mp (h i t hi hb he)
  · intro h i t hi hb he
    exact (attributed_sample hsorted hlinks hi hb he).mpr (h t (List.mem_of_getElem? hi) hb he)

/-! The throughputs. -/

section Throughputs
variable {hos : List (ℚ × Nat)} {times : List ℚ} {b e : ℚ}

/-- The throughputs of the samples in range for which a link is in use. -/
def thuputsInUse {α : Type} (hos : List (ℚ × Nat)) (samples : List (ℚ × α)) (b e : ℚ) (link : Nat) : List α :=
  ((between samples b e).filter fun s => labelAt 1 hos s.1 = link).map (·.2)

theorem thuputsInUse_map {α β : Type} (f : α → β) (times : List ℚ) (thuputs : List α) (link : Nat) :
    thuputsInUse hos (times.zip (thuputs.map f)) b e link = (thuputsInUse hos (times.zip thuputs) b e link).map f := by
  simp only [thuputsInUse, between, List.zip_map_right, List.filter_map, List.map_map]
  rfl

theorem positions_attributed (h : Attributed hos times b e) (hrange : ∃ t ∈ times, b ≤ t ∧ t ≤ e) :
    ∃ r, linkThuputs (hos.map (·.1)) (hos.map (·.2)) times (List.range times.length) b e = .ok r ∧
      r.sub6Thuputs.Perm (thuputsInUse hos (times.zip (List.range times.length)) b e 1) ∧
      r.mmwThuputs.Perm (thuputsInUse hos (times.zip (List.range times.length)) b e 2) := by
  obtain ⟨hfst, hsnd, hmem⟩ := zip_range times
  have hnodup : ((times.zip (List.range times.length)).map (·.2)).Nodup := by
    rw [hsnd]
    exact List.nodup_range
  unfold Attributed at h
  generalize times.zip (List.range times.length) = samples at hfst hsnd hmem hnodup
  obtain ⟨last, hlast⟩ : ∃ last, maxOf ((between samples b e).map (·.1)) = .ok last := by
    obtain ⟨t, ht, hin⟩ := hrange
    obtain ⟨i, hi⟩ := List.mem_iff_getElem?.mp ht
    have hmem' : (t, i) ∈ between samples b e := List.mem_filter.mpr ⟨(hmem t i).mpr hi, by simpa using hin⟩
    exact maxOf_defined (List.ne_nil_of_mem (List.mem_map_of_mem (f := (·.1)) hmem'))
  have hrun := linkThuputs_pieces hos samples hlast
  rw [hfst, hsnd] at hrun
  have hnodup' : ((between samples b e).map (·.2)).Nodup := hnodup.sublist (List.filter_sublist.map _)
  have hcounts : ∀ t i, (t, i) ∈ between samples b e →
      (thuputsOn (between samples b e) (linkPieces hos b e last) 1).count i = (if labelAt 1 hos t = 1 then 1 else 0) ∧
      (thuputsOn (between samples b e) (linkPieces hos b e last) 2).count i = if labelAt 1 hos t = 2 then 1 else 0 := by
    intro t i hti
    obtain ⟨hti, hin⟩ := List.mem_filter.mp hti
    obtain ⟨hb, he⟩ := of_decide_eq_true hin
    obtain ⟨r, hr, hcount⟩ := h i t ((hmem t i).mp hti) hb he
    obtain rfl := Except.ok.inj (hrun.symm.trans hr)
    exact hcount
  exact ⟨_, hrun, perm_selected hnodup' (thuputsOn_subset _ _ _) fun t i hti => (hcounts t i hti).1,
    perm_selected hnodup' (thuputsOn_subset _ _ _) fun t i hti => (hcounts t i hti).2⟩

theorem exists_eq_map_range {α : Type} {xs : List α} (h : xs ≠ []) : ∃ f, xs = (List.range xs.length).map f := by
  obtain ⟨x, -⟩ := List.exists_mem_of_ne_nil xs h
  exact ⟨fun i => xs.getD i x, List.ext_getElem (by simp) fun i hi _ => by simp [hi]⟩

/-- **What is averaged.** If every sample in range is counted once, for the link in use, each link gets the throughputs
    of its samples. -/
theorem thuputs_attributed {α : Type} (h : Attributed hos times b e) {thuputs : List α}
    (hlen : thuputs.length = times.length) (hrange : ∃ t ∈ times, b ≤ t ∧ t ≤ e) :
    ∃ r, linkThuputs (hos.map (·.1)) (hos.map (·.2)) times thuputs b e = .ok r ∧
      r.sub6Thuputs.Perm (thuputsInUse hos (times.zip thuputs) b e 1) ∧
      r.mmwThuputs.Perm (thuputsInUse hos (times.zip thuputs) b e 2) := by
  obtain ⟨r, hr, hsub6, hmmw⟩ := positions_attributed h hrange
  have hne : thuputs ≠ [] := by
    obtain ⟨t, ht, -⟩ := hrange
    exact List.ne_nil_of_length_pos (hlen ▸ List.length_pos_of_mem ht)
  obtain ⟨f, hf⟩ := exists_eq_map_range hne
  rw [hlen] at hf
  rw [hf, linkThuputs_map, hr, thuputsInUse_map, thuputsInUse_map]
  exact ⟨_, rfl, hsub6.map f, hmmw.map f⟩

end Throughputs

/-! A handover at 3 s, from link 1 to link 2. -/

/-- A sample at the handover is counted twice, and one after it for link 1 if the range begins at 5 s. -/
theorem misattributed :
    (linkThuputs [3] [2] [1, 3, 6] [0, 1, 2] 0 10).map (fun r => (r.sub6Thuputs, r.mmwThuputs)) =
        .ok (([0, 1], [1, 2]) : List Nat × List Nat) ∧
      (linkThuputs [3] [2] [1, 3, 6] [0, 1, 2] 5 10).map (fun r => (r.sub6Thuputs, r.mmwThuputs)) =
        .ok (([2], []) : List Nat × List Nat) ∧
      ¬ Attributed [(3, 2)] [1, 3, 6] 0 10 ∧ ¬ Attributed [(3, 2)] [1, 3, 6] 5 10 := by
  have htwice : (linkThuputs [3] [2] [1, 3, 6] [0, 1, 2] 0 10).map (fun r => (r.sub6Thuputs, r.mmwThuputs)) =
      .ok (([0, 1], [1, 2]) : List Nat × List Nat) := by decide +kernel
  have hlost : (linkThuputs [3] [2] [1, 3, 6] [0, 1, 2] 5 10).map (fun r => (r.sub6Thuputs, r.mmwThuputs)) =
      .ok (([2], []) : List Nat × List Nat) := by decide +kernel
  refine ⟨htwice, hlost, fun h => ?_, fun h => ?_⟩
  · obtain ⟨r, hr, hcount, -⟩ := h 1 3 rfl (by decide +kernel) (by decide +kernel)
    have hrun : linkThuputs [3] [2] [1, 3, 6] [0, 1, 2] 0 10 = .ok r := hr
    rw [hrun] at htwice
    have hsub6 : r.sub6Thuputs = [0, 1] := congrArg Prod.fst (Except.ok.inj htwice)
    rw [hsub6] at hcount
    revert hcount
    decide +kernel
  · obtain ⟨r, hr, -, hcount⟩ := h 2 6 rfl (by decide +kernel) (by decide +kernel)
    have hrun : linkThuputs [3] [2] [1, 3, 6] [0, 1, 2] 5 10 = .ok r := hr
    rw [hrun] at hlost
    have hmmw : r.mmwThuputs = [] := congrArg Prod.snd (Except.ok.inj hlost)
    rw [hmmw] at hcount
    revert hcount
    decide +kernel

theorem attributed_iff_two : Attributed [(3, 2), (4, 2), (7, 1)] [1, 5, 8] 0 10 := by
  have hswitches : switches [(3, 2), (4, 2), (7, 1)] 0 10 = [(3, 2), (7, 1)] := by decide +kernel
  refine (attributed_iff ?_ ?_ _ _ _).mpr fun t ht hb _ => ⟨.inr (by decide +kernel), ?_, .inl hb⟩
  · decide +kernel
  · decide
  · rw [hswitches]
    simp only [List.mem_cons, List.not_mem_nil, or_false] at ht ⊢
    rintro h (rfl | rfl) heq <;> obtain rfl | rfl | rfl := ht <;> norm_num at heq

end Handoff
