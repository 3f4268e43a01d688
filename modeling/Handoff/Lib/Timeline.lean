import Mathlib.Order.Lattice
import Mathlib.Tactic.Common

/- A label that changes over time.

   A timeline is a first label and a list of changes `(time, label)`. `labelAt` is the label at a time. `changes` drops
   the changes that change nothing, which moves no label (`labelAt_changes`). `pieces` cuts the time from a start to an
   end into closed intervals of one label; `covered_once_iff` says which times lie in exactly one of them, and that it
   has the label of the time. -/
namespace Timeline

variable {T L : Type*}

/-! Labels. -/

/-- The label after some changes. -/
def labelAfter (l : L) (cs : List (T × L)) : L := (cs.getLast?.map Prod.snd).getD l

@[simp] theorem labelAfter_nil (l : L) : labelAfter l ([] : List (T × L)) = l := rfl

@[simp] theorem labelAfter_cons (l : L) (c : T × L) (cs : List (T × L)) :
    labelAfter l (c :: cs) = labelAfter c.2 cs := by
  rw [labelAfter, labelAfter, List.getLast?_cons]
  rcases cs.getLast? with _ | c' <;> rfl

theorem labelAfter_append (l : L) (cs cs' : List (T × L)) :
    labelAfter l (cs ++ cs') = labelAfter (labelAfter l cs) cs' := by
  induction cs generalizing l with
  | nil => rfl
  | cons c cs ih => rw [List.cons_append, labelAfter_cons, labelAfter_cons, ih]

theorem labelAfter_mem (l : L) (cs : List (T × L)) : labelAfter l cs = l ∨ ∃ c ∈ cs, labelAfter l cs = c.2 := by
  induction cs generalizing l with
  | nil => exact .inl rfl
  | cons c cs ih =>
    rw [labelAfter_cons]
    obtain h | ⟨c', hc', h⟩ := ih c.2
    · exact .inr ⟨c, List.mem_cons_self, h⟩
    · exact .inr ⟨c', List.mem_cons_of_mem _ hc', h⟩

section At
variable [LinearOrder T]

/-- The label at a time: that of the last change by then. -/
def labelAt (l : L) (cs : List (T × L)) (t : T) : L := labelAfter l (cs.filter (·.1 ≤ t))

variable {l : L} {c : T × L} {cs : List (T × L)} {t : T}

theorem labelAt_cons_le (h : c.1 ≤ t) : labelAt l (c :: cs) t = labelAt c.2 cs t := by
  rw [labelAt, List.filter_cons_of_pos (by simpa using h), labelAfter_cons, labelAt]

theorem labelAt_cons_gt (h : t < c.1) : labelAt l (c :: cs) t = labelAt l cs t := by
  rw [labelAt, List.filter_cons_of_neg (by simpa using h), labelAt]

theorem labelAt_mem (l : L) (cs : List (T × L)) (t : T) : labelAt l cs t = l ∨ ∃ c ∈ cs, labelAt l cs t = c.2 :=
  (labelAfter_mem l _).imp_right fun ⟨c, hc, h⟩ => ⟨c, (List.mem_filter.mp hc).1, h⟩

theorem labelAt_late (h : ∀ c ∈ cs, t < c.1) : labelAt l cs t = l := by
  have hnone : cs.filter (·.1 ≤ t) = [] := List.filter_eq_nil_iff.mpr fun c hc => by simpa using h c hc
  rw [labelAt, hnone, labelAfter_nil]

theorem labelAt_eq_iff {l' : L} : labelAt l cs t = labelAt l' cs t ↔ (∃ c ∈ cs, c.1 ≤ t) ∨ l = l' := by
  rcases h : cs.filter (·.1 ≤ t) with _ | ⟨c, rest⟩
  · have hlate : ¬ ∃ c ∈ cs, c.1 ≤ t := fun ⟨c, hc, hle⟩ => by simpa [hle] using List.filter_eq_nil_iff.mp h c hc
    rw [labelAt, labelAt, h, labelAfter_nil, labelAfter_nil, or_iff_right hlate]
  · have hc : c ∈ cs.filter (·.1 ≤ t) := by rw [h]; exact List.mem_cons_self
    have hle : ∃ c ∈ cs, c.1 ≤ t := ⟨c, (List.mem_filter.mp hc).1, by simpa using (List.mem_filter.mp hc).2⟩
    rw [labelAt, labelAt, h, labelAfter_cons, labelAfter_cons]
    exact ⟨fun _ => .inl hle, fun _ => rfl⟩

theorem filter_split (hsorted : cs.Pairwise (·.1 < ·.1)) (b : T) :
    cs = cs.filter (·.1 < b) ++ cs.filter (b ≤ ·.1) := by
  induction cs with
  | nil => rfl
  | cons c cs ih =>
    obtain ⟨hc, hcs⟩ := List.pairwise_cons.mp hsorted
    by_cases hb : c.1 < b
    · rw [List.filter_cons_of_pos (by simpa using hb), List.filter_cons_of_neg (by simpa using hb), List.cons_append,
        ← ih hcs]
    · have hle := not_lt.mp hb
      have hlate : ∀ c' ∈ cs, b ≤ c'.1 := fun c' hc' => hle.trans (hc c' hc').le
      rw [List.filter_cons_of_neg (by simpa using hb), List.filter_cons_of_pos (by simpa using hle),
        List.filter_eq_nil_iff.mpr fun c' hc' => by simpa using hlate c' hc',
        List.filter_eq_self.mpr fun c' hc' => by simpa using hlate c' hc', List.nil_append]

/-- The label at a time in a range, from the changes in the range and the label before it. -/
theorem labelAt_range (hsorted : cs.Pairwise (·.1 < ·.1)) {b e : T} (hb : b ≤ t) (he : t ≤ e) (l : L) :
    labelAt l cs t = labelAt (labelAfter l (cs.filter (·.1 < b))) (cs.filter fun c => b ≤ c.1 ∧ c.1 ≤ e) t := by
  have hearly : (cs.filter (·.1 ≤ t)).filter (·.1 < b) = cs.filter (·.1 < b) := by
    rw [List.filter_filter]
    refine List.filter_congr fun c _ => ?_
    simpa using fun h : c.1 < b => (h.trans_le hb).le
  have hlate : (cs.filter (·.1 ≤ t)).filter (b ≤ ·.1) = (cs.filter fun c => b ≤ c.1 ∧ c.1 ≤ e).filter (·.1 ≤ t) := by
    rw [List.filter_filter, List.filter_filter]
    refine List.filter_congr fun c _ => ?_
    have hiff : b ≤ c.1 ∧ c.1 ≤ t ↔ c.1 ≤ t ∧ b ≤ c.1 ∧ c.1 ≤ e :=
      ⟨fun ⟨h, h'⟩ => ⟨h', h, h'.trans he⟩, fun ⟨h, h', _⟩ => ⟨h', h⟩⟩
    rw [Bool.eq_iff_iff]
    simpa using hiff
  rw [labelAt, filter_split (hsorted.sublist List.filter_sublist) b, labelAfter_append, hearly, hlate, labelAt]

end At

/-! Changes. -/

section Changes
variable [DecidableEq L]

/-- The changes to another label. -/
def changes : L → List (T × L) → List (T × L)
  | _, [] => []
  | l, c :: cs => if c.2 = l then changes l cs else c :: changes c.2 cs

theorem changes_sublist (l : L) (cs : List (T × L)) : (changes l cs).Sublist cs := by
  induction cs generalizing l with
  | nil => exact List.Sublist.slnil
  | cons c cs ih =>
    rw [changes]
    split
    · exact (ih l).cons c
    · exact (ih c.2).cons_cons c

theorem labelAfter_changes (l : L) (cs : List (T × L)) : labelAfter l (changes l cs) = labelAfter l cs := by
  induction cs generalizing l with
  | nil => rfl
  | cons c cs ih =>
    rw [changes, labelAfter_cons]
    split
    · next h => rw [ih, h]
    · rw [labelAfter_cons, ih]

theorem changes_snoc (l : L) (cs : List (T × L)) (c : T × L) :
    changes l (cs ++ [c]) = changes l cs ++ if c.2 = labelAfter l cs then [] else [c] := by
  induction cs generalizing l with
  | nil => rfl
  | cons c' cs ih =>
    rw [List.cons_append, changes, changes, labelAfter_cons]
    split
    · next h => rw [ih, h]
    · rw [ih, List.cons_append]

theorem labelAt_changes [LinearOrder T] {cs : List (T × L)} (hsorted : cs.Pairwise (·.1 < ·.1)) (l : L) (t : T) :
    labelAt l (changes l cs) t = labelAt l cs t := by
  induction cs generalizing l with
  | nil => rfl
  | cons c cs ih =>
    obtain ⟨hc, hcs⟩ := List.pairwise_cons.mp hsorted
    rw [changes]
    by_cases ht : c.1 ≤ t
    · rw [labelAt_cons_le ht]
      split
      · next h => rw [ih hcs, h]
      · rw [labelAt_cons_le ht, ih hcs]
    · have hlate : ∀ c' ∈ c :: cs, t < c'.1 := by
        intro c' hc'
        obtain rfl | hc' := List.mem_cons.mp hc'
        · exact not_le.mp ht
        · exact (not_le.mp ht).trans (hc c' hc')
      have hlate' : ∀ c' ∈ changes l (c :: cs), t < c'.1 := fun c' hc' =>
        hlate c' ((changes_sublist l (c :: cs)).subset hc')
      rw [changes] at hlate'
      rw [labelAt_late hlate, labelAt_late hlate']

end Changes

/-! Pieces. -/

/-- A closed interval of time and its label. -/
structure Piece (T L : Type*) where
  label : L
  first : T
  last : T

/-- The time from `a` to `e`, cut at the changes. -/
def pieces (l : L) (a : T) : List (T × L) → T → List (Piece T L)
  | [], e => [⟨l, a, e⟩]
  | c :: cs, e => ⟨l, a, c.1⟩ :: pieces c.2 c.1 cs e

theorem pieces_snoc (l : L) (a : T) (cs : List (T × L)) (c : T × L) (e : T) :
    pieces l a (cs ++ [c]) e = pieces l a cs c.1 ++ [⟨c.2, c.1, e⟩] := by
  induction cs generalizing l a with
  | nil => rfl
  | cons c' cs ih => rw [List.cons_append, pieces, pieces, ih, List.cons_append]

theorem pieces_last (l : L) (a : T) (cs : List (T × L)) :
    ∃ ps s, ∀ e, pieces l a cs e = ps ++ [⟨labelAfter l cs, s, e⟩] := by
  induction cs generalizing l a with
  | nil => exact ⟨[], a, fun _ => rfl⟩
  | cons c cs ih =>
    obtain ⟨ps, s, h⟩ := ih c.2 c.1
    exact ⟨⟨l, a, c.1⟩ :: ps, s, fun e => by rw [pieces, h, labelAfter_cons, List.cons_append]⟩

theorem label_pieces {l : L} {a : T} {cs : List (T × L)} {e : T} {p : Piece T L} (h : p ∈ pieces l a cs e) :
    p.label = l ∨ ∃ c ∈ cs, p.label = c.2 := by
  induction cs generalizing l a with
  | nil =>
    rw [pieces, List.mem_singleton] at h
    exact .inl (by rw [h])
  | cons c cs ih =>
    rw [pieces] at h
    obtain rfl | h := List.mem_cons.mp h
    · exact .inl rfl
    · refine .inr ?_
      obtain hc | ⟨c', hc', hlabel⟩ := ih h
      · exact ⟨c, List.mem_cons_self, hc⟩
      · exact ⟨c', List.mem_cons_of_mem _ hc', hlabel⟩

section Steps
variable [DecidableEq L]

/-- The changes, each with the labels before and after it. -/
def steps : L → List (T × L) → List (T × L × L)
  | _, [] => []
  | l, c :: cs => (c.1, l, c.2) :: steps c.2 cs

omit [DecidableEq L] in
theorem steps_times (l : L) (cs : List (T × L)) : (steps l cs).map (·.1) = cs.map (·.1) := by
  induction cs generalizing l with
  | nil => rfl
  | cons c cs ih => rw [steps, List.map_cons, List.map_cons, ih]

theorem pieces_first (x l : L) (a : T) (cs : List (T × L)) (e : T) :
    ((pieces l a (changes l cs) e).filter (·.label = x)).map (·.first) =
      (if l = x then [a] else []) ++ ((steps l cs).filter fun s => s.2.1 ≠ s.2.2 ∧ s.2.2 = x).map (·.1) := by
  induction cs generalizing l a with
  | nil => by_cases hx : l = x <;> simp [changes, pieces, steps, hx]
  | cons c cs ih =>
    rw [changes, steps]
    by_cases hsame : c.2 = l
    · rw [if_pos hsame, ih l a, List.filter_cons_of_neg (by simp [hsame]), hsame]
    · rw [if_neg hsame, pieces]
      by_cases hx : l = x
      · subst hx
        rw [List.filter_cons_of_pos (by simp), List.map_cons, ih c.2 c.1, if_neg hsame,
          List.filter_cons_of_neg (by simp [hsame]), if_pos rfl]
        rfl
      · rw [List.filter_cons_of_neg (by simpa using hx), ih c.2 c.1, if_neg hx]
        by_cases hc : c.2 = x
        · rw [if_pos hc, List.filter_cons_of_pos (by simp [hc, hx])]
          rfl
        · rw [if_neg hc, List.filter_cons_of_neg (by simp [hc])]

theorem pieces_end (x l : L) (a : T) (cs : List (T × L)) (e : T) :
    ((pieces l a (changes l cs) e).filter (·.label = x)).map (·.last) =
      ((steps l cs).filter fun s => s.2.1 ≠ s.2.2 ∧ s.2.1 = x).map (·.1) ++ if labelAfter l cs = x then [e] else [] := by
  induction cs generalizing l a with
  | nil => by_cases hx : l = x <;> simp [changes, pieces, steps, hx]
  | cons c cs ih =>
    rw [changes, steps, labelAfter_cons]
    by_cases hsame : c.2 = l
    · rw [if_pos hsame, ih l a, List.filter_cons_of_neg (by simp [hsame]), hsame]
    · rw [if_neg hsame, pieces]
      by_cases hx : l = x
      · rw [List.filter_cons_of_pos (by simpa using hx), List.map_cons, ih c.2 c.1,
          List.filter_cons_of_pos (by simp [hx, hx ▸ Ne.symm hsame])]
        rfl
      · rw [List.filter_cons_of_neg (by simpa using hx), ih c.2 c.1, List.filter_cons_of_neg (by simp [hx])]

end Steps

section Covering
variable [LinearOrder T]

/-- The pieces a time lies in. -/
def covering (t : T) (ps : List (Piece T L)) : List (Piece T L) := ps.filter fun p => p.first ≤ t ∧ t ≤ p.last

variable {l x : L} {a e t : T} {c : T × L} {cs : List (T × L)}

theorem covering_cons_in {p : Piece T L} {ps : List (Piece T L)} (h : p.first ≤ t ∧ t ≤ p.last) :
    covering t (p :: ps) = p :: covering t ps := List.filter_cons_of_pos (by simpa using h)

theorem covering_cons_out {p : Piece T L} {ps : List (Piece T L)} (h : ¬ (p.first ≤ t ∧ t ≤ p.last)) :
    covering t (p :: ps) = covering t ps := List.filter_cons_of_neg (by simpa using h)

theorem covering_late (ha : t < a) (h : ∀ c ∈ cs, t < c.1) : covering t (pieces l a cs e) = [] := by
  induction cs generalizing l a with
  | nil => exact covering_cons_out fun hin => absurd hin.1 (not_le.mpr ha)
  | cons c cs ih =>
    rw [pieces, covering_cons_out fun hin => absurd hin.1 (not_le.mpr ha)]
    exact ih (h c List.mem_cons_self) fun c' hc' => h c' (List.mem_cons_of_mem _ hc')

/-- A time from the start on lies in one piece, or, at a change, in two. -/
theorem covering_within (hsorted : cs.Pairwise (·.1 < ·.1)) (ha : a ≤ t) (he : t ≤ e) :
    (∃ p, covering t (pieces l a cs e) = [p] ∧ p.label = x) ↔ (∀ c ∈ cs, c.1 ≠ t) ∧ labelAt l cs t = x := by
  induction cs generalizing l a x with
  | nil =>
    rw [pieces, covering_cons_in ⟨ha, he⟩]
    constructor
    · intro hone
      obtain ⟨p, hp, rfl⟩ := hone
      cases hp
      exact ⟨nofun, rfl⟩
    · intro ⟨_, hx⟩
      exact ⟨_, rfl, hx⟩
  | cons c cs ih =>
    obtain ⟨hc, hcs⟩ := List.pairwise_cons.mp hsorted
    rw [pieces]
    obtain hlt | rfl | hgt := lt_trichotomy t c.1
    · -- before the change: in the first piece
      have hlate : ∀ c' ∈ cs, t < c'.1 := fun c' hc' => hlt.trans (hc c' hc')
      rw [covering_cons_in ⟨ha, hlt.le⟩, covering_late hlt hlate, labelAt_cons_gt hlt, labelAt_late hlate]
      constructor
      · intro hone
        obtain ⟨p, hp, rfl⟩ := hone
        cases hp
        refine ⟨fun c' hc' => ?_, rfl⟩
        obtain rfl | hc' := List.mem_cons.mp hc'
        · exact hlt.ne'
        · exact (hlate c' hc').ne'
      · intro ⟨_, hx⟩
        exact ⟨_, rfl, hx⟩
    · -- at the change: in the first piece, and in one after it
      obtain ⟨p', hp', -⟩ := (ih (l := c.2) (x := labelAt c.2 cs c.1) hcs (le_refl _)).mpr ⟨fun c' hc' => (hc c' hc').ne', rfl⟩
      rw [covering_cons_in (p := ⟨l, a, c.1⟩) ⟨ha, le_refl _⟩, hp']
      constructor
      · intro hone
        obtain ⟨p, hp, -⟩ := hone
        cases hp
      · exact fun ⟨h, _⟩ => absurd rfl (h c List.mem_cons_self)
    · -- after the change
      rw [covering_cons_out fun hin => absurd hin.2 (not_le.mpr hgt), labelAt_cons_le hgt.le, ih hcs hgt.le]
      refine and_congr_left fun _ => ⟨fun h c' hc' => ?_, fun h c' hc' => h c' (List.mem_cons_of_mem _ hc')⟩
      obtain rfl | hc' := List.mem_cons.mp hc'
      · exact hgt.ne
      · exact h c' hc'

/-- **A time lies in exactly one piece** iff it is no change (but for the first one, before the start) and is not
    before all of them; and that piece has its label. -/
theorem covered_once_iff (hsorted : cs.Pairwise (·.1 < ·.1)) (he : t ≤ e) :
    (∃ p, covering t (pieces l a cs e) = [p] ∧ p.label = x) ↔
      (∀ c ∈ cs, c.1 = t → t < a ∧ ∀ c' ∈ cs, t ≤ c'.1) ∧ (a ≤ t ∨ ∃ c ∈ cs, c.1 ≤ t) ∧ labelAt l cs t = x := by
  obtain ha | ha := le_or_gt a t
  · rw [covering_within hsorted ha he]
    constructor
    · exact fun ⟨hne, hx⟩ => ⟨fun c hc heq => absurd heq (hne c hc), .inl ha, hx⟩
    · exact fun ⟨hne, _, hx⟩ => ⟨fun c hc heq => absurd (hne c hc heq).1 (not_lt.mpr ha), hx⟩
  · rcases cs with _ | ⟨c, cs⟩
    · rw [covering_late ha (List.forall_mem_nil _)]
      constructor
      · intro hone
        obtain ⟨p, hp, -⟩ := hone
        cases hp
      · intro hin
        obtain ⟨-, h | ⟨c, hc, -⟩, -⟩ := hin
        · exact absurd h (not_le.mpr ha)
        · cases hc
    · obtain ⟨hc, hcs⟩ := List.pairwise_cons.mp hsorted
      have hle : ∀ c' ∈ c :: cs, c.1 ≤ c'.1 := by
        intro c' hc'
        obtain rfl | hc' := List.mem_cons.mp hc'
        · exact le_refl _
        · exact (hc c' hc').le
      rw [pieces, covering_cons_out fun hin => absurd hin.1 (not_le.mpr ha)]
      obtain hlt | hct := lt_or_ge t c.1
      · rw [covering_late hlt fun c' hc' => hlt.trans (hc c' hc')]
        constructor
        · intro hone
          obtain ⟨p, hp, -⟩ := hone
          cases hp
        · intro hin
          obtain ⟨-, h | ⟨c', hc', h⟩, -⟩ := hin
          · exact absurd h (not_le.mpr ha)
          · exact absurd (hlt.trans_le (hle c' hc')) h.not_gt
      · rw [covering_within hcs hct he, labelAt_cons_le hct]
        constructor
        · intro ⟨hne, hx⟩
          refine ⟨fun c' hc' heq => ⟨ha, ?_⟩, .inr ⟨c, List.mem_cons_self, hct⟩, hx⟩
          obtain rfl | hc' := List.mem_cons.mp hc'
          · rwa [← heq]
          · exact absurd heq (hne c' hc')
        · intro ⟨hfirst, _, hx⟩
          refine ⟨fun c' hc' heq => ?_, hx⟩
          have hle' := (hfirst c' (List.mem_cons_of_mem _ hc') heq).2 c List.mem_cons_self
          exact absurd (hc c' hc') (not_lt.mpr (heq ▸ hle'))

end Covering

end Timeline
