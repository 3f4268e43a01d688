import Mathlib.Data.List.Infix
import Mathlib.Data.List.TakeWhile
import Mathlib.Tactic.Common

/- Scanning a text for a pattern that starts with a fixed word.

   A pattern is a list of pieces: single characters, and captured runs of one or more characters of a class.
   `matchAt` matches one at the front of a text, each run as long as it can be, and gives back from the end of a run
   when the rest does not match. `findAll` looks for the matches from left to right, none overlapping another, as
   regular-expression libraries do. No match starts in a stretch without the word, if a character that is not in the
   word follows the stretch (`findAll_skip`). -/
namespace Scan

/-- A piece of a pattern. -/
inductive Piece (α : Type) where
  | lit (c : α)
  | run (p : α → Bool)

variable {α : Type} [DecidableEq α]

/-- The runs of the match at the front of a text, and what follows the match. -/
def matchAt : List (Piece α) → List α → Option (List (List α) × List α)
  | [], s => some ([], s)
  | .lit _ :: _, [] => none
  | .lit c :: ps, x :: s => if x = c then matchAt ps s else none
  | .run p :: ps, s =>
    (List.range (s.takeWhile p).length).reverse.findSome? fun k =>
      (matchAt ps (s.drop (k + 1))).map fun r => (s.take (k + 1) :: r.1, r.2)

/-- The runs of the matches in a text after its first `k` characters. -/
def findAllFrom (ps : List (Piece α)) : Nat → List α → List (List (List α))
  | _, [] => []
  | k + 1, _ :: s => findAllFrom ps k s
  | 0, x :: s =>
    match matchAt ps (x :: s) with
    | none => findAllFrom ps 0 s
    | some (runs, rest) => runs :: findAllFrom ps (s.length - rest.length) s

def findAll (ps : List (Piece α)) (s : List α) : List (List (List α)) := findAllFrom ps 0 s

/-- The pieces of a word. -/
def word (w : List α) : List (Piece α) := w.map .lit

section Match
variable {w s t rest : List α} {ps : List (Piece α)} {p : α → Bool} {runs : List (List α)}

theorem matchAt_suffix (h : matchAt ps s = some (runs, rest)) : rest <:+ s := by
  induction ps generalizing s runs with
  | nil =>
    cases h
    exact List.suffix_refl _
  | cons piece ps ih =>
    cases piece with
    | lit c =>
      cases s with
      | nil => cases h
      | cons x s =>
        rw [matchAt] at h
        split at h
        · exact (ih h).trans (List.suffix_cons x s)
        · cases h
    | run p =>
      obtain ⟨k, -, hk⟩ := List.exists_of_findSome?_eq_some h
      obtain ⟨r, hr, hrest⟩ := Option.map_eq_some_iff.mp hk
      cases hrest
      exact (ih hr).trans (List.drop_suffix (k + 1) s)

@[simp] theorem matchAt_lit (c : α) (ps : List (Piece α)) (s : List α) : matchAt (.lit c :: ps) (c :: s) = matchAt ps s :=
  if_pos rfl

theorem matchAt_word (w : List α) (ps : List (Piece α)) (s : List α) :
    matchAt (word w ++ ps) (w ++ s) = matchAt ps s := by
  induction w with
  | nil => rfl
  | cons c w ih => exact (matchAt_lit c _ _).trans ih

theorem matchAt_word_none (h : ¬ w <+: s) : matchAt (word w ++ ps) s = none := by
  induction w generalizing s with
  | nil => exact absurd (List.nil_prefix) h
  | cons c w ih =>
    cases s with
    | nil => rfl
    | cons x s =>
      show (if x = c then matchAt (word w ++ ps) s else none) = none
      split
      · next hx =>
        subst hx
        exact ih fun hw => h (List.cons_prefix_cons.mpr ⟨rfl, hw⟩)
      · rfl

/-- A run takes all the characters of its class, if the rest matches then. -/
theorem matchAt_run {xs : List α} (hne : xs ≠ []) (hxs : ∀ x ∈ xs, p x) (ht : ∀ x ∈ t.head?, ¬ p x)
    (h : matchAt ps t = some (runs, rest)) : matchAt (.run p :: ps) (xs ++ t) = some (xs :: runs, rest) := by
  have htake : (xs ++ t).takeWhile p = xs := by
    rw [List.takeWhile_append_of_pos hxs]
    rcases t with _ | ⟨y, t⟩
    · simp
    · simp [List.takeWhile_cons_of_neg (ht y rfl)]
  obtain ⟨n, hn⟩ : ∃ n, xs.length = n + 1 := Nat.exists_eq_add_one_of_ne_zero (by simpa using hne)
  -- the longest run comes first
  rw [matchAt, htake, hn, List.range_succ, List.reverse_append, List.reverse_singleton, List.singleton_append,
    List.findSome?_cons]
  rw [← hn, List.take_left, List.drop_left, h]
  rfl

end Match

section Find
variable {w a b s rest : List α} {ps : List (Piece α)} {runs : List (List α)} {c x : α}

theorem findAllFrom_drop (ps : List (Piece α)) (k : Nat) (s : List α) :
    findAllFrom ps k s = findAll ps (s.drop k) := by
  induction k generalizing s with
  | zero => rfl
  | succ k ih =>
    cases s with
    | nil => rfl
    | cons x s => exact ih s

theorem findAll_miss (h : matchAt ps (x :: s) = none) : findAll ps (x :: s) = findAll ps s := by
  rw [findAll, findAllFrom, h]
  rfl

/-- After a match the scan goes on where it ends. -/
theorem findAll_match (h : matchAt ps (x :: s) = some (runs, rest)) (hrest : rest <:+ s) :
    findAll ps (x :: s) = runs :: findAll ps rest := by
  rw [findAll, findAllFrom, h]
  show runs :: findAllFrom ps (s.length - rest.length) s = _
  rw [findAllFrom_drop, ← List.suffix_iff_eq_drop.mp hrest]

theorem findAll_word (hne : w ≠ []) (h : matchAt ps s = some (runs, rest)) :
    findAll (word w ++ ps) (w ++ s) = runs :: findAll (word w ++ ps) rest := by
  obtain ⟨c, w, rfl⟩ := List.exists_cons_of_ne_nil hne
  exact findAll_match ((matchAt_word _ ps s).trans h) ((matchAt_suffix h).trans (List.suffix_append w s))

omit [DecidableEq α] in
theorem prefix_of_append_cons (hc : c ∉ w) (h : w <+: a ++ c :: b) : w <+: a := by
  obtain hle | hle := Nat.le_total w.length a.length
  · exact List.prefix_of_prefix_length_le h (List.prefix_append _ _) hle
  · -- a word that reaches beyond the stretch has the character after it
    obtain ⟨d, rfl⟩ := List.prefix_of_prefix_length_le (List.prefix_append a (c :: b)) h hle
    rw [List.prefix_append_right_inj] at h
    cases d with
    | nil => rw [List.append_nil]
    | cons x d =>
      obtain ⟨rfl, -⟩ := List.cons_prefix_cons.mp h
      exact absurd (by simp) hc

/-- **No match starts in a stretch without the word.** -/
theorem findAll_skip (hne : w ≠ []) (hc : c ∉ w) (ha : ¬ w <:+: a) :
    findAll (word w ++ ps) (a ++ c :: b) = findAll (word w ++ ps) b := by
  induction a with
  | nil =>
    apply findAll_miss
    apply matchAt_word_none
    intro hw
    exact hne (List.prefix_nil.mp (prefix_of_append_cons (a := []) hc hw))
  | cons x a ih =>
    have hmiss : matchAt (word w ++ ps) (x :: (a ++ c :: b)) = none :=
      matchAt_word_none fun hw => ha (prefix_of_append_cons (a := x :: a) hc hw).isInfix
    rw [List.cons_append, findAll_miss hmiss]
    exact ih fun hw => ha (hw.trans (List.suffix_cons x a).isInfix)

end Find

end Scan
