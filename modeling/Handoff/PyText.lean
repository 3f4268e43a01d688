import Handoff.Python
import Handoff.TraceFile
import Mathlib.Data.List.DropRight

/- Python's text: the decimal digits and the white space of Unicode, `int` of a string, and a file opened in text
   mode, whose line endings are all read as newlines. The interpreter's cap on the number of digits is left out. -/
namespace Handoff

/-! Numbers. -/

/-- The zeros of the decimal digits (the category `Nd`); the other nine digits follow each. -/
def decimalZeros : List Nat :=
  [0x30, 0x660, 0x6f0, 0x7c0, 0x966, 0x9e6, 0xa66, 0xae6, 0xb66, 0xbe6, 0xc66, 0xce6, 0xd66, 0xde6, 0xe50, 0xed0,
    0xf20, 0x1040, 0x1090, 0x17e0, 0x1810, 0x1946, 0x19d0, 0x1a80, 0x1a90, 0x1b50, 0x1bb0, 0x1c40, 0x1c50, 0xa620,
    0xa8d0, 0xa900, 0xa9d0, 0xa9f0, 0xaa50, 0xabf0, 0xff10, 0x104a0, 0x10d30, 0x11066, 0x110f0, 0x11136, 0x111d0,
    0x112f0, 0x11450, 0x114d0, 0x11650, 0x116c0, 0x11730, 0x118e0, 0x11950, 0x11c50, 0x11d50, 0x11da0, 0x16a60,
    0x16ac0, 0x16b50, 0x1d7ce, 0x1d7d8, 0x1d7e2, 0x1d7ec, 0x1d7f6, 0x1e140, 0x1e2f0, 0x1e950, 0x1fbf0]

def decimalDigit (c : Char) : Option Nat :=
  (decimalZeros.find? fun z => z ≤ c.toNat && c.toNat ≤ z + 9).map (c.toNat - ·)

/-- `\d`. -/
def isDecimal (c : Char) : Bool := (decimalDigit c).isSome

/-- `str.isspace`. -/
def isPySpace (c : Char) : Bool :=
  [0x9, 0xa, 0xb, 0xc, 0xd, 0x1c, 0x1d, 0x1e, 0x1f, 0x20, 0x85, 0xa0, 0x1680, 0x2000, 0x2001, 0x2002, 0x2003, 0x2004,
    0x2005, 0x2006, 0x2007, 0x2008, 0x2009, 0x200a, 0x2028, 0x2029, 0x202f, 0x205f, 0x3000].contains c.toNat

/-- More digits of a number, each with one underscore before it at most. -/
def digitsFrom (n : Nat) : List Char → Option Nat
  | [] => some n
  | '_' :: c :: s => (decimalDigit c).bind fun d => digitsFrom (10 * n + d) s
  | c :: s => (decimalDigit c).bind fun d => digitsFrom (10 * n + d) s

def unsignedInt : List Char → Option Nat
  | [] => none
  | c :: s => (decimalDigit c).bind fun d => digitsFrom d s

/-- `int(s)`. -/
def pyInt (s : List Char) : Py Int :=
  let value : Option Int := match (s.dropWhile isPySpace).rdropWhile isPySpace with
    | '-' :: ds => (unsignedInt ds).map fun n => -(n : Int)
    | '+' :: ds => (unsignedInt ds).map Int.ofNat
    | ds => (unsignedInt ds).map Int.ofNat
  value.elim (.error .valueError) .ok

/-- A number in ASCII digits. -/
def IsDigits (s : List Char) : Prop := s ≠ [] ∧ ∀ c ∈ s, c.isDigit

instance (s : List Char) : Decidable (IsDigits s) :=
  decidable_of_iff (s ≠ [] ∧ s.all Char.isDigit) (and_congr_right fun _ => List.all_eq_true)

/-- What it stands for. -/
def digitsNumber (s : List Char) : Nat := Nat.ofDigitChars 10 s 0

section Digits
variable {c : Char} {s : List Char}

theorem Char.range_of_isDigit (h : c.isDigit) : 48 ≤ c.toNat ∧ c.toNat ≤ 57 := by
  simpa [Char.isDigit, UInt32.le_iff_toNat_le] using h

theorem decimalDigit_of_isDigit (h : c.isDigit) : decimalDigit c = some (c.toNat - '0'.toNat) := by
  obtain ⟨h₁, h₂⟩ := Char.range_of_isDigit h
  have hfirst : (decide (0x30 ≤ c.toNat) && decide (c.toNat ≤ 0x30 + 9)) = true := by simp [h₁, h₂]
  have hfind : decimalZeros.find? (fun z => z ≤ c.toNat && c.toNat ≤ z + 9) = some 0x30 := List.find?_cons_of_pos hfirst
  rw [decimalDigit, hfind]
  rfl

theorem isDecimal_of_isDigit (h : c.isDigit) : isDecimal c := by
  rw [isDecimal, decimalDigit_of_isDigit h]
  rfl

theorem not_isPySpace_of_isDigit (h : c.isDigit) : ¬ isPySpace c := by
  obtain ⟨h₁, h₂⟩ := Char.range_of_isDigit h
  simp only [isPySpace, List.contains_cons, List.contains_nil]
  simp
  omega

theorem digitsFrom_digits (h : ∀ c ∈ s, c.isDigit) (n : Nat) : digitsFrom n s = some (Nat.ofDigitChars 10 s n) := by
  induction s generalizing n with
  | nil => rfl
  | cons c s ih =>
    have hc : c.isDigit := h c (by simp)
    rw [digitsFrom, decimalDigit_of_isDigit hc]
    · exact ih (fun c' hc' => h c' (by simp [hc'])) _
    · rintro c' s' rfl
      cases hc

/-- **A number in digits is read as such**, whatever its first digits are. -/
theorem pyInt_digits (h : IsDigits s) : pyInt s = .ok (digitsNumber s) := by
  obtain ⟨hne, hdigits⟩ := h
  have hstrip : (s.dropWhile isPySpace).rdropWhile isPySpace = s := by
    have hspace : ∀ c ∈ s, ¬ isPySpace c := fun c hc => not_isPySpace_of_isDigit (hdigits c hc)
    have hfront : s.dropWhile isPySpace = s := List.dropWhile_eq_self_iff.mpr fun hl => hspace _ (List.getElem_mem _)
    rw [hfront, List.rdropWhile_eq_self_iff]
    exact fun hl => hspace _ (List.getLast_mem hl)
  obtain ⟨c, s, rfl⟩ := List.exists_cons_of_ne_nil hne
  have hc := hdigits c (by simp)
  have hvalue : unsignedInt (c :: s) = some (digitsNumber (c :: s)) := by
    rw [unsignedInt, decimalDigit_of_isDigit hc, Option.bind_some, digitsNumber, Nat.ofDigitChars_cons, Nat.mul_zero,
      Nat.zero_add]
    exact digitsFrom_digits (fun c' hc' => hdigits c' (by simp [hc'])) _
  unfold pyInt
  rw [hstrip]
  dsimp only
  split
  · next heq =>
    cases heq
    cases hc
  · next heq =>
    cases heq
    cases hc
  · rw [hvalue]
    rfl

end Digits

/-! Text files. -/

/-- What `open(name, "r")` makes of the characters of a file. -/
def universalNewlines : List Char → List Char
  | [] => []
  | '\r' :: '\n' :: s => '\n' :: universalNewlines s
  | '\r' :: s => '\n' :: universalNewlines s
  | c :: s => c :: universalNewlines s

/-- `file.readlines()`. -/
def readlines (file : List Char) : List (List Char) := fileLines (universalNewlines file)

section Newlines
variable {c : Char} {w s t : List Char}

theorem universalNewlines_cons (hc : c ≠ '\r') (s : List Char) :
    universalNewlines (c :: s) = c :: universalNewlines s := by
  rw [universalNewlines]
  · exact fun s' h => absurd h hc
  · exact hc

theorem universalNewlines_cr (hs : ∀ s', s ≠ '\n' :: s') :
    universalNewlines ('\r' :: s) = '\n' :: universalNewlines s := by
  rw [universalNewlines]
  exact fun s' h => hs s' h

theorem universalNewlines_append (h : '\r' ∉ t) (s : List Char) :
    universalNewlines (t ++ s) = t ++ universalNewlines s := by
  induction t with
  | nil => rfl
  | cons c t ih =>
    rw [List.mem_cons, not_or] at h
    rw [List.cons_append, universalNewlines_cons (Ne.symm h.1), ih h.2]
    rfl

theorem universalNewlines_split (hr : c ≠ '\r') (hn : c ≠ '\n') (s t : List Char) :
    universalNewlines (s ++ c :: t) = universalNewlines s ++ c :: universalNewlines t := by
  induction s using universalNewlines.induct with
  | case1 => exact universalNewlines_cons hr t
  | case2 s ih => exact congrArg ('\n' :: ·) ih
  | case3 s hs ih =>
    have happend : ∀ s', s ++ c :: t ≠ '\n' :: s' := by
      intro s' h
      rcases s with _ | ⟨d, s⟩
      · exact hn (List.cons.inj h).1
      · exact hs s (congrArg (· :: s) (List.cons.inj h).1)
    rw [List.cons_append, universalNewlines_cr happend, ih, universalNewlines_cr fun s' h => hs s' h]
    rfl
  | case4 d s _ hd ih =>
    rw [List.cons_append, universalNewlines_cons hd, ih, universalNewlines_cons hd]
    rfl

theorem prefix_newline (hw : '\n' ∉ w) (h : w <+: '\n' :: t) : w = [] := by
  obtain hnil | ⟨w', rfl, -⟩ := List.prefix_cons_iff.mp h
  · exact hnil
  · exact absurd List.mem_cons_self hw

theorem prefix_of_universalNewlines (hw : '\n' ∉ w) (h : w <+: universalNewlines s) : w <+: s := by
  induction s using universalNewlines.induct generalizing w with
  | case1 => exact h
  | case2 s ih =>
    rw [prefix_newline hw h]
    exact List.nil_prefix
  | case3 s hs ih =>
    rw [universalNewlines_cr fun s' h => hs s' h] at h
    rw [prefix_newline hw h]
    exact List.nil_prefix
  | case4 d s _ hd ih =>
    rw [universalNewlines_cons hd, List.prefix_cons_iff] at h
    obtain rfl | ⟨w', rfl, h⟩ := h
    · exact List.nil_prefix
    · exact List.cons_prefix_cons.mpr ⟨rfl, ih (fun hmem => hw (by simp [hmem])) h⟩

theorem infix_of_universalNewlines (hw : '\n' ∉ w) (h : w <:+: universalNewlines s) : w <:+: s := by
  induction s using universalNewlines.induct with
  | case1 => exact h
  | case2 s ih =>
    obtain h | h := List.infix_cons_iff.mp h
    · rw [prefix_newline hw h]
      exact List.nil_infix
    · exact (ih h).trans ⟨['\r', '\n'], [], by simp⟩
  | case3 s hs ih =>
    rw [universalNewlines_cr fun s' h => hs s' h] at h
    obtain h | h := List.infix_cons_iff.mp h
    · rw [prefix_newline hw h]
      exact List.nil_infix
    · exact (ih h).trans ⟨['\r'], [], by simp⟩
  | case4 d s _ hd ih =>
    rw [universalNewlines_cons hd] at h
    obtain h | h := List.infix_cons_iff.mp h
    · rw [← universalNewlines_cons hd] at h
      exact (prefix_of_universalNewlines hw h).isInfix
    · exact (ih h).trans ⟨[d], [], by simp⟩

end Newlines

end Handoff
