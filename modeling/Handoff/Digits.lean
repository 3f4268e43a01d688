import Handoff.PyText
import Handoff.TraceFields

/- A number in decimal digits, as `strtol` with base 0 and `int` read it.

   `int` takes the digits as decimal. `strtol` takes them as octal when the first one is a zero, and stops at the first
   digit that is not octal. From the left, the octal value falls behind as soon as a digit follows one that is not zero
   (`octal_add_le`), so the two agree on numbers without leading zeros and on numbers below 8 (`strtol_eq_iff`). -/
namespace Handoff

/-- A number in digits that an `int` can hold. -/
def IsNumber (s : List Char) : Prop := IsDigits s ∧ digitsNumber s < 2^31

/-- It has no leading zero, or is below 8. -/
def PlainNumber (s : List Char) : Prop := s.head? ≠ some '0' ∨ digitsNumber s < 8

instance (s : List Char) : Decidable (IsNumber s) := inferInstanceAs (Decidable (_ ∧ _))
instance (s : List Char) : Decidable (PlainNumber s) := inferInstanceAs (Decidable (_ ∨ _))

/-- The value of the digits of `base` at the front of `s`, `n` being that of the digits before. -/
def readFrom (base n : Nat) (s : List Char) : Nat := (digitsOf base s).foldl (fun n d => base * n + d) n

section Digits
variable {c : Char} {s : List Char} {a b base n : Nat}

theorem digitValue_of_isDigit (h : c.isDigit) : digitValue c = some (c.toNat - '0'.toNat) := by
  obtain ⟨h₁, h₂⟩ := Char.range_of_isDigit h
  have hrange : '0' ≤ c ∧ c ≤ '9' := ⟨h₁, h₂⟩
  exact if_pos hrange

theorem readFrom_cons (h : c.isDigit) :
    readFrom base n (c :: s) = if c.toNat - '0'.toNat < base then readFrom base (base * n + (c.toNat - '0'.toNat)) s else n := by
  unfold readFrom
  rw [digitsOf, digitValue_of_isDigit h]
  dsimp only
  split <;> rfl

theorem digit_le_nine (h : c.isDigit) : c.toNat - '0'.toNat ≤ 9 := by
  obtain ⟨-, h₂⟩ := Char.range_of_isDigit h
  have h0 : '0'.toNat = 48 := rfl
  omega

theorem readFrom_decimal (h : ∀ c ∈ s, c.isDigit) (n : Nat) : readFrom 10 n s = Nat.ofDigitChars 10 s n := by
  induction s generalizing n with
  | nil => rfl
  | cons c s ih =>
    obtain ⟨hc, hs⟩ := List.forall_mem_cons.mp h
    rw [readFrom_cons hc, if_pos (Nat.lt_succ_of_le (digit_le_nine hc)), ih hs, Nat.ofDigitChars_cons]

theorem le_ofDigitChars (n : Nat) (s : List Char) : n ≤ Nat.ofDigitChars 10 s n := by
  induction s generalizing n with
  | nil => exact Nat.le_refl n
  | cons c s ih =>
    rw [Nat.ofDigitChars_cons]
    calc n ≤ 10 * n + (c.toNat - '0'.toNat) := by omega
      _ ≤ Nat.ofDigitChars 10 s (10 * n + (c.toNat - '0'.toNat)) := ih _

/-- **The octal value stays behind**, by as much as it was. -/
theorem octal_add_le (h : ∀ c ∈ s, c.isDigit) (k : Nat) (hab : a + k ≤ b) :
    readFrom 8 a s + k ≤ Nat.ofDigitChars 10 s b := by
  induction s generalizing a b with
  | nil => exact hab
  | cons c s ih =>
    obtain ⟨hc, hs⟩ := List.forall_mem_cons.mp h
    rw [readFrom_cons hc]
    split
    · rw [Nat.ofDigitChars_cons]
      exact ih hs (by omega)
    · exact hab.trans (le_ofDigitChars b _)

theorem octal_le (h : ∀ c ∈ s, c.isDigit) : readFrom 8 0 s ≤ digitsNumber s := octal_add_le h 0 (Nat.le_refl 0)

theorem octal_eq_iff (h : ∀ c ∈ s, c.isDigit) : readFrom 8 0 s = digitsNumber s ↔ digitsNumber s < 8 := by
  unfold digitsNumber
  induction s with
  | nil => exact iff_of_true rfl (by decide)
  | cons c s ih =>
    obtain ⟨hc, hs⟩ := List.forall_mem_cons.mp h
    rw [readFrom_cons hc, Nat.ofDigitChars_cons, Nat.mul_zero, Nat.zero_add]
    generalize c.toNat - '0'.toNat = d
    obtain rfl | hd := Nat.eq_zero_or_pos d
    · -- a leading zero
      exact ih hs
    · have hle := le_ofDigitChars d s
      by_cases hoct : d < 8
      · rw [if_pos hoct]
        cases s with
        | nil => exact iff_of_true rfl hoct
        | cons c' s =>
          have hge : 10 * d ≤ Nat.ofDigitChars 10 (c' :: s) d := by
            rw [Nat.ofDigitChars_cons]
            calc 10 * d ≤ 10 * d + (c'.toNat - '0'.toNat) := Nat.le_add_right _ _
              _ ≤ Nat.ofDigitChars 10 s (10 * d + (c'.toNat - '0'.toNat)) := le_ofDigitChars _ s
          have hlt : readFrom 8 d (c' :: s) < Nat.ofDigitChars 10 (c' :: s) d := by
            obtain ⟨hc', hs'⟩ := List.forall_mem_cons.mp hs
            rw [readFrom_cons hc', Nat.ofDigitChars_cons]
            split
            · exact octal_add_le hs' 1 (by omega)
            · exact lt_of_lt_of_le (by omega) (le_ofDigitChars _ s)
          omega
      · rw [if_neg hoct]
        omega

theorem strtoulAuto_digits (h : ∀ c ∈ s, c.isDigit) :
    strtoulAuto s = if s.head? = some '0' then readFrom 8 0 s else readFrom 10 0 s := by
  unfold strtoulAuto
  split
  · next x c cs =>
    have hx : x.isDigit := h x (by simp)
    have hno : ¬ (x = 'x' ∨ x = 'X') := by
      rintro (rfl | rfl) <;> cases hx
    rw [if_neg fun hex => hno hex.1]
    rfl
  · rfl
  · next hnot hnot' =>
    rw [if_neg]
    · rfl
    · intro hhead
      obtain ⟨cs, rfl⟩ := List.head?_eq_some_iff.mp hhead
      exact hnot' cs rfl

theorem not_isSpace_of_isDigit (h : c.isDigit) : ¬ isSpace c := by
  obtain ⟨h₁, h₂⟩ := Char.range_of_isDigit h
  have hblank : c ≠ ' ' := by
    rintro rfl
    cases h
  have hreturn : ¬ c ≤ '\r' := fun hle => by
    have hnat : c.toNat ≤ 13 := hle
    omega
  simp [isSpace, hblank, hreturn]

theorem strtol_digits (h : IsDigits s) : strtol s = min longMax (strtoulAuto s) := by
  obtain ⟨hne, hdigits⟩ := h
  obtain ⟨c, s, rfl⟩ := List.exists_cons_of_ne_nil hne
  have hc : c.isDigit := hdigits c (by simp)
  unfold strtol
  rw [List.dropWhile_cons_of_neg (not_isSpace_of_isDigit hc)]
  split
  · next heq =>
    cases heq
    cases hc
  · next heq =>
    cases heq
    cases hc
  · rfl

end Digits

section Numbers
variable {s : List Char}

/-- The octal number of digits with a leading zero, the decimal one of others. -/
theorem strtol_number (h : IsNumber s) :
    strtol s = (if s.head? = some '0' then readFrom 8 0 s else digitsNumber s : Nat) := by
  obtain ⟨hdigits, hlt⟩ := h
  have hoctal : readFrom 8 0 s ≤ digitsNumber s := octal_le hdigits.2
  have hdecimal : readFrom 10 0 s = digitsNumber s := readFrom_decimal hdigits.2 0
  rw [strtol_digits hdigits, strtoulAuto_digits hdigits.2, hdecimal, longMax]
  split
  · omega
  · omega

/-- **`strtol` and `int` agree** on plain numbers. -/
theorem strtol_eq_iff (h : IsNumber s) : strtol s = digitsNumber s ↔ PlainNumber s := by
  rw [strtol_number h, PlainNumber, Nat.cast_inj]
  by_cases hzero : s.head? = some '0'
  · rw [if_pos hzero, octal_eq_iff h.1.2]
    simp [hzero]
  · rw [if_neg hzero]
    simp [hzero]

theorem strtol_nonNeg (h : IsNumber s) : NonNegInt (strtol s) := by
  have hoctal : readFrom 8 0 s ≤ digitsNumber s := octal_le h.1.2
  have hlt := h.2
  rw [strtol_number h, NonNegInt, intMax]
  split
  · omega
  · omega

end Numbers

end Handoff
