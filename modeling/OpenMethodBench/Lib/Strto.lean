import Mathlib
import OpenMethodBench.Lib.Text

/-! `strtoull`, `strtoul`, `strtol` and `atoi` of the C library, base 10. -/

namespace Strto

/-- `isspace` in the C locale. -/
def isSpaceC (c : Char) : Bool := c == ' ' || (9 ≤ c.toNat && c.toNat ≤ 13)

/-- The value of the digits a text starts with; 0 where it starts with none. -/
def leadingValue (t : Text) : ℕ := Nat.ofDigitChars 10 (t.takeWhile Char.isDigit) 0

/-- What a conversion reads: white space, a sign and digits; is there a minus, and the value
of the digits. -/
def subject (t : Text) : Bool × ℕ :=
  match t.dropWhile isSpaceC with
  | '-' :: d => (true, leadingValue d)
  | '+' :: d => (false, leadingValue d)
  | d => (false, leadingValue d)

/-- Into an unsigned type of `bits` bits: a value out of range gives the greatest one, a
minus negates in the type. -/
def unsigned (bits : ℕ) (t : Text) : ℕ :=
  let (minus, n) := subject t
  if 2 ^ bits ≤ n then 2 ^ bits - 1
  else if minus then (2 ^ bits - n) % 2 ^ bits
  else n

/-- `strtoull`. -/
def strtoull (t : Text) : ℕ := unsigned 64 t

/-- `strtoul`, where `long` has `w` bits. -/
def strtoul (w : ℕ) (t : Text) : ℕ := unsigned w t

/-- `strtol`, where `long` has `w` bits. -/
def strtol (w : ℕ) (t : Text) : ℤ :=
  let (minus, n) := subject t
  if minus then max (-2 ^ (w - 1)) (-n) else min (2 ^ (w - 1) - 1) n

/-- `atoi`: `(int) strtol`. -/
def atoi (w : ℕ) (t : Text) : ℤ := (strtol w t + 2 ^ 31) % 2 ^ 32 - 2 ^ 31

/-- A text that is a numeral to its end: white space, perhaps a plus, and digits. -/
structure Denotes (t : Text) (n : ℕ) : Prop where
  spelled : ∃ blanks sign digits, t = blanks ++ (sign ++ digits) ∧
    (∀ c ∈ blanks, isSpaceC c = true) ∧ (sign = [] ∨ sign = ['+']) ∧ digits ≠ [] ∧
    (∀ c ∈ digits, c.isDigit = true) ∧ Nat.ofDigitChars 10 digits 0 = n

theorem leadingValue_digits {d : Text} (h : ∀ c ∈ d, c.isDigit = true) :
    leadingValue d = Nat.ofDigitChars 10 d 0 := by
  rw [leadingValue, List.takeWhile_eq_self_iff.mpr h]

theorem not_isSpaceC_of_digit {c : Char} (hc : c.isDigit = true) : isSpaceC c = false := by
  simp only [Char.isDigit, Bool.and_eq_true, decide_eq_true_eq, ge_iff_le,
    UInt32.le_iff_toNat_le] at hc
  have h0 : ('0' : Char).val.toNat = 48 := rfl
  have hspace : c ≠ ' ' := by
    rintro rfl
    exact absurd hc.1 (by decide)
  simp only [isSpaceC, Char.toNat, Bool.or_eq_false_iff, beq_eq_false_iff_ne, Bool.and_eq_false_iff,
    decide_eq_false_iff_not]
  exact ⟨hspace, Or.inr (by omega)⟩

/-- What a numeral denotes is what a conversion reads. -/
theorem Denotes.subject_eq {t : Text} {n : ℕ} (h : Denotes t n) : subject t = (false, n) := by
  obtain ⟨blanks, sign, digits, rfl, hblanks, hsign, hne, hdigits, hn⟩ := h.spelled
  obtain ⟨c, d, rfl⟩ := List.exists_cons_of_ne_nil hne
  have hc := hdigits c List.mem_cons_self
  have hdrop : (blanks ++ (sign ++ c :: d)).dropWhile isSpaceC = sign ++ c :: d := by
    rw [List.dropWhile_append_of_pos hblanks]
    rcases hsign with rfl | rfl
    · rw [List.nil_append, List.dropWhile_cons_of_neg (by rw [not_isSpaceC_of_digit hc]; decide)]
    · rw [List.singleton_append, List.dropWhile_cons_of_neg (by decide)]
  have hvalue : leadingValue (c :: d) = n := by rw [leadingValue_digits hdigits, hn]
  rw [subject, hdrop]
  rcases hsign with rfl | rfl
  · have hminus : c ≠ '-' := by
      rintro rfl
      exact absurd hc (by decide)
    have hplus : c ≠ '+' := by
      rintro rfl
      exact absurd hc (by decide)
    rw [List.nil_append]
    split
    · simp_all
    · simp_all
    · rw [hvalue]
  · rw [List.singleton_append]
    simp [hvalue]

/-- A numeral that fits is converted to what it denotes. -/
theorem Denotes.unsigned_eq {t : Text} {n bits : ℕ} (h : Denotes t n) (hn : n < 2 ^ bits) :
    unsigned bits t = n := by
  rw [unsigned, h.subject_eq]
  dsimp only
  rw [if_neg (by omega)]
  rfl

end Strto
