import Mathlib.Algebra.Field.Rat
import Mathlib.Algebra.Order.Ring.Unbundled.Rat
import Mathlib.Tactic.FieldSimp
import OpenMethodBench.Lib.Text

/-! Numbers as texts: `%d` and `%.nf` after the C and Python formats, and the readers
`int` and `float` for the decimal notation these print. -/

namespace Numeral

/-! ## Integers -/

/-- `%d`. -/
def intText (n : ℤ) : Text :=
  if n < 0 then '-' :: Nat.toDigits 10 n.natAbs else Nat.toDigits 10 n.natAbs

/-- Digits, with single underscores between them. -/
def digits? (t : Text) : Option ℕ :=
  let groups := t.splitOn '_'
  if groups.all fun g => !g.isEmpty && g.all Char.isDigit then
    some (Nat.ofDigitChars 10 groups.flatten 0)
  else none

/-- `int(t)` for ASCII digits. -/
def int? (t : Text) : Option ℤ :=
  match Text.strip t with
  | '-' :: d => (digits? d).map fun n : ℕ => -(n : ℤ)
  | '+' :: d => (digits? d).map fun n : ℕ => (n : ℤ)
  | d => (digits? d).map fun n : ℕ => (n : ℤ)

theorem toDigits_digit {n : ℕ} : ∀ c ∈ Nat.toDigits 10 n, c.isDigit = true :=
  fun _ hc => Nat.isDigit_of_mem_toDigits (by decide) (by decide) hc

theorem not_space_of_digit {c : Char} (hc : c.isDigit = true) : Text.isSpace c = false := by
  simp only [Char.isDigit, Bool.and_eq_true, decide_eq_true_eq, ge_iff_le,
    UInt32.le_iff_toNat_le] at hc
  simp only [Text.isSpace, Char.toNat, Bool.or_eq_false_iff, Bool.and_eq_false_iff,
    decide_eq_false_iff_not, beq_eq_false_iff_ne]
  have h0 : ('0' : Char).val.toNat = 48 := rfl
  have h9 : ('9' : Char).val.toNat = 57 := rfl
  omega

theorem digits?_toDigits (n : ℕ) : digits? (Nat.toDigits 10 n) = some n := by
  have hsplit : (Nat.toDigits 10 n).splitOn '_' = [Nat.toDigits 10 n] := by
    have h : (Text.join '_' [Nat.toDigits 10 n]).splitOn '_' = [Nat.toDigits 10 n] :=
      Text.splitOn_join (by simp) (by simp)
    rwa [Text.join_singleton] at h
  have hall : (Nat.toDigits 10 n).all Char.isDigit = true :=
    List.all_eq_true.mpr toDigits_digit
  simp [digits?, hsplit, hall, Nat.toDigits_ne_nil, Nat.ofDigitChars_ten_toDigits]

theorem int?_intText (n : ℤ) : int? (intText n) = some n := by
  have hhead : ∀ m : ℕ, ∀ c ∈ (Nat.toDigits 10 m).head?, c ≠ '-' ∧ c ≠ '+' := by
    intro m c hc
    have hdigit := toDigits_digit c (List.mem_of_mem_head? hc)
    refine ⟨?_, ?_⟩
    · rintro rfl
      exact absurd hdigit (by decide)
    · rintro rfl
      exact absurd hdigit (by decide)
  have htrim : ∀ m : ℕ, Text.strip (Nat.toDigits 10 m) = Nat.toDigits 10 m := fun m =>
    Text.strip_eq_self (Text.trimmed_of_forall fun c hc => not_space_of_digit (toDigits_digit c hc))
  have htrim' : ∀ m : ℕ, Text.strip ('-' :: Nat.toDigits 10 m) = '-' :: Nat.toDigits 10 m := by
    intro m
    refine Text.strip_eq_self (Text.trimmed_of_forall fun c hc => ?_)
    rcases List.mem_cons.mp hc with rfl | hc
    · decide
    · exact not_space_of_digit (toDigits_digit c hc)
  by_cases hn : n < 0
  · rw [intText, if_pos hn, int?, htrim']
    simp only [digits?_toDigits, Option.map_some, Option.some.injEq]
    omega
  · rw [intText, if_neg hn, int?, htrim]
    split
    · rename_i d hd
      exact absurd rfl (hhead n.natAbs '-' (by rw [hd]; rfl)).1
    · rename_i d hd
      exact absurd rfl (hhead n.natAbs '+' (by rw [hd]; rfl)).2
    · rw [digits?_toDigits, Option.map_some, Option.some.injEq]
      omega

/-! ## Decimals -/

/-- The nearest integer, the even one of two. -/
def roundHalfEven (q : ℚ) : ℤ :=
  let f := q.floor
  let r := q - f
  if r < 1 / 2 then f else if 1 / 2 < r then f + 1 else if f % 2 = 0 then f else f + 1

/-- `n / 10 ^ d`, with `d` digits after the point. -/
def magnitude (d n : ℕ) : Text :=
  let frac := Nat.toDigits 10 (n % 10 ^ d)
  Nat.toDigits 10 (n / 10 ^ d) ++
    if d = 0 then [] else '.' :: (List.replicate (d - frac.length) '0' ++ frac)

/-- The printed digits of a value, as an integer. -/
def scaled (d : ℕ) (q : ℚ) : ℕ := (roundHalfEven ((if q < 0 then -q else q) * 10 ^ d)).toNat

/-- `%.<d>f`. -/
def fixed (d : ℕ) (q : ℚ) : Text :=
  if q < 0 then '-' :: magnitude d (scaled d q) else magnitude d (scaled d q)

/-- The value a printed decimal stands for. -/
def rounded (d : ℕ) (q : ℚ) : ℚ := (if q < 0 then -1 else 1) * (scaled d q / 10 ^ d)

/-- `%+.<d>f`. -/
def fixedSigned (d : ℕ) (q : ℚ) : Text := if q < 0 then fixed d q else '+' :: fixed d q

def unsigned? (t : Text) : Option ℚ :=
  let whole := t.takeWhile (· != '.')
  let frac := (t.dropWhile (· != '.')).tail
  if !(whole ++ frac).isEmpty && (whole ++ frac).all Char.isDigit then
    some (Nat.ofDigitChars 10 (whole ++ frac) 0 / 10 ^ frac.length)
  else none

/-- `float(t)` for decimal notation, without exponents and the names of no number. -/
def decimal? (t : Text) : Option ℚ :=
  match Text.strip t with
  | '-' :: u => (unsigned? u).map fun q => -q
  | '+' :: u => unsigned? u
  | u => unsigned? u

theorem ofDigitChars_padded (d m : ℕ) (hm : m < 10 ^ d) (hd : d ≠ 0) (init : ℕ) :
    let frac := List.replicate (d - (Nat.toDigits 10 m).length) '0' ++ Nat.toDigits 10 m
    frac.length = d ∧ Nat.ofDigitChars 10 frac init = 10 ^ d * init + m := by
  intro frac
  have hle : (Nat.toDigits 10 m).length ≤ d :=
    (Nat.length_toDigits_le_iff (by decide) (by omega)).mpr hm
  have hlen : frac.length = d := by
    simp only [frac, List.length_append, List.length_replicate]
    omega
  refine ⟨hlen, ?_⟩
  rw [Nat.ofDigitChars_eq_ofDigitChars_zero, hlen]
  simp only [frac, Nat.ofDigitChars_append, Nat.ofDigitChars_replicate_zero, Nat.mul_zero,
    Nat.ofDigitChars_ten_toDigits]

theorem unsigned?_magnitude (d n : ℕ) : unsigned? (magnitude d n) = some ((n : ℚ) / 10 ^ d) := by
  have hnodot : ∀ m : ℕ, ∀ c ∈ Nat.toDigits 10 m, (c != '.') = true := by
    intro m c hc
    have hdigit := toDigits_digit c hc
    rw [bne_iff_ne]
    rintro rfl
    exact absurd hdigit (by decide)
  by_cases hd : d = 0
  · subst hd
    have hm : magnitude 0 n = Nat.toDigits 10 n := by simp [magnitude]
    have htake : (Nat.toDigits 10 n).takeWhile (· != '.') = Nat.toDigits 10 n :=
      List.takeWhile_eq_self_iff.mpr (hnodot n)
    have hdrop : (Nat.toDigits 10 n).dropWhile (· != '.') = [] :=
      List.dropWhile_eq_nil_iff.mpr (hnodot n)
    have hall : (Nat.toDigits 10 n).all Char.isDigit = true :=
      List.all_eq_true.mpr toDigits_digit
    simp [unsigned?, hm, htake, hdrop, hall, Nat.toDigits_ne_nil, Nat.ofDigitChars_ten_toDigits]
  · obtain ⟨hlen, hvalue⟩ := ofDigitChars_padded d (n % 10 ^ d)
      (Nat.mod_lt n (Nat.pow_pos (by decide))) hd (n / 10 ^ d)
    generalize hfrac : List.replicate (d - (Nat.toDigits 10 (n % 10 ^ d)).length) '0' ++
      Nat.toDigits 10 (n % 10 ^ d) = frac at hlen hvalue
    have hm : magnitude d n = Nat.toDigits 10 (n / 10 ^ d) ++ '.' :: frac := by
      simp only [magnitude, if_neg hd, hfrac]
    have htake := Text.takeWhile_append_of_head (hnodot (n / 10 ^ d)) (r := '.' :: frac) (by simp)
    have hdrop := Text.dropWhile_append_of_head (hnodot (n / 10 ^ d)) (r := '.' :: frac) (by simp)
    have hall : (Nat.toDigits 10 (n / 10 ^ d) ++ frac).all Char.isDigit = true := by
      rw [List.all_append, Bool.and_eq_true]
      refine ⟨List.all_eq_true.mpr toDigits_digit, ?_⟩
      rw [← hfrac, List.all_append, Bool.and_eq_true]
      exact ⟨by simp [Char.isDigit], List.all_eq_true.mpr toDigits_digit⟩
    have hne : Nat.toDigits 10 (n / 10 ^ d) ++ frac ≠ [] := by simp [Nat.toDigits_ne_nil]
    have hdigits : Nat.ofDigitChars 10 (Nat.toDigits 10 (n / 10 ^ d) ++ frac) 0 = n := by
      rw [Nat.ofDigitChars_append, Nat.ofDigitChars_ten_toDigits, hvalue, Nat.div_add_mod]
    simp only [unsigned?, hm, htake, hdrop, List.tail_cons, hall, hdigits, hlen]
    simp [hne]

theorem magnitude_chars {d n : ℕ} : ∀ c ∈ magnitude d n, c.isDigit = true ∨ c = '.' := by
  intro c hc
  rw [magnitude, List.mem_append] at hc
  rcases hc with hc | hc
  · exact Or.inl (toDigits_digit c hc)
  · split_ifs at hc
    · simp at hc
    · rcases List.mem_cons.mp hc with rfl | hc
      · exact Or.inr rfl
      · rcases List.mem_append.mp hc with hc | hc
        · rw [(List.mem_replicate.mp hc).2]
          exact Or.inl (by decide)
        · exact Or.inl (toDigits_digit c hc)

theorem fixed_chars {d : ℕ} {q : ℚ} :
    ∀ c ∈ fixed d q, c.isDigit = true ∨ c = '.' ∨ c = '-' := by
  have hmag : ∀ c ∈ magnitude d (scaled d q), c.isDigit = true ∨ c = '.' ∨ c = '-' :=
    fun c hc => (magnitude_chars c hc).imp_right Or.inl
  intro c hc
  rw [fixed] at hc
  split_ifs at hc
  · rcases List.mem_cons.mp hc with rfl | hc
    · exact Or.inr (Or.inr rfl)
    · exact hmag c hc
  · exact hmag c hc

theorem strip_fixed (d : ℕ) (q : ℚ) : Text.strip (fixed d q) = fixed d q := by
  refine Text.strip_eq_self (Text.trimmed_of_forall fun c hc => ?_)
  rcases fixed_chars c hc with hc | rfl | rfl
  · exact not_space_of_digit hc
  all_goals decide

theorem head_magnitude {d n : ℕ} : ∀ c ∈ (magnitude d n).head?, c.isDigit = true := by
  intro c hc
  rw [magnitude, List.head?_append_of_ne_nil _ Nat.toDigits_ne_nil] at hc
  exact toDigits_digit c (List.mem_of_mem_head? hc)

/-- What was printed reads back as the value it was rounded to. -/
theorem decimal?_fixed (d : ℕ) (q : ℚ) :
    decimal? (fixed d q) = some (rounded d q) := by
  rw [decimal?, strip_fixed, rounded]
  by_cases hq : q < 0
  · rw [fixed, if_pos hq, if_pos hq]
    simp [unsigned?_magnitude]
  · rw [fixed, if_neg hq, if_neg hq]
    split
    · rename_i u hu
      exact absurd (head_magnitude '-' (by rw [hu]; rfl)) (by decide)
    · rename_i u hu
      exact absurd (head_magnitude '+' (by rw [hu]; rfl)) (by decide)
    · rw [unsigned?_magnitude, one_mul]

end Numeral
