import Mathlib.Algebra.Order.Ring.Abs
import Mathlib.Algebra.Order.Archimedean.Basic
import Mathlib.Data.Rat.Floor
import Mathlib.Tactic.Linarith
import Mathlib.Tactic.Positivity
import OpenMethodBench.Lib.Numeral

/-! Decimals printed by any rule that rounds to a nearest integer. -/

namespace Numeral

/-- A way to round to a nearest integer, with some choice where two are. -/
structure Rounding where
  toInt : ℚ → ℤ
  near : ∀ q, |(toInt q : ℚ) - q| ≤ 1 / 2

namespace Rounding

variable (r : Rounding)

theorem toInt_eq {q : ℚ} {z : ℤ} (h : q = z) : r.toInt q = z := by
  have hnear := abs_le.mp (r.near q)
  have hlt : ((r.toInt q : ℤ) : ℚ) < ((z + 1 : ℤ) : ℚ) := by
    push_cast
    linarith [hnear.2]
  have hgt : ((z - 1 : ℤ) : ℚ) < ((r.toInt q : ℤ) : ℚ) := by
    push_cast
    linarith [hnear.1]
  have hlt := Int.cast_lt.mp hlt
  have hgt := Int.cast_lt.mp hgt
  omega

theorem toInt_nonpos {q : ℚ} (h : q < 0) : r.toInt q ≤ 0 := by
  have hnear := abs_le.mp (r.near q)
  have hlt : ((r.toInt q : ℤ) : ℚ) < ((1 : ℤ) : ℚ) := by
    push_cast
    linarith [hnear.2]
  have := Int.cast_lt.mp hlt
  omega

theorem toInt_nonneg {q : ℚ} (h : 0 ≤ q) : 0 ≤ r.toInt q := by
  have hnear := abs_le.mp (r.near q)
  have hgt : ((-1 : ℤ) : ℚ) < ((r.toInt q : ℤ) : ℚ) := by
    push_cast
    linarith [hnear.1]
  have := Int.cast_lt.mp hgt
  omega

/-- The digits `%.<d>f` prints of a value. -/
def scaledBy (d : ℕ) (q : ℚ) : ℤ := r.toInt (q * 10 ^ d)

/-- `%.<d>f`. -/
def fixedBy (d : ℕ) (q : ℚ) : Text :=
  if q < 0 then '-' :: magnitude d (r.scaledBy d q).natAbs else magnitude d (r.scaledBy d q).natAbs

/-- `%+.<d>f`. -/
def fixedSignedBy (d : ℕ) (q : ℚ) : Text := if q < 0 then r.fixedBy d q else '+' :: r.fixedBy d q

theorem strip_magnitude (d n : ℕ) (sign : Text) (hsign : sign = [] ∨ sign = ['-'] ∨ sign = ['+']) :
    Text.strip (sign ++ magnitude d n) = sign ++ magnitude d n := by
  refine Text.strip_eq_self (Text.trimmed_of_forall fun c hc => ?_)
  rcases List.mem_append.mp hc with hc | hc
  · rcases hsign with rfl | rfl | rfl
    · simp at hc
    · rw [List.mem_singleton.mp hc]
      decide
    · rw [List.mem_singleton.mp hc]
      decide
  · rcases magnitude_chars c hc with hc | rfl
    · exact not_space_of_digit hc
    · decide

theorem decimal?_magnitude (d n : ℕ) :
    decimal? (magnitude d n) = some ((n : ℚ) / 10 ^ d) ∧
      decimal? ('-' :: magnitude d n) = some (-((n : ℚ) / 10 ^ d)) ∧
      decimal? ('+' :: magnitude d n) = some ((n : ℚ) / 10 ^ d) := by
  have hnone := strip_magnitude d n [] (Or.inl rfl)
  have hminus := strip_magnitude d n ['-'] (Or.inr (Or.inl rfl))
  have hplus := strip_magnitude d n ['+'] (Or.inr (Or.inr rfl))
  rw [List.nil_append] at hnone
  rw [List.singleton_append] at hminus hplus
  refine ⟨?_, ?_, ?_⟩
  · rw [decimal?, hnone]
    split
    · rename_i u hu
      exact absurd (head_magnitude '-' (by rw [hu]; rfl)) (by decide)
    · rename_i u hu
      exact absurd (head_magnitude '+' (by rw [hu]; rfl)) (by decide)
    · exact unsigned?_magnitude d n
  · rw [decimal?, hminus]
    simp only [unsigned?_magnitude, Option.map_some]
  · rw [decimal?, hplus]
    simp only [unsigned?_magnitude]

/-- What was printed reads back as the value it was rounded to. -/
theorem decimal?_fixedBy (d : ℕ) (q : ℚ) :
    decimal? (r.fixedBy d q) = some ((r.scaledBy d q : ℚ) / 10 ^ d) := by
  have hpow : (0 : ℚ) < 10 ^ d := by positivity
  unfold fixedBy
  split_ifs with hq
  · have hnonpos : r.scaledBy d q ≤ 0 := r.toInt_nonpos (mul_neg_of_neg_of_pos hq hpow)
    have habs : (((r.scaledBy d q).natAbs : ℕ) : ℚ) = -(r.scaledBy d q : ℚ) := by
      rw [Nat.cast_natAbs, abs_of_nonpos hnonpos]
      push_cast
      rfl
    rw [(decimal?_magnitude d _).2.1, habs, neg_div, neg_neg]
  · have hnonneg : 0 ≤ r.scaledBy d q := r.toInt_nonneg (mul_nonneg (not_lt.mp hq) hpow.le)
    have habs : (((r.scaledBy d q).natAbs : ℕ) : ℚ) = (r.scaledBy d q : ℚ) := by
      rw [Nat.cast_natAbs, abs_of_nonneg hnonneg]
    rw [(decimal?_magnitude d _).1, habs]

theorem decimal?_fixedSignedBy (d : ℕ) (q : ℚ) :
    decimal? (r.fixedSignedBy d q) = some ((r.scaledBy d q : ℚ) / 10 ^ d) := by
  unfold fixedSignedBy
  split_ifs with hq
  · exact r.decimal?_fixedBy d q
  · have hpow : (0 : ℚ) < 10 ^ d := by positivity
    have hnonneg : 0 ≤ r.scaledBy d q := r.toInt_nonneg (mul_nonneg (not_lt.mp hq) hpow.le)
    have habs : (((r.scaledBy d q).natAbs : ℕ) : ℚ) = (r.scaledBy d q : ℚ) := by
      rw [Nat.cast_natAbs, abs_of_nonneg hnonneg]
    rw [fixedBy, if_neg hq, (decimal?_magnitude d _).2.2, habs]

end Rounding

/-! ## Half to even -/

theorem floor_bounds (q : ℚ) : (q.floor : ℚ) ≤ q ∧ q < (q.floor : ℚ) + 1 := by
  have hhi := Rat.lt_floor_add_one q
  rw [Int.cast_add, Int.cast_one] at hhi
  exact ⟨Rat.floor_le q, hhi⟩

/-- A nearest integer, an even one where two are nearest. -/
def NearestEven (q : ℚ) (z : ℤ) : Prop :=
  |(z : ℚ) - q| < 1 / 2 ∨ |(z : ℚ) - q| = 1 / 2 ∧ z % 2 = 0

theorem nearestEven_roundHalfEven (q : ℚ) : NearestEven q (roundHalfEven q) := by
  obtain ⟨hlo, hhi⟩ := floor_bounds q
  unfold roundHalfEven
  dsimp only
  split_ifs with hlow hhigh heven
  · left
    rw [abs_lt]
    constructor <;> linarith
  · left
    push_cast
    rw [abs_lt]
    constructor <;> linarith
  · have htie : (q.floor : ℚ) - q = -(1 / 2) := by linarith
    refine Or.inr ⟨?_, heven⟩
    rw [htie, abs_neg]
    norm_num
  · have htie : ((q.floor + 1 : ℤ) : ℚ) - q = 1 / 2 := by
      push_cast
      linarith
    refine Or.inr ⟨?_, by omega⟩
    rw [htie]
    norm_num

theorem NearestEven.near {q : ℚ} {z : ℤ} (h : NearestEven q z) : |(z : ℚ) - q| ≤ 1 / 2 := by
  rcases h with h | ⟨h, -⟩
  · exact h.le
  · exact h.le

theorem NearestEven.unique {q : ℚ} {z w : ℤ} (hz : NearestEven q z) (hw : NearestEven q w) :
    z = w := by
  -- two nearest integers are neighbours, and only one of them is even
  have hzn := abs_le.mp hz.near
  have hwn := abs_le.mp hw.near
  have hle : ((z - w : ℤ) : ℚ) ≤ ((1 : ℤ) : ℚ) := by
    push_cast
    linarith [hzn.2, hwn.1]
  have hge : ((-1 : ℤ) : ℚ) ≤ ((z - w : ℤ) : ℚ) := by
    push_cast
    linarith [hzn.1, hwn.2]
  have hle := Int.cast_le.mp hle
  have hge := Int.cast_le.mp hge
  by_contra hne
  have hfar : z = w + 1 ∨ w = z + 1 := by omega
  have hboth : z % 2 = 0 ∧ w % 2 = 0 := by
    have hneighbour : |(z : ℚ) - q| + |(w : ℚ) - q| ≥ 1 := by
      have htriangle := abs_sub_le (z : ℚ) q w
      rw [abs_sub_comm q] at htriangle
      have hone : |(z : ℚ) - w| = 1 := by
        rcases hfar with h | h
        · rw [h]
          push_cast
          norm_num
        · rw [h]
          push_cast
          norm_num
      linarith
    rcases hz with hz | ⟨-, hz⟩
    · linarith [hw.near]
    · rcases hw with hw | ⟨-, hw⟩
      · linarith [abs_le.mpr hzn]
      · exact ⟨hz, hw⟩
  omega

/-- The rule of `roundHalfEven`. -/
def halfEven : Rounding := ⟨roundHalfEven, fun q => (nearestEven_roundHalfEven q).near⟩

theorem roundHalfEven_neg (q : ℚ) : roundHalfEven (-q) = -roundHalfEven q := by
  apply (nearestEven_roundHalfEven (-q)).unique
  have hneg : ((-roundHalfEven q : ℤ) : ℚ) - -q = -((roundHalfEven q : ℚ) - q) := by
    push_cast
    ring
  have hnear := nearestEven_roundHalfEven q
  rw [NearestEven, hneg, abs_neg]
  exact hnear.imp_right fun ⟨h, heven⟩ => ⟨h, by omega⟩

/-- Python's printing is that of the rule. -/
theorem fixed_eq_fixedBy (d : ℕ) (q : ℚ) : fixed d q = halfEven.fixedBy d q := by
  have hpow : (0 : ℚ) < 10 ^ d := by positivity
  have hscaled : scaled d q = (halfEven.scaledBy d q).natAbs := by
    unfold scaled
    split_ifs with hq
    · have hnonpos : halfEven.scaledBy d q ≤ 0 :=
        halfEven.toInt_nonpos (mul_neg_of_neg_of_pos hq hpow)
      have hround : roundHalfEven (-q * 10 ^ d) = -halfEven.scaledBy d q := by
        rw [neg_mul, roundHalfEven_neg]
        rfl
      rw [hround]
      omega
    · have hnonneg : 0 ≤ halfEven.scaledBy d q :=
        halfEven.toInt_nonneg (mul_nonneg (not_lt.mp hq) hpow.le)
      have hround : roundHalfEven (q * 10 ^ d) = halfEven.scaledBy d q := rfl
      rw [hround]
      omega
  rw [fixed, Rounding.fixedBy, hscaled]

end Numeral
