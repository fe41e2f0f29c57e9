import Mathlib
import OpenMethodBench.Lib.Outcome
import OpenMethodBench.Lib.Rounding
import OpenMethodBench.Spec.Tables

/-! The cells of the indirect table: `section_indirect` subtracts the endpoints as printed,
but prints the difference as precisely as its first endpoint. -/

namespace OMB

open Numeral Outcome

/-! ## The cell, for any rounding to nearest -/

/-- The digits after the point `cycles` prints. -/
def cyclesDigits (v : ℚ) : ℕ := if v < 100 then 1 else 0

/-- `cycles`. -/
def cyclesBy (r : Rounding) (v : ℚ) : Text := r.fixedBy (cyclesDigits v) v

/-- The three numbers of `dv → iv (delta)`. -/
structure DeltaCell where
  direct : Text
  indirect : Text
  delta : Text
  deriving DecidableEq, Repr

def DeltaCell.text (c : DeltaCell) : Text :=
  c.direct ++ " → ".toList ++ c.indirect ++ " (**".toList ++ c.delta ++ "**)".toList

/-- The cell of two medians; none where a printed number does not read back. -/
def deltaCell (r : Rounding) (dv iv : ℚ) : Option DeltaCell := do
  let rdv ← decimal? (cyclesBy r dv)
  let riv ← decimal? (cyclesBy r iv)
  return ⟨cyclesBy r dv, cyclesBy r iv, r.fixedSignedBy (cyclesDigits dv) (riv - rdv)⟩

/-- The number printed as the delta is the difference of the other two. -/
def DeltaCell.Recomputes (c : DeltaCell) : Prop :=
  ∃ d i delta, decimal? c.direct = some d ∧ decimal? c.indirect = some i ∧
    decimal? c.delta = some delta ∧ delta = i - d

theorem cycles_eq_cyclesBy (v : ℚ) : cycles v = cyclesBy halfEven v := by
  unfold cycles cyclesBy cyclesDigits
  split_ifs
  · exact fixed_eq_fixedBy 1 v
  · exact fixed_eq_fixedBy 0 v

theorem fixedSigned_eq (d : ℕ) (q : ℚ) : fixedSigned d q = halfEven.fixedSignedBy d q := by
  rw [fixedSigned, Rounding.fixedSignedBy, fixed_eq_fixedBy]

theorem floatText_ok {t : Text} {q : ℚ} (h : floatText t = .ok q) : decimal? t = some q := by
  unfold floatText at h
  split at h
  · rename_i p hp
    rw [hp, Except.ok.inj h]
  · exact absurd h (by simp)

/-- What the report prints is the cell for rounding half to even. -/
theorem indirectCell_text {data : Table} {keys : Key × Key} {c : Cell}
    (h : indirectCell data keys = .ok c) :
    ∃ dv iv cell, med data keys.1 "disp" = .ok dv ∧ med data keys.2 "disp" = .ok iv ∧
      deltaCell halfEven dv iv = some cell ∧ c.text = cell.text := by
  unfold indirectCell at h
  obtain ⟨dv, hdv, h⟩ := bind_eq_ok_iff.mp h
  obtain ⟨iv, hiv, h⟩ := bind_eq_ok_iff.mp h
  obtain ⟨rdv, hrdv, h⟩ := bind_eq_ok_iff.mp h
  obtain ⟨riv, hriv, h⟩ := bind_eq_ok_iff.mp h
  have hd := floatText_ok hrdv
  have hi := floatText_ok hriv
  obtain rfl := pure_eq_ok_iff.mp h
  rw [cycles_eq_cyclesBy] at hd hi
  refine ⟨dv, iv, ⟨cyclesBy halfEven dv, cyclesBy halfEven iv,
    halfEven.fixedSignedBy (cyclesDigits dv) (riv - rdv)⟩, hdv, hiv, ?_, ?_⟩
  · rw [deltaCell, hd, hi]
    rfl
  · rw [DeltaCell.text, cycles_eq_cyclesBy, cycles_eq_cyclesBy, fixedSigned_eq]
    rfl

/-! ## When the delta recomputes -/

/-- A value prints as it is exactly when the digits suffice for it. -/
theorem scaledBy_exact_iff (r : Rounding) (d : ℕ) (q : ℚ) :
    (r.scaledBy d q : ℚ) / 10 ^ d = q ↔ ∃ z : ℤ, q * 10 ^ d = z := by
  have hpow : (10 : ℚ) ^ d ≠ 0 := by positivity
  constructor
  · intro h
    exact ⟨r.scaledBy d q, by rw [eq_comm, ← div_eq_iff hpow, h]⟩
  · intro ⟨z, hz⟩
    rw [Rounding.scaledBy, r.toInt_eq hz, div_eq_iff hpow, hz]

/-- The endpoints, at the precision of the first, differ by a printable number exactly when
the second has no digit that the first has not. -/
theorem difference_printable_iff (a b : ℤ) (dv iv : ℚ) :
    (∃ z : ℤ, ((b : ℚ) / 10 ^ cyclesDigits iv - a / 10 ^ cyclesDigits dv) *
        10 ^ cyclesDigits dv = z) ↔ dv < 100 ∨ 100 ≤ iv ∨ 10 ∣ b := by
  unfold cyclesDigits
  by_cases hd : dv < 100
  · simp only [hd, if_true, true_or, iff_true]
    by_cases hi : iv < 100
    · refine ⟨b - a, ?_⟩
      rw [if_pos hi]
      push_cast
      ring
    · refine ⟨10 * b - a, ?_⟩
      rw [if_neg hi]
      push_cast
      ring
  · by_cases hi : iv < 100
    · rw [if_neg hd, if_pos hi]
      simp only [hd, not_le.mpr hi, false_or]
      constructor
      · intro ⟨z, hz⟩
        refine ⟨z + a, ?_⟩
        have hb : (b : ℚ) = 10 * ((z + a : ℤ) : ℚ) := by
          push_cast
          linarith
        exact_mod_cast hb
      · intro ⟨n, hn⟩
        refine ⟨n - a, ?_⟩
        rw [hn]
        push_cast
        ring
    · simp only [not_lt.mp hi, true_or, or_true, iff_true]
      refine ⟨b - a, ?_⟩
      rw [if_neg hd, if_neg hi]
      push_cast
      ring

theorem deltaCell_eq (r : Rounding) (dv iv : ℚ) :
    deltaCell r dv iv = some ⟨cyclesBy r dv, cyclesBy r iv,
      r.fixedSignedBy (cyclesDigits dv)
        ((r.scaledBy (cyclesDigits iv) iv : ℚ) / 10 ^ cyclesDigits iv -
          (r.scaledBy (cyclesDigits dv) dv : ℚ) / 10 ^ cyclesDigits dv)⟩ := by
  rw [deltaCell, cyclesBy, cyclesBy, r.decimal?_fixedBy, r.decimal?_fixedBy]
  rfl

theorem deltaCell_recomputes_iff (r : Rounding) (dv iv : ℚ) :
    (∃ c, deltaCell r dv iv = some c ∧ c.Recomputes) ↔
      dv < 100 ∨ 100 ≤ iv ∨ 10 ∣ r.toInt (iv * 10) := by
  have hcell : (∃ c, deltaCell r dv iv = some c ∧ c.Recomputes) ↔
      ∃ z : ℤ, ((r.scaledBy (cyclesDigits iv) iv : ℚ) / 10 ^ cyclesDigits iv -
        (r.scaledBy (cyclesDigits dv) dv : ℚ) / 10 ^ cyclesDigits dv) *
          10 ^ cyclesDigits dv = z := by
    rw [deltaCell_eq, ← scaledBy_exact_iff r]
    constructor
    · intro ⟨c, hc, d, i, delta, hd, hi, hdelta, heq⟩
      obtain rfl := Option.some.inj hc
      dsimp only [cyclesBy] at hd hi
      rw [r.decimal?_fixedBy] at hd hi
      rw [r.decimal?_fixedSignedBy] at hdelta
      obtain rfl := Option.some.inj hd
      obtain rfl := Option.some.inj hi
      rw [Option.some.inj hdelta]
      exact heq
    · intro h
      exact ⟨_, rfl, _, _, _, r.decimal?_fixedBy _ _, r.decimal?_fixedBy _ _,
        r.decimal?_fixedSignedBy _ _, h⟩
  rw [hcell, difference_printable_iff]
  by_cases hi : iv < 100
  · have hscaled : r.scaledBy (cyclesDigits iv) iv = r.toInt (iv * 10) := by
      rw [cyclesDigits, if_pos hi, Rounding.scaledBy, pow_one]
    rw [hscaled]
  · simp only [not_lt.mp hi, true_or, or_true]

/-- The printed delta recomputes from its cell exactly when the first endpoint is printed
with a decimal, or the second without, or with a zero for it; and the cells of the indirect table
are such cells, for rounding half to even. -/
theorem delta_recomputes_iff (r : Rounding) (dv iv : ℚ) :
    ((∃ c, deltaCell r dv iv = some c ∧ c.Recomputes) ↔
      dv < 100 ∨ 100 ≤ iv ∨ 10 ∣ r.toInt (iv * 10)) ∧
    ∀ (data : Table) (keys : Key × Key) (c : Cell), indirectCell data keys = .ok c →
      ∃ dv iv cell, med data keys.1 "disp" = .ok dv ∧ med data keys.2 "disp" = .ok iv ∧
        deltaCell halfEven dv iv = some cell ∧ c.text = cell.text :=
  ⟨deltaCell_recomputes_iff r dv iv, fun _ _ _ => indirectCell_text⟩

/-- 100.4 and 99.6 cycles: `100 → 99.6 (**-0**)`. -/
theorem delta_lost_below_hundred :
    ¬ ∀ dv iv : ℚ, ∃ c, deltaCell halfEven dv iv = some c ∧ c.Recomputes := by
  intro h
  obtain ⟨c, hc, d, i, delta, hd, hi, hdelta, heq⟩ := h (1004 / 10) (996 / 10)
  have hcell : deltaCell halfEven (1004 / 10) (996 / 10) =
      some ⟨"100".toList, "99.6".toList, "-0".toList⟩ := by decide +kernel
  obtain rfl := Option.some.inj (hc.symm.trans hcell)
  have hread : decimal? "100".toList = some 100 ∧ decimal? "99.6".toList = some (996 / 10) ∧
      decimal? "-0".toList = some 0 := by decide +kernel
  rw [hread.1] at hd
  rw [hread.2.1] at hi
  rw [hread.2.2] at hdelta
  rw [← Option.some.inj hd, ← Option.some.inj hi, ← Option.some.inj hdelta] at heq
  norm_num at heq

end OMB
