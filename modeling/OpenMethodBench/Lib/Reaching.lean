import Mathlib.Tactic.Common

/-! Reaching definitions of straight-line code: which write of a register is the last one
before a position. -/

namespace Reaching

variable {R : Type*} {writes : ℕ → Option R} {g h j : ℕ} {r : R}

/-- Position `g` writes `r`, and no position between `g` and `j` does. -/
def Reaches (writes : ℕ → Option R) (g : ℕ) (r : R) (j : ℕ) : Prop :=
  g < j ∧ writes g = some r ∧ ∀ k, g < k → k < j → writes k ≠ some r

theorem not_reaches_zero : ¬ Reaches writes g r 0 := fun h => Nat.not_lt_zero g h.1

/-- What reaches the next position is written here, or reaches here and is not. -/
theorem reaches_succ_iff :
    Reaches writes g r (j + 1) ↔
      (g = j ∧ writes j = some r) ∨ (writes j ≠ some r ∧ Reaches writes g r j) := by
  refine ⟨?_, ?_⟩
  · rintro ⟨hg, hw, hbetween⟩
    rcases Nat.lt_succ_iff_lt_or_eq.mp hg with hlt | rfl
    · exact Or.inr ⟨hbetween j hlt (by omega), hlt, hw, fun k hk hkj => hbetween k hk (by omega)⟩
    · exact Or.inl ⟨rfl, hw⟩
  · rintro (⟨rfl, hw⟩ | ⟨hj, hg, hw, hbetween⟩)
    · exact ⟨by omega, hw, fun k hk hkj => by omega⟩
    · refine ⟨by omega, hw, fun k hk hkj => ?_⟩
      rcases Nat.lt_succ_iff_lt_or_eq.mp hkj with hlt | rfl
      · exact hbetween k hk hlt
      · exact hj

/-- What holds behind the write that reaches a position, and is kept where the register is not
written, holds there. -/
theorem Reaches.kept {P : ℕ → Prop} (h : Reaches writes g r j) (hwrite : P (g + 1))
    (hkeep : ∀ k, g < k → k < j → writes k ≠ some r → P k → P (k + 1)) : P j := by
  obtain ⟨hg, -, hbetween⟩ := h
  have hrun : ∀ k, g + 1 ≤ k → k ≤ j → P k := by
    intro k hk
    induction hk with
    | refl => exact fun _ => hwrite
    | step hk ih =>
      intro hkj
      exact hkeep _ hk hkj (hbetween _ hk hkj) (ih (Nat.le_of_lt hkj))
  exact hrun j hg (Nat.le_refl j)

/-- Of the writes of a register before a position one reaches it. -/
theorem exists_reaches_iff : (∃ g, Reaches writes g r j) ↔ ∃ g < j, writes g = some r := by
  refine ⟨fun ⟨g, h⟩ => ⟨g, h.1, h.2.1⟩, ?_⟩
  induction j with
  | zero =>
    rintro ⟨g, hg, -⟩
    omega
  | succ j ih =>
    rintro ⟨g, hg, hw⟩
    by_cases hj : writes j = some r
    · exact ⟨j, reaches_succ_iff.mpr (Or.inl ⟨rfl, hj⟩)⟩
    · have hne : g ≠ j := fun h => hj (h ▸ hw)
      obtain ⟨h, hreach⟩ := ih ⟨g, by omega, hw⟩
      exact ⟨h, reaches_succ_iff.mpr (Or.inr ⟨hj, hreach⟩)⟩

/-- What a step makes true or keeps true holds where it was made true and has been kept. -/
theorem since_iff {P G L : ℕ → Prop} (hzero : ¬ P 0) (hsucc : ∀ k, P (k + 1) ↔ G k ∨ (P k ∧ L k)) :
    P j ↔ ∃ g < j, G g ∧ ∀ k, g < k → k < j → L k := by
  induction j with
  | zero => exact ⟨fun h => absurd h hzero, fun ⟨g, hg, _⟩ => absurd hg (Nat.not_lt_zero g)⟩
  | succ j ih =>
    rw [hsucc, ih]
    refine ⟨?_, ?_⟩
    · rintro (hmade | ⟨⟨g, hg, hmade, hkept⟩, hj⟩)
      · exact ⟨j, Nat.lt_succ_self j, hmade, fun k hk hkj => by omega⟩
      · refine ⟨g, by omega, hmade, fun k hk hkj => ?_⟩
        rcases Nat.lt_succ_iff_lt_or_eq.mp hkj with hlt | rfl
        · exact hkept k hk hlt
        · exact hj
    · rintro ⟨g, hg, hmade, hkept⟩
      rcases Nat.lt_succ_iff_lt_or_eq.mp hg with hlt | rfl
      · exact Or.inr ⟨⟨g, hlt, hmade, fun k hk hkj => hkept k hk (by omega)⟩,
          hkept j hlt (Nat.lt_succ_self j)⟩
      · exact Or.inl hmade

/-! ## What a cell holds -/

section Cell

variable {V : Type*} (cell value : ℕ → V)

/-- A cell that changes only where its location is written holds what the write that reaches
a position put there. -/
theorem cell_of_reaches (hwrite : ∀ k < j, writes k = some r → cell (k + 1) = value k)
    (hkeep : ∀ k < j, writes k ≠ some r → cell (k + 1) = cell k) (h : Reaches writes g r j) :
    cell j = value g := by
  refine h.kept (P := fun k => cell k = value g) (hwrite g h.1 h.2.1) fun k _ hk hw hcell => ?_
  rw [hkeep k hk hw, hcell]

/-- Where no write reaches, it holds what it held at the start. -/
theorem cell_of_not_reaches (hkeep : ∀ k < j, writes k ≠ some r → cell (k + 1) = cell k)
    (h : ∀ g, ¬ Reaches writes g r j) : cell j = cell 0 := by
  induction j with
  | zero => rfl
  | succ j ih =>
    have hw : writes j ≠ some r := fun hw => h j (reaches_succ_iff.mpr (Or.inl ⟨rfl, hw⟩))
    rw [hkeep j (Nat.lt_succ_self j) hw]
    exact ih (fun k hk => hkeep k (Nat.lt_succ_of_lt hk)) fun g hg =>
      h g (reaches_succ_iff.mpr (Or.inr ⟨hw, hg⟩))

end Cell

end Reaching
