import Mathlib

/-! Words set into lines, each line filled before the next is begun. -/

namespace Fill

variable {α : Type*} (len : α → ℕ)

/-- How wide the words of a line are, with a blank between two of them. -/
def width : List α → ℕ
  | [] => 0
  | [w] => len w
  | w :: ws => len w + 1 + width ws

/-- How many of the words still fit on a line of `room` columns of which `used` are taken. -/
def fitting (room : ℕ) : ℕ → List α → ℕ
  | _, [] => 0
  | used, w :: ws =>
    if used + 1 + len w ≤ room then fitting room (used + 1 + len w) ws + 1 else 0

/-- The lines. The first word of a line is set even where it does not fit; line `i` has
`room i` columns. -/
def fill (room : ℕ → ℕ) : List α → List (List α)
  | [] => []
  | w :: ws =>
    (w :: ws.take (fitting len (room 0) (len w) ws)) ::
      fill (fun i => room (i + 1)) (ws.drop (fitting len (room 0) (len w) ws))
termination_by ws => ws.length
decreasing_by
  simp only [List.length_drop, List.length_cons]
  omega

/-- A line that is a single word, or no wider than its room. -/
def Fits (room : ℕ) (line : List α) : Prop := line.length = 1 ∨ width len line ≤ room

variable {len}

@[simp] theorem fill_nil (room : ℕ → ℕ) : fill len room [] = [] := by
  rw [fill]

theorem width_cons {w : α} {ws : List α} (h : ws ≠ []) :
    width len (w :: ws) = len w + 1 + width len ws := by
  obtain ⟨v, vs, rfl⟩ := List.exists_cons_of_ne_nil h
  rfl

/-- The words that fit leave a line within its room. -/
theorem fitting_le {room : ℕ} (ws : List α) : ∀ {used : ℕ}, used ≤ room →
    used + ((ws.take (fitting len room used ws)).map fun w => len w + 1).sum ≤ room := by
  induction ws with
  | nil =>
    intro used h
    simpa using h
  | cons w ws ih =>
    intro used h
    rw [fitting]
    split_ifs with hfit
    · have := ih hfit
      rw [List.take_succ_cons, List.map_cons, List.sum_cons]
      omega
    · simpa using h

theorem width_eq_sum (w : α) (ws : List α) :
    width len (w :: ws) = len w + (ws.map fun w => len w + 1).sum := by
  induction ws generalizing w with
  | nil => simp [width]
  | cons v vs ih =>
    rw [width_cons (List.cons_ne_nil v vs), ih, List.map_cons, List.sum_cons]
    omega

theorem fitting_of_lt {room used : ℕ} (h : room < used) (ws : List α) :
    fitting len room used ws = 0 := by
  cases ws with
  | nil => rfl
  | cons w ws => rw [fitting, if_neg (by omega)]

/-- Every line fits. -/
theorem fits_fill (room : ℕ → ℕ) (ws : List α) :
    ∀ i line, (fill len room ws)[i]? = some line → Fits len (room i) line := by
  induction room, ws using fill.induct len with
  | case1 room =>
    intro i line hline
    rw [fill_nil] at hline
    exact absurd hline (by simp)
  | case2 room w ws ih =>
    intro i line hline
    rw [fill] at hline
    cases i with
    | zero =>
      obtain rfl := Option.some.inj hline
      by_cases hw : len w ≤ room 0
      · exact Or.inr (by rw [width_eq_sum]; exact fitting_le ws hw)
      · rw [fitting_of_lt (Nat.lt_of_not_le hw)]
        exact Or.inl rfl
    | succ i => exact ih i line hline

/-- No word is lost, set twice or moved. -/
@[simp] theorem flatten_fill (room : ℕ → ℕ) (ws : List α) : (fill len room ws).flatten = ws := by
  induction room, ws using fill.induct len with
  | case1 room => rw [fill_nil, List.flatten_nil]
  | case2 room w ws ih =>
    rw [fill, List.flatten_cons, ih, List.cons_append, List.take_append_drop]

theorem subset_of_mem_fill {room : ℕ → ℕ} {ws line : List α} (h : line ∈ fill len room ws) :
    line ⊆ ws := by
  intro w hw
  rw [← flatten_fill room ws]
  exact List.mem_flatten.mpr ⟨line, h, hw⟩

end Fill
