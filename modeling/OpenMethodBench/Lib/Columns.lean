import Mathlib
import OpenMethodBench.Lib.Spacing

/-! Columns of text set side by side, and read back from their lines. -/

namespace Text

/-- `t.rstrip()`. -/
def rstrip (t : Text) : Text := t.rdropWhile isSpace

/-- One line of cells, each of width `w`: `"".join(c.ljust(w) for c in cells).rstrip()`. -/
def sideBySide (w : ℕ) (cells : List Text) : Text := rstrip (cells.flatMap (ljust w))

/-- What stands in column `k` of a line. -/
def cellAt (w k : ℕ) (line : Text) : Text := rstrip ((line.drop (k * w)).take w)

/-- The length of the longest column. -/
def height (cols : List (List Text)) : ℕ := (cols.map List.length).foldr max 0

/-- Columns side by side, line by line; a column that has ended is blank. -/
def grid (w : ℕ) (cols : List (List Text)) : List Text :=
  (List.range (height cols)).map fun i => sideBySide w (cols.map fun c => c.getD i [])

/-- Column `k` of the lines, without the blank cells after its end. -/
def columnAt (w k : ℕ) (lines : List Text) : List Text :=
  (lines.map (cellAt w k)).rdropWhile List.isEmpty

/-! ## Trailing blanks -/

theorem rstrip_append_spaces (t : Text) {s : Text} (h : ∀ c ∈ s, isSpace c = true) :
    rstrip (t ++ s) = rstrip t := by
  induction s using List.reverseRecOn with
  | nil => rw [List.append_nil]
  | append_singleton s c ih =>
    have hc : isSpace c = true := h c (by simp)
    rw [rstrip, ← List.append_assoc, List.rdropWhile_concat_pos _ _ _ hc]
    exact ih fun d hd => h d (by simp [hd])

theorem exists_rstrip (t : Text) : ∃ s, (∀ c ∈ s, isSpace c = true) ∧ t = rstrip t ++ s := by
  refine ⟨t.rtakeWhile isSpace, fun c hc => List.mem_rtakeWhile_imp hc, ?_⟩
  rw [rstrip, List.rdropWhile, List.rtakeWhile, ← List.reverse_append, List.takeWhile_append_dropWhile,
    List.reverse_reverse]

theorem rstrip_subset (t : Text) : rstrip t ⊆ t := (List.rdropWhile_prefix isSpace t).subset

@[simp] theorem words_rstrip (t : Text) : words (rstrip t) = words t := by
  obtain ⟨s, hs, ht⟩ := exists_rstrip t
  conv_rhs => rw [ht]
  exact (words_append_of_blank _ hs).symm

/-- The blanks that end a line are not part of its cells. -/
theorem cellAt_rstrip (w k : ℕ) (t : Text) : cellAt w k (rstrip t) = cellAt w k t := by
  obtain ⟨s, hs, ht⟩ := exists_rstrip t
  have hcut : (t.drop (k * w)).take w = ((rstrip t).drop (k * w)).take w ++
      (s.drop (k * w - (rstrip t).length)).take (w - ((rstrip t).drop (k * w)).length) := by
    conv_lhs => rw [ht, List.drop_append, List.take_append]
  rw [cellAt, cellAt, hcut, rstrip_append_spaces]
  exact fun c hc => hs c (List.mem_of_mem_drop (List.mem_of_mem_take hc))

/-! ## Cells -/

theorem length_ljust {w : ℕ} {t : Text} (h : t.length ≤ w) : (ljust w t).length = w := by
  rw [ljust, List.length_append, List.length_replicate]
  omega

theorem rstrip_ljust (w : ℕ) (t : Text) : rstrip (ljust w t) = rstrip t :=
  rstrip_append_spaces t fun _ hc => List.eq_of_mem_replicate hc ▸ rfl

section Cells

variable {w : ℕ} {cells : List Text}

/-- In cells of one width, `k` cells are as wide as `k * w`. -/
theorem take_drop_flatMap (h : ∀ c ∈ cells, c.length ≤ w) (k : ℕ) :
    ((cells.flatMap (ljust w)).drop (k * w)).take w = (cells[k]?.map (ljust w)).getD [] := by
  induction cells generalizing k with
  | nil => simp
  | cons c cells ih =>
    have hlen := length_ljust (h c List.mem_cons_self)
    cases k with
    | zero =>
      rw [Nat.zero_mul, List.drop_zero, List.flatMap_cons, List.take_left' hlen]
      rfl
    | succ k =>
      rw [List.flatMap_cons, Nat.succ_mul, Nat.add_comm, ← List.drop_drop, List.drop_left' hlen,
        ih fun d hd => h d (List.mem_cons_of_mem c hd)]
      rfl

/-- A cell is read from its line as it was set, up to the blanks that end it. -/
theorem cellAt_sideBySide (h : ∀ c ∈ cells, c.length ≤ w) (k : ℕ) :
    cellAt w k (sideBySide w cells) = rstrip (cells.getD k []) := by
  rw [sideBySide, cellAt_rstrip, cellAt, take_drop_flatMap h, List.getD_eq_getElem?_getD]
  rcases cells[k]? with - | c
  · rfl
  · exact rstrip_ljust w c

theorem mem_sideBySide {c : Char} (h : c ∈ sideBySide w cells) : c = ' ' ∨ ∃ t ∈ cells, c ∈ t := by
  obtain ⟨t, ht, hc⟩ := List.mem_flatMap.mp (rstrip_subset _ h)
  rcases List.mem_append.mp hc with hc | hc
  · exact Or.inr ⟨t, ht, hc⟩
  · exact Or.inl (List.eq_of_mem_replicate hc)

end Cells

/-! ## Columns -/

section Columns

variable {w : ℕ} {cols : List (List Text)}

theorem length_le_height {c : List Text} (h : c ∈ cols) : c.length ≤ height cols := by
  induction cols with
  | nil => exact absurd h List.not_mem_nil
  | cons d cols ih =>
    rw [height, List.map_cons, List.foldr_cons]
    rcases List.mem_cons.mp h with rfl | h
    · exact le_max_left _ _
    · exact (ih h).trans (le_max_right _ _)

@[simp] theorem length_grid (w : ℕ) (cols : List (List Text)) : (grid w cols).length = height cols := by
  simp [grid]

/-- A column without blank cells is read from the lines as it was set. -/
theorem columnAt_grid (hfit : ∀ col ∈ cols, ∀ t ∈ col, t.length ≤ w) {k : ℕ} {col : List Text}
    (hk : cols[k]? = some col) (hne : ∀ t ∈ col, rstrip t ≠ []) :
    columnAt w k (grid w cols) = col.map rstrip := by
  have hmem := List.mem_of_getElem? hk
  have hline : (grid w cols).map (cellAt w k) =
      col.map rstrip ++ List.replicate (height cols - col.length) [] := by
    refine List.ext_get (by simp [Nat.add_sub_cancel' (length_le_height hmem)]) fun i hi hj => ?_
    have hcells : ∀ t ∈ cols.map fun col => col.getD i [], t.length ≤ w := by
      intro t ht
      obtain ⟨col', hcol', rfl⟩ := List.mem_map.mp ht
      rw [List.getD_eq_getElem?_getD]
      rcases hget : col'[i]? with - | t
      · exact Nat.zero_le w
      · exact hfit col' hcol' t (List.mem_of_getElem? hget)
    have hgrid : ((grid w cols).map (cellAt w k)).get ⟨i, hi⟩ =
        cellAt w k (sideBySide w (cols.map fun col => col.getD i [])) := by
      simp [grid]
    rw [hgrid, cellAt_sideBySide hcells, List.getD_eq_getElem?_getD, List.getElem?_map, hk,
      Option.map_some, Option.getD_some, List.getD_eq_getElem?_getD, List.get_eq_getElem,
      List.getElem_append]
    split_ifs with hlt
    · rw [List.length_map] at hlt
      rw [List.getElem?_eq_getElem hlt, Option.getD_some, List.getElem_map]
    · rw [List.length_map] at hlt
      rw [List.getElem?_eq_none (Nat.not_lt.mp hlt), Option.getD_none, List.getElem_replicate]
      rfl
  have hblank : ∀ n, (col.map rstrip ++ List.replicate n ([] : Text)).rdropWhile List.isEmpty =
      col.map rstrip := by
    intro n
    induction n with
    | zero =>
      rw [List.replicate_zero, List.append_nil, List.rdropWhile_eq_self_iff]
      intro hc hempty
      obtain ⟨t, ht, hlast⟩ := List.mem_map.mp (List.getLast_mem hc)
      exact hne t ht (hlast.trans (List.isEmpty_iff.mp hempty))
    | succ n ih =>
      rw [List.replicate_succ', ← List.append_assoc, List.rdropWhile_concat_pos _ _ _ (by rfl), ih]
  rw [columnAt, hline, hblank]

theorem mem_grid {line : Text} (h : line ∈ grid w cols) {d : Char} (hd : d ∈ line) :
    d = ' ' ∨ ∃ col ∈ cols, ∃ t ∈ col, d ∈ t := by
  obtain ⟨i, -, rfl⟩ := List.mem_map.mp h
  rcases mem_sideBySide hd with rfl | ⟨t, ht, hdt⟩
  · exact Or.inl rfl
  · obtain ⟨col, hcol, rfl⟩ := List.mem_map.mp ht
    refine Or.inr ⟨col, hcol, col.getD i [], ?_, hdt⟩
    rw [List.getD_eq_getElem?_getD] at hdt ⊢
    rcases hci : col[i]? with - | t
    · rw [hci] at hdt
      exact absurd hdt List.not_mem_nil
    · exact List.mem_of_getElem? hci

end Columns

end Text
