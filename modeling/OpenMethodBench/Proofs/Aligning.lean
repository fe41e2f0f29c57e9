import Mathlib
import OpenMethodBench.Spec.Align

/-! Aligning the tables of a text: what the padded lines read back as, that a second run
changes nothing, and that the tables of the generators survive. -/

namespace OMB

/-! ## A printed row, read back -/

/-- A cell between its blanks. -/
def framed (c : Text) : Text := ' ' :: c ++ [' ']

theorem join_framed {cells : List Text} (h : cells ≠ []) :
    Text.join '|' (cells.map framed) = ' ' :: (" | ".toList.intercalate cells ++ [' ']) := by
  induction cells with
  | nil => exact absurd rfl h
  | cons c cs ih =>
    rcases cs with - | ⟨d, ds⟩
    · simp [framed]
    · rw [List.map_cons, List.map_cons, Text.join_cons_cons, ← List.map_cons, ih (by simp),
        List.intercalate_cons_cons]
      simp [framed]

theorem rowText_eq {cells : List Text} (h : cells ≠ []) :
    rowText cells = '|' :: Text.join '|' (cells.map framed) ++ ['|'] := by
  rw [join_framed h]
  simp [rowText]

theorem head_rowText (cells : List Text) : (rowText cells).head? = some '|' := rfl

theorem last_rowText (cells : List Text) : (rowText cells).getLast? = some '|' := by
  rw [rowText, List.getLast?_append_of_ne_nil _ (by decide)]
  rfl

theorem isRow_rowText (cells : List Text) : isRow (rowText cells) = true := rfl

theorem not_mem_framed {c : Text} (h : '|' ∉ c) : '|' ∉ framed c := by
  simpa [framed] using h

theorem strip_framed (c : Text) : Text.strip (framed c) = Text.strip c := by
  rw [framed, List.cons_append, Text.strip_cons_space (by decide),
    Text.strip_append_space (by decide)]

/-- What stands between the outer pipes. -/
theorem stripChar_rowText {cells : List Text} (h : cells ≠ []) :
    Text.stripChar '|' (Text.strip (rowText cells)) = Text.join '|' (cells.map framed) := by
  have htrim : Text.Trimmed (rowText cells) := by
    refine ⟨fun c hc => ?_, fun c hc => ?_⟩
    · rw [head_rowText] at hc
      obtain rfl := Option.some.inj hc
      decide
    · rw [last_rowText] at hc
      obtain rfl := Option.some.inj hc
      decide
  rw [Text.strip_eq_self htrim, rowText_eq h]
  apply Text.stripChar_between
  · rw [join_framed h]
    simp
  · intro d hd
    rw [join_framed h, ← List.cons_append, List.getLast?_append_of_ne_nil _ (by simp)] at hd
    obtain rfl := Option.some.inj hd
    decide

theorem cellsOf_rowText {cells : List Text} (hne : cells ≠ []) (h : ∀ c ∈ cells, '|' ∉ c) :
    cellsOf (rowText cells) = cells.map Text.strip := by
  have hframed : ∀ c ∈ cells.map framed, '|' ∉ c := by
    intro c hc
    obtain ⟨d, hd, rfl⟩ := List.mem_map.mp hc
    exact not_mem_framed (h d hd)
  rw [cellsOf, stripChar_rowText hne, Text.splitOn_join (by simpa using hne) hframed, List.map_map]
  exact List.map_congr_left fun c _ => strip_framed c

/-! ## Cells -/

/-- What a line between two line ends can hold as a cell. -/
structure PlainCell (c : Text) : Prop where
  no_pipe : '|' ∉ c
  no_line : '\n' ∉ c
  trimmed : Text.Trimmed c

theorem PlainCell.nil : PlainCell [] := ⟨by simp, by simp, by simp [Text.Trimmed]⟩

theorem PlainCell.dashes (w : ℕ) : PlainCell (List.replicate w '-') := by
  have hall : ∀ c ∈ List.replicate w '-', c = '-' := fun c hc => List.eq_of_mem_replicate hc
  refine ⟨fun h => ?_, fun h => ?_, Text.trimmed_of_forall fun c hc => ?_⟩
  · exact absurd (hall _ h) (by decide)
  · exact absurd (hall _ h) (by decide)
  · rw [hall c hc]
    decide

theorem PlainCell.strip_eq {c : Text} (h : PlainCell c) : Text.strip c = c := Text.strip_eq_self h.trimmed

theorem strip_ljust {c : Text} (h : PlainCell c) (w : ℕ) : Text.strip (Text.ljust w c) = c := by
  rw [Text.ljust, Text.strip_append_spaces, h.strip_eq]

theorem cellsOf_cell {l : Text} (hl : '\n' ∉ l) : ∀ c ∈ cellsOf l, PlainCell c := by
  intro c hc
  obtain ⟨p, hp, rfl⟩ := List.mem_map.mp hc
  have hsub : ∀ d ∈ Text.strip p, d ∈ p := fun d hd => (Text.strip_sublist p).subset hd
  refine ⟨fun h => Text.not_mem_of_mem_splitOn hp (hsub _ h), fun h => hl ?_, Text.trimmed_strip p⟩
  have hbody : (Text.stripChar '|' (Text.strip l)).Sublist l :=
    ((List.rdropWhile_prefix _ _).sublist.trans (List.dropWhile_sublist _)).trans
      (Text.strip_sublist l)
  exact hbody.subset (Text.mem_of_mem_splitOn hp (hsub _ h))

theorem cellsOf_ne_nil (l : Text) : cellsOf l ≠ [] := by
  simp [cellsOf]

/-! ## One block, read back -/

/-- The rows of a block of table lines. -/
structure Rows (rows : List (List Text)) : Prop where
  ne_nil : ∀ r ∈ rows, r ≠ []
  cells : ∀ r ∈ rows, ∀ c ∈ r, PlainCell c

/-- The cells of an aligned row, without their padding. -/
def rereadRow (rows : List (List Text)) (r : List Text) : List Text :=
  if isSep r then (columnWidths rows).map fun w => List.replicate w '-'
  else padRow (columnCount rows) r

def alignedRow (rows : List (List Text)) (r : List Text) : Text :=
  rowText (alignedCells (columnWidths rows) (isSep r) (padRow (columnCount rows) r))

section Block

variable {rows : List (List Text)} {r : List Text}

theorem isGreatest_foldr_max (n : ℕ) (ws : List ℕ) :
    IsGreatest ({n} ∪ {w | w ∈ ws}) (ws.foldr max n) := by
  induction ws with
  | nil => exact ⟨Or.inl rfl, fun w hw => by simp_all⟩
  | cons v ws ih =>
    obtain ⟨hmem, hle⟩ := ih
    rw [List.foldr_cons]
    refine ⟨?_, fun w hw => ?_⟩
    · rcases Nat.le_total v (ws.foldr max n) with h | h
      · rw [Nat.max_eq_right h]
        exact hmem.imp_right fun hw => List.mem_cons_of_mem v hw
      · rw [Nat.max_eq_left h]
        exact Or.inr List.mem_cons_self
    · rcases hw with hw | hw
      · exact (hle (Or.inl hw)).trans (Nat.le_max_right _ _)
      · rcases List.mem_cons.mp hw with rfl | hw
        · exact Nat.le_max_left _ _
        · exact (hle (Or.inr hw)).trans (Nat.le_max_right _ _)

theorem le_columnCount (hr : r ∈ rows) : r.length ≤ columnCount rows :=
  (isGreatest_foldr_max 0 _).2 (Or.inr (List.mem_map_of_mem hr))

theorem length_padRow (hr : r ∈ rows) : (padRow (columnCount rows) r).length = columnCount rows := by
  have := le_columnCount hr
  rw [padRow, List.length_append, List.length_replicate]
  omega

theorem length_columnWidths (rows : List (List Text)) :
    (columnWidths rows).length = columnCount rows := by
  simp [columnWidths]

theorem three_le_columnWidths : ∀ w ∈ columnWidths rows, 3 ≤ w := by
  intro w hw
  obtain ⟨c, -, rfl⟩ := List.mem_map.mp hw
  exact (isGreatest_foldr_max 3 _).2 (Or.inl rfl)

theorem length_rereadRow (hr : r ∈ rows) : (rereadRow rows r).length = columnCount rows := by
  unfold rereadRow
  split_ifs
  · rw [List.length_map, length_columnWidths]
  · exact length_padRow hr

theorem cell_padRow (h : Rows rows) (hr : r ∈ rows) : ∀ c ∈ padRow (columnCount rows) r, PlainCell c := by
  intro c hc
  rcases List.mem_append.mp hc with hc | hc
  · exact h.cells r hr c hc
  · rw [List.eq_of_mem_replicate hc]
    exact PlainCell.nil

/-- The padding goes with the trimming. -/
theorem strip_alignedCells {widths : List ℕ} {cells : List Text} (hc : ∀ c ∈ cells, PlainCell c)
    (hlen : cells.length = widths.length) (sep : Bool) :
    (alignedCells widths sep cells).map Text.strip =
      if sep then widths.map fun w => List.replicate w '-' else cells := by
  induction cells generalizing widths with
  | nil =>
    obtain rfl := List.eq_nil_of_length_eq_zero hlen.symm
    cases sep <;> rfl
  | cons c cs ih =>
    obtain ⟨w, ws, rfl⟩ := List.exists_cons_of_length_eq_add_one hlen.symm
    have hrest := ih (fun d hd => hc d (List.mem_cons_of_mem c hd)) (by simpa using hlen)
    have hcons : (alignedCells (w :: ws) sep (c :: cs)).map Text.strip =
        Text.strip (if sep then List.replicate w '-' else Text.ljust w c) ::
          (alignedCells ws sep cs).map Text.strip := rfl
    rw [hcons, hrest]
    cases sep
    · rw [if_neg (by decide), if_neg (by decide), if_neg (by decide),
        strip_ljust (hc c List.mem_cons_self)]
    · rw [if_pos rfl, if_pos rfl, if_pos rfl, (PlainCell.dashes w).strip_eq, List.map_cons]

theorem alignedCells_no_pipe (widths : List ℕ) {cells : List Text} (hc : ∀ c ∈ cells, PlainCell c)
    (sep : Bool) : ∀ c ∈ alignedCells widths sep cells, '|' ∉ c ∧ '\n' ∉ c := by
  intro c hmem
  obtain ⟨v, hv, w, -, rfl⟩ : ∃ v ∈ cells, ∃ w ∈ widths,
      (if sep then List.replicate w '-' else Text.ljust w v) = c := by
    obtain ⟨i, hi, rfl⟩ := List.mem_iff_getElem.mp hmem
    rw [alignedCells, List.length_zipWith, Nat.lt_min] at hi
    exact ⟨cells[i], List.getElem_mem _, widths[i], List.getElem_mem _, by simp [alignedCells]⟩
  have hv := hc v hv
  cases sep
  · have hno : ∀ d, d ≠ ' ' → d ∉ v → d ∉ Text.ljust w v := by
      intro d hd hdv hmem
      rcases List.mem_append.mp hmem with h | h
      · exact hdv h
      · exact hd (List.eq_of_mem_replicate h)
    exact ⟨hno '|' (by decide) hv.no_pipe, hno '\n' (by decide) hv.no_line⟩
  · exact ⟨(PlainCell.dashes w).no_pipe, (PlainCell.dashes w).no_line⟩

theorem alignedCells_ne_nil (h : Rows rows) (hr : r ∈ rows) :
    alignedCells (columnWidths rows) (isSep r) (padRow (columnCount rows) r) ≠ [] := by
  have hpos : 0 < r.length := List.length_pos_iff.mpr (h.ne_nil r hr)
  have hle := le_columnCount hr
  rw [← List.length_pos_iff, alignedCells, List.length_zipWith, length_padRow hr,
    length_columnWidths]
  omega

/-- An aligned row reads back as its cells, or as dashes. -/
theorem cellsOf_alignedRow (h : Rows rows) (hr : r ∈ rows) :
    cellsOf (alignedRow rows r) = rereadRow rows r := by
  have hcell := cell_padRow h hr
  rw [alignedRow, cellsOf_rowText (alignedCells_ne_nil h hr)
    (fun c hc => (alignedCells_no_pipe _ hcell _ c hc).1),
    strip_alignedCells hcell (by rw [length_padRow hr, length_columnWidths])]
  rfl

/-! ## A block aligned twice -/

theorem isSep_rereadRow (r : List Text) : isSep (rereadRow rows r) = isSep r := by
  unfold rereadRow
  by_cases hsep : isSep r = true
  · rw [if_pos hsep, hsep, isSep, List.all_eq_true]
    intro c hc
    obtain ⟨w, hw, rfl⟩ := List.mem_map.mp hc
    have hpos := three_le_columnWidths w hw
    have hne : w ≠ 0 := by omega
    simp [isDashes, hne]
  · rw [if_neg hsep]
    rw [Bool.not_eq_true] at hsep
    rw [hsep, isSep, padRow, List.all_append]
    rw [isSep] at hsep
    rw [hsep, Bool.false_and]

theorem columnCount_reread : columnCount (rows.map (rereadRow rows)) = columnCount rows := by
  apply Nat.le_antisymm
  · have hle : ∀ ss : List (List Text), (∀ s ∈ ss, s.length ≤ columnCount rows) →
        columnCount ss ≤ columnCount rows := by
      intro ss hss
      induction ss with
      | nil => exact Nat.zero_le _
      | cons s ss ih =>
        exact Nat.max_le.mpr ⟨hss s List.mem_cons_self,
          ih fun t ht => hss t (List.mem_cons_of_mem s ht)⟩
    apply hle
    intro s hs
    obtain ⟨r, hr, rfl⟩ := List.mem_map.mp hs
    exact (length_rereadRow hr).le
  · rcases rows with - | ⟨r, rest⟩
    · exact Nat.zero_le _
    · have hmem : rereadRow (r :: rest) r ∈ (r :: rest).map (rereadRow (r :: rest)) :=
        List.mem_map_of_mem List.mem_cons_self
      have hle := le_columnCount hmem
      rwa [length_rereadRow List.mem_cons_self] at hle

theorem padRow_rereadRow (hr : r ∈ rows) :
    padRow (columnCount rows) (rereadRow rows r) = rereadRow rows r := by
  rw [padRow, length_rereadRow hr, Nat.sub_self, List.replicate_zero, List.append_nil]

/-- Only data cells count for a width, and they read back as they were. -/
theorem columnWidth_reread (c : ℕ) :
    columnWidth (rows.map (rereadRow rows)) c = columnWidth rows c := by
  have hfilter : ((rows.map (rereadRow rows)).filter fun r => !isSep r) =
      (rows.filter fun r => !isSep r).map (rereadRow rows) := by
    rw [List.filter_map]
    congr 1
    exact List.filter_congr fun r _ => by simp only [Function.comp, isSep_rereadRow]
  unfold columnWidth
  rw [hfilter, List.map_map, columnCount_reread]
  congr 1
  refine List.map_congr_left fun r hr => ?_
  obtain ⟨hmem, hsep⟩ := List.mem_filter.mp hr
  have hdata : rereadRow rows r = padRow (columnCount rows) r :=
    if_neg (by simpa using hsep)
  rw [Function.comp, padRow_rereadRow hmem, hdata]

theorem columnWidths_reread : columnWidths (rows.map (rereadRow rows)) = columnWidths rows := by
  rw [columnWidths, columnCount_reread]
  exact List.map_congr_left fun c _ => columnWidth_reread c

theorem alignedRow_reread (hr : r ∈ rows) :
    alignedRow (rows.map (rereadRow rows)) (rereadRow rows r) = alignedRow rows r := by
  rw [alignedRow, columnWidths_reread, isSep_rereadRow, columnCount_reread, padRow_rereadRow hr,
    alignedRow]
  by_cases hsep : isSep r = true
  · -- a separator is as wide as the table, whatever its cells
    have hzip : ∀ (cells : List Text) (widths : List ℕ), cells.length = widths.length →
        alignedCells widths true cells = widths.map fun w => List.replicate w '-' := by
      intro cells widths hlen
      apply List.ext_getElem
      · simp [alignedCells, hlen]
      · intro i hi hi'
        simp [alignedCells]
    rw [hsep, hzip _ _ (by rw [length_rereadRow hr, length_columnWidths]),
      hzip _ _ (by rw [length_padRow hr, length_columnWidths])]
  · rw [rereadRow, if_neg hsep]

end Block

theorem rows_cellsOf {block : List Text} (h : ∀ l ∈ block, '\n' ∉ l) : Rows (block.map cellsOf) := by
  refine ⟨fun r hr => ?_, fun r hr => ?_⟩
  · obtain ⟨l, -, rfl⟩ := List.mem_map.mp hr
    exact cellsOf_ne_nil l
  · obtain ⟨l, hl, rfl⟩ := List.mem_map.mp hr
    exact cellsOf_cell (h l hl)

theorem alignBlock_eq (block : List Text) :
    alignBlock block = (block.map cellsOf).map (alignedRow (block.map cellsOf)) := rfl

theorem alignBlock_alignBlock {block : List Text} (h : ∀ l ∈ block, '\n' ∉ l) :
    alignBlock (alignBlock block) = alignBlock block := by
  have hrows := rows_cellsOf h
  have hreread : (alignBlock block).map cellsOf =
      (block.map cellsOf).map (rereadRow (block.map cellsOf)) := by
    rw [alignBlock_eq, List.map_map]
    exact List.map_congr_left fun r hr => cellsOf_alignedRow hrows hr
  rw [alignBlock_eq (alignBlock block), hreread, List.map_map, alignBlock_eq block]
  exact List.map_congr_left fun r hr => alignedRow_reread hr

/-! ## The lines of a text -/

theorem alignBlock_isRow (block : List Text) : ∀ l ∈ alignBlock block, isRow l = true := by
  intro l hl
  obtain ⟨r, -, rfl⟩ := List.mem_map.mp hl
  exact isRow_rowText _

theorem alignBlock_no_line {block : List Text} (h : ∀ l ∈ block, '\n' ∉ l) :
    ∀ l ∈ alignBlock block, '\n' ∉ l := by
  have hrows := rows_cellsOf h
  intro l hl
  obtain ⟨r, hr, rfl⟩ := List.mem_map.mp hl
  have hcells := alignedCells_no_pipe (columnWidths (block.map cellsOf))
    (cell_padRow hrows hr) (isSep r)
  rw [rowText_eq (alignedCells_ne_nil hrows hr)]
  intro hmem
  rcases List.mem_append.mp hmem with hmem | hmem
  · rcases List.mem_cons.mp hmem with hmem | hmem
    · exact absurd hmem (by decide)
    · rcases Text.mem_join hmem with hmem | ⟨p, hp, hmem⟩
      · exact absurd hmem (by decide)
      · obtain ⟨c, hc, rfl⟩ := List.mem_map.mp hp
        simp [framed, (hcells c hc).2] at hmem
  · exact absurd hmem (by decide)

theorem alignLines_other {l : Text} (h : isRow l = false) (ls : List Text) :
    alignLines (l :: ls) = l :: alignLines ls := by
  rw [alignLines, h, if_neg (by decide)]

/-- A block ends where a line does not start with a pipe. -/
theorem alignLines_block {block rest : List Text} (hne : block ≠ [])
    (hblock : ∀ l ∈ block, isRow l = true) (hrest : ∀ l ∈ rest.head?, isRow l = false) :
    alignLines (block ++ rest) = alignBlock block ++ alignLines rest := by
  obtain ⟨l, ls, rfl⟩ := List.exists_cons_of_ne_nil hne
  have hls : ∀ m ∈ ls, isRow m = true := fun m hm => hblock m (List.mem_cons_of_mem l hm)
  rw [List.cons_append, alignLines, if_pos (hblock l List.mem_cons_self),
    Text.takeWhile_append_of_head hls hrest, Text.dropWhile_append_of_head hls hrest]

theorem alignLines_head {ls : List Text} (h : ∀ l ∈ ls.head?, isRow l = false) :
    ∀ l ∈ (alignLines ls).head?, isRow l = false := by
  cases ls with
  | nil => simp [alignLines]
  | cons m ms =>
    rw [alignLines_other (h m rfl)]
    exact h

theorem head_dropWhile_isRow (ls : List Text) :
    ∀ l ∈ (ls.dropWhile isRow).head?, isRow l = false := by
  intro l hl
  have hnot := List.head?_dropWhile_not isRow ls
  rw [hl] at hnot
  simpa using hnot

theorem alignLines_ne_nil {ls : List Text} (h : ls ≠ []) : alignLines ls ≠ [] := by
  obtain ⟨l, ls, rfl⟩ := List.exists_cons_of_ne_nil h
  rw [alignLines]
  split_ifs
  · simp [alignBlock_eq]
  · simp

theorem alignLines_no_line {ls : List Text} (h : ∀ l ∈ ls, '\n' ∉ l) :
    ∀ l ∈ alignLines ls, '\n' ∉ l := by
  induction ls using alignLines.induct with
  | case1 => simp [alignLines]
  | case2 l ls hrow ih =>
    have hblock : ∀ m ∈ l :: ls.takeWhile isRow, '\n' ∉ m := by
      intro m hm
      rcases List.mem_cons.mp hm with rfl | hm
      · exact h m List.mem_cons_self
      · exact h m (List.mem_cons_of_mem l ((List.takeWhile_sublist isRow).subset hm))
    have hrest : ∀ m ∈ ls.dropWhile isRow, '\n' ∉ m := fun m hm =>
      h m (List.mem_cons_of_mem l ((List.dropWhile_sublist isRow).subset hm))
    rw [alignLines, if_pos hrow]
    intro m hm
    rcases List.mem_append.mp hm with hm | hm
    · exact alignBlock_no_line hblock m hm
    · exact ih hrest m hm
  | case3 l ls hrow ih =>
    rw [alignLines, if_neg hrow]
    intro m hm
    rcases List.mem_cons.mp hm with rfl | hm
    · exact h m List.mem_cons_self
    · exact ih (fun k hk => h k (List.mem_cons_of_mem l hk)) m hm

/-- Aligned lines fall into the same blocks, each of which stays as it is. -/
theorem alignLines_alignLines {ls : List Text} (h : ∀ l ∈ ls, '\n' ∉ l) :
    alignLines (alignLines ls) = alignLines ls := by
  induction ls using alignLines.induct with
  | case1 => simp [alignLines]
  | case2 l ls hrow ih =>
    have hblock : ∀ m ∈ l :: ls.takeWhile isRow, '\n' ∉ m := by
      intro m hm
      rcases List.mem_cons.mp hm with rfl | hm
      · exact h m List.mem_cons_self
      · exact h m (List.mem_cons_of_mem l ((List.takeWhile_sublist isRow).subset hm))
    have hrest : ∀ m ∈ ls.dropWhile isRow, '\n' ∉ m := fun m hm =>
      h m (List.mem_cons_of_mem l ((List.dropWhile_sublist isRow).subset hm))
    have hne : alignBlock (l :: ls.takeWhile isRow) ≠ [] := by simp [alignBlock_eq]
    have hunfold : alignLines (l :: ls) =
        alignBlock (l :: ls.takeWhile isRow) ++ alignLines (ls.dropWhile isRow) := by
      rw [alignLines, if_pos hrow]
    rw [hunfold, alignLines_block hne (alignBlock_isRow _)
      (alignLines_head (head_dropWhile_isRow ls)), alignBlock_alignBlock hblock, ih hrest]
  | case3 l ls hrow ih =>
    have hother : isRow l = false := by simpa using hrow
    rw [alignLines_other hother, alignLines_other hother,
      ih fun k hk => h k (List.mem_cons_of_mem l hk)]

/-- The lines of an aligned text are the aligned lines. -/
theorem splitOn_alignTables (text : Text) :
    (alignTables text).splitOn '\n' = alignLines (text.splitOn '\n') := by
  rw [alignTables]
  exact Text.splitOn_join (alignLines_ne_nil (List.splitOn_ne_nil _ _))
    (alignLines_no_line fun _ hl => Text.not_mem_of_mem_splitOn hl)

/-- Aligning an aligned text is a no-op. -/
theorem align_idempotent (text : Text) : alignTables (alignTables text) = alignTables text := by
  rw [alignTables, splitOn_alignTables,
    alignLines_alignLines fun _ hl => Text.not_mem_of_mem_splitOn hl, alignTables]

/-! ## Tables as the generators print them -/

/-- A row of cells, not all of them dashes. -/
structure DataRow where
  cells : List Text
  cell : ∀ c ∈ cells, PlainCell c
  data : ∃ c ∈ cells, isDashes c = false

/-- A line of a table: a data row, or a separator `|---|...|` one column wider than the
number. -/
inductive TableLine
  | data (row : DataRow)
  | sep (more : ℕ)

namespace TableLine

def text : TableLine → Text
  | data row => rowText row.cells
  | sep more => '|' :: (List.replicate (more + 1) "---|".toList).flatten

def row : TableLine → List Text
  | data row => row.cells
  | sep more => List.replicate (more + 1) "---".toList

def isRule : TableLine → Bool
  | data _ => false
  | sep _ => true

end TableLine

/-- What a line of text or a block of table lines takes of a text. -/
inductive Segment
  | other (line : Text)
  | table (lines : List TableLine)

namespace Segment

def lines : Segment → List Text
  | other line => [line]
  | table ts => ts.map TableLine.text

def isTable : Segment → Bool
  | other _ => false
  | table _ => true

/-- A line that starts no table row, or some table lines. -/
def Proper : Segment → Prop
  | other line => isRow line = false
  | table ts => ts ≠ []

end Segment

/-- The fields of a line between its pipes, trimmed, are `cells`, with nothing outside the
outer pipes. -/
def ShowsCells (line : Text) (cells : List Text) : Prop :=
  (line.splitOn '|').map Text.strip = [] :: (cells ++ [[]])

/-- The widest data cell of column `c`, at least 3. -/
def IsWidth (ts : List TableLine) (c w : ℕ) : Prop :=
  IsGreatest ({3} ∪ {n | ∃ row, .data row ∈ ts ∧ n = (row.cells.getD c []).length}) w

/-- The lines of a table, aligned to columns of the widths `ws`. -/
structure AlignedTable (ts : List TableLine) (ws : List ℕ) (out : List Text) : Prop where
  columns : IsGreatest {n | ∃ t ∈ ts, n = t.row.length} ws.length
  widths : ∀ c w, ws[c]? = some w → IsWidth ts c w
  even : ∀ l ∈ out, ∀ m ∈ out, l.length = m.length
  cells : List.Forall₂ (fun t l => ShowsCells l
    (if t.isRule then ws.map fun w => List.replicate w '-' else padRow ws.length t.row)) ts out
  rules : ∀ t ∈ ts, t.isRule = false → ∃ c ∈ padRow ws.length t.row, isDashes c = false

/-- What becomes of a part of the text. -/
def Segment.Aligned : Segment → List Text → Prop
  | .other line, out => out = [line]
  | .table ts, out => ∃ ws, AlignedTable ts ws out

/-! ## Reading them -/

theorem DataRow.not_sep (r : DataRow) : isSep r.cells = false := by
  obtain ⟨c, hc, hdash⟩ := r.data
  rw [isSep, List.all_eq_false]
  exact ⟨c, hc, by simp [hdash]⟩

theorem DataRow.ne_nil (r : DataRow) : r.cells ≠ [] := by
  obtain ⟨c, hc, -⟩ := r.data
  exact List.ne_nil_of_mem hc

theorem TableLine.isSep_row (t : TableLine) : isSep t.row = t.isRule := by
  cases t with
  | data r => exact r.not_sep
  | sep more =>
    rw [TableLine.row, TableLine.isRule, isSep, List.all_eq_true]
    intro c hc
    rw [List.eq_of_mem_replicate hc]
    decide

/-- The dashes between the outer pipes of a separator. -/
theorem join_rule (more : ℕ) : Text.join '|' (List.replicate (more + 1) "---".toList) =
    (List.replicate more "---|".toList).flatten ++ "---".toList := by
  induction more with
  | zero => rfl
  | succ n ih =>
    rw [List.replicate_succ, List.replicate_succ, Text.join_cons_cons, ← List.replicate_succ, ih,
      List.replicate_succ (n := n), List.flatten_cons]
    rfl

theorem cellsOf_rule (more : ℕ) :
    cellsOf (TableLine.sep more).text = List.replicate (more + 1) "---".toList := by
  have htext : (TableLine.sep more).text =
      '|' :: Text.join '|' (List.replicate (more + 1) "---".toList) ++ ['|'] := by
    rw [join_rule, TableLine.text, List.replicate_succ', List.flatten_append]
    simp
  have hhead : ∀ d ∈ (Text.join '|' (List.replicate (more + 1) "---".toList)).head?, d ≠ '|' := by
    intro d hd
    rw [join_rule] at hd
    cases more with
    | zero => exact Option.some.inj hd ▸ by decide
    | succ n =>
      rw [List.replicate_succ, List.flatten_cons] at hd
      exact Option.some.inj hd ▸ by decide
  have hlast : ∀ d ∈ (Text.join '|' (List.replicate (more + 1) "---".toList)).getLast?, d ≠ '|' := by
    intro d hd
    rw [join_rule, List.getLast?_append_of_ne_nil _ (by decide)] at hd
    exact Option.some.inj hd ▸ by decide
  have htrim : Text.Trimmed (TableLine.sep more).text := by
    rw [htext]
    refine ⟨fun c hc => ?_, fun c hc => ?_⟩
    · exact Option.some.inj hc ▸ by decide
    · rw [List.getLast?_append_of_ne_nil _ (by simp)] at hc
      exact Option.some.inj hc ▸ by decide
  rw [cellsOf, Text.strip_eq_self htrim, htext, Text.stripChar_between hhead hlast,
    Text.splitOn_join (by simp) fun p hp => List.eq_of_mem_replicate hp ▸ by decide,
    List.map_replicate]
  rfl

theorem TableLine.cellsOf_text (t : TableLine) : cellsOf t.text = t.row := by
  cases t with
  | data r =>
    have hcell : r.cells.map Text.strip = r.cells := by
      conv_rhs => rw [← List.map_id r.cells]
      exact List.map_congr_left fun c hc => (r.cell c hc).strip_eq
    rw [TableLine.text, cellsOf_rowText r.ne_nil fun c hc => (r.cell c hc).no_pipe, hcell]
    rfl
  | sep more => exact cellsOf_rule more

/-! ## A table of the generators, aligned -/

theorem showsCells_rowText {cells : List Text} (hne : cells ≠ []) (h : ∀ c ∈ cells, '|' ∉ c) :
    ShowsCells (rowText cells) (cells.map Text.strip) := by
  have hframed : ∀ c ∈ cells.map framed, '|' ∉ c := by
    intro c hc
    obtain ⟨d, hd, rfl⟩ := List.mem_map.mp hc
    exact not_mem_framed (h d hd)
  have hfirst : ∀ t : Text, ('|' :: t).splitOn '|' = [] :: t.splitOn '|' := fun t =>
    List.splitOn_append_cons_self [] t
  have hsplit : (rowText cells).splitOn '|' = [] :: (cells.map framed ++ [[]]) := by
    rw [rowText_eq hne, List.cons_append, hfirst, List.splitOn_append_cons_self,
      Text.splitOn_join (by simpa using hne) hframed, List.splitOn_nil]
  have hstrip : (cells.map framed).map Text.strip = cells.map Text.strip := by
    rw [List.map_map]
    exact List.map_congr_left fun c _ => strip_framed c
  rw [ShowsCells, hsplit, List.map_cons, List.map_append, hstrip]
  rfl

theorem length_join_framed {cells : List Text} (hne : cells ≠ []) :
    (Text.join '|' (cells.map framed)).length + 1 = (cells.map fun c => c.length + 3).sum := by
  induction cells with
  | nil => exact absurd rfl hne
  | cons c cs ih =>
    rcases cs with - | ⟨d, ds⟩
    · simp [framed]
    · have hrest := ih (by simp)
      have hsum : ((c :: d :: ds).map fun c => c.length + 3).sum =
          c.length + 3 + ((d :: ds).map fun c => c.length + 3).sum := rfl
      have hframed : (framed c).length = c.length + 2 := by simp [framed]
      rw [hsum, ← hrest, List.map_cons, List.map_cons, Text.join_cons_cons, ← List.map_cons,
        List.length_append, List.length_cons, hframed]
      omega

/-- The length of a row is told by those of its cells. -/
theorem length_rowText {cells : List Text} (hne : cells ≠ []) :
    (rowText cells).length = ((cells.map List.length).map (· + 3)).sum + 1 := by
  have hjoin := length_join_framed hne
  rw [rowText_eq hne, List.length_append, List.length_cons, hjoin, List.map_map]
  rfl

section Generated

variable {ts : List TableLine}

theorem getD_padRow (n c : ℕ) (r : List Text) : (padRow n r).getD c [] = r.getD c [] := by
  rw [padRow, List.getD_eq_getElem?_getD, List.getD_eq_getElem?_getD, List.getElem?_append]
  split_ifs with h
  · rfl
  · rw [List.getElem?_eq_none (by omega : r.length ≤ c), List.getElem?_replicate]
    split_ifs <;> rfl

theorem rows_row (ts : List TableLine) : Rows (ts.map TableLine.row) := by
  refine ⟨fun r hr => ?_, fun r hr => ?_⟩
  · obtain ⟨t, -, rfl⟩ := List.mem_map.mp hr
    cases t with
    | data r => exact r.ne_nil
    | sep more => simp [TableLine.row]
  · obtain ⟨t, -, rfl⟩ := List.mem_map.mp hr
    cases t with
    | data r => exact r.cell
    | sep more => exact fun c hc => List.eq_of_mem_replicate hc ▸ PlainCell.dashes 3

theorem isGreatest_columns (h : ts ≠ []) :
    IsGreatest {n | ∃ t ∈ ts, n = t.row.length} (columnCount (ts.map TableLine.row)) := by
  obtain ⟨hmem, hle⟩ := isGreatest_foldr_max 0 ((ts.map TableLine.row).map List.length)
  have hupper : ∀ t ∈ ts, t.row.length ≤ columnCount (ts.map TableLine.row) := fun t ht =>
    le_columnCount (List.mem_map_of_mem ht)
  refine ⟨?_, fun n ⟨t, ht, hn⟩ => hn ▸ hupper t ht⟩
  rcases hmem with hzero | hmem
  · obtain ⟨t, us, rfl⟩ := List.exists_cons_of_ne_nil h
    have hle := hupper t List.mem_cons_self
    have hzero : columnCount ((t :: us).map TableLine.row) = 0 := hzero
    exact ⟨t, List.mem_cons_self, by omega⟩
  · obtain ⟨r, hr, hlen⟩ := List.mem_map.mp hmem
    obtain ⟨t, ht, rfl⟩ := List.mem_map.mp hr
    exact ⟨t, ht, hlen.symm⟩

/-- A column is as wide as its widest data cell. -/
theorem isWidth_columnWidth (ts : List TableLine) (c : ℕ) :
    IsWidth ts c (columnWidth (ts.map TableLine.row) c) := by
  have hset : {w | w ∈ ((ts.map TableLine.row).filter fun r => !isSep r).map fun r =>
        ((padRow (columnCount (ts.map TableLine.row)) r).getD c []).length} =
      {n | ∃ row, .data row ∈ ts ∧ n = (row.cells.getD c []).length} := by
    ext n
    simp only [Set.mem_ofPred_eq, List.mem_map, List.mem_filter, getD_padRow]
    constructor
    · intro ⟨r, ⟨⟨t, ht, hr⟩, hsep⟩, hn⟩
      subst hr
      rw [t.isSep_row] at hsep
      cases t with
      | data row => exact ⟨row, ht, hn.symm⟩
      | sep more => simp [TableLine.isRule] at hsep
    · intro ⟨row, hrow, hn⟩
      exact ⟨row.cells, ⟨⟨.data row, hrow, rfl⟩, by simp [row.not_sep]⟩, hn.symm⟩
  have hgreatest := isGreatest_foldr_max 3 (((ts.map TableLine.row).filter fun r => !isSep r).map
    fun r => ((padRow (columnCount (ts.map TableLine.row)) r).getD c []).length)
  rw [hset] at hgreatest
  exact hgreatest

/-- Every aligned cell fills its column. -/
theorem map_length_alignedCells {cells : List Text} {widths : List ℕ}
    (hlen : cells.length = widths.length) (sep : Bool)
    (hfit : sep = false → ∀ (i : ℕ) (c : Text) (w : ℕ), cells[i]? = some c →
      widths[i]? = some w → c.length ≤ w) :
    (alignedCells widths sep cells).map List.length = widths := by
  induction cells generalizing widths with
  | nil => exact (List.eq_nil_of_length_eq_zero hlen.symm).symm ▸ rfl
  | cons c cs ih =>
    obtain ⟨w, ws, rfl⟩ := List.exists_cons_of_length_eq_add_one hlen.symm
    have hrest := @ih ws (by simpa using hlen) fun hsep i d v hd hv =>
      hfit hsep (i + 1) d v hd hv
    have hcell : (if sep then List.replicate w '-' else Text.ljust w c).length = w := by
      cases sep
      · have hle := hfit rfl 0 c w rfl rfl
        rw [if_neg (by decide), Text.ljust, List.length_append, List.length_replicate]
        omega
      · rw [if_pos rfl, List.length_replicate]
    have hcons : (alignedCells (w :: ws) sep (c :: cs)).map List.length =
        (if sep then List.replicate w '-' else Text.ljust w c).length ::
          (alignedCells ws sep cs).map List.length := rfl
    rw [hcons, hcell, hrest]

theorem getElem?_columnWidths {rows : List (List Text)} {c w : ℕ}
    (h : (columnWidths rows)[c]? = some w) : w = columnWidth rows c := by
  rw [columnWidths, List.getElem?_map, Option.map_eq_some_iff] at h
  obtain ⟨k, hk, hw⟩ := h
  obtain ⟨hlt, hget⟩ := List.getElem?_eq_some_iff.mp hk
  rw [List.getElem_range] at hget
  rw [← hw, hget]

theorem length_alignedRow {t : TableLine} (ht : t ∈ ts) :
    (alignedRow (ts.map TableLine.row) t.row).length =
      ((columnWidths (ts.map TableLine.row)).map (· + 3)).sum + 1 := by
  have hmem : t.row ∈ ts.map TableLine.row := List.mem_map_of_mem ht
  have hlen := length_padRow hmem
  rw [alignedRow, length_rowText (alignedCells_ne_nil (rows_row ts) hmem), map_length_alignedCells]
  · rw [hlen, length_columnWidths]
  · intro hsep i c w hc hw
    rw [t.isSep_row] at hsep
    cases t with
    | sep more => simp [TableLine.isRule] at hsep
    | data row =>
      have hwidth := (isWidth_columnWidth ts i).2 (Or.inr ⟨row, ht, rfl⟩)
      have hget := getD_padRow (columnCount (ts.map TableLine.row)) i row.cells
      rw [List.getD_eq_getElem?_getD, show row.cells = (TableLine.data row).row from rfl, hc] at hget
      have hcell : c = row.cells.getD i [] := hget
      rw [getElem?_columnWidths hw, hcell]
      exact hwidth

/-- A block of the generators, aligned. -/
theorem alignedTable (h : ts ≠ []) :
    AlignedTable ts (columnWidths (ts.map TableLine.row)) (alignBlock (ts.map TableLine.text)) := by
  have hrows := rows_row ts
  have hcells : (ts.map TableLine.text).map cellsOf = ts.map TableLine.row := by
    rw [List.map_map]
    exact List.map_congr_left fun t _ => t.cellsOf_text
  have hout : alignBlock (ts.map TableLine.text) =
      ts.map fun t => alignedRow (ts.map TableLine.row) t.row := by
    rw [alignBlock_eq, hcells, List.map_map]
    rfl
  rw [hout]
  refine ⟨?_, fun c w hw => ?_, fun l hl m hm => ?_, ?_, fun t _ hrule => ?_⟩
  · rw [length_columnWidths]
    exact isGreatest_columns h
  · rw [getElem?_columnWidths hw]
    exact isWidth_columnWidth ts c
  · obtain ⟨t, ht, rfl⟩ := List.mem_map.mp hl
    obtain ⟨u, hu, rfl⟩ := List.mem_map.mp hm
    rw [length_alignedRow ht, length_alignedRow hu]
  · rw [List.forall₂_map_right_iff, List.forall₂_same]
    intro t ht
    have hmem : t.row ∈ ts.map TableLine.row := List.mem_map_of_mem ht
    have hpad := cell_padRow hrows hmem
    have hshow := showsCells_rowText (alignedCells_ne_nil hrows hmem) fun c hc =>
      (alignedCells_no_pipe _ hpad (isSep t.row) c hc).1
    rw [strip_alignedCells hpad (by rw [length_padRow hmem, length_columnWidths])] at hshow
    rw [length_columnWidths, ← t.isSep_row]
    exact hshow
  · cases t with
    | sep more => simp [TableLine.isRule] at hrule
    | data row =>
      obtain ⟨c, hc, hdash⟩ := row.data
      exact ⟨c, List.mem_append_left _ hc, hdash⟩

end Generated

/-! ## A text of the generators, aligned -/

theorem exists_printed (ls : List Text) (h : ∀ l ∈ ls, ∃ t : TableLine, t.text = l) :
    ∃ ts : List TableLine, ts.map TableLine.text = ls := by
  induction ls with
  | nil => exact ⟨[], rfl⟩
  | cons l ls ih =>
    obtain ⟨t, ht⟩ := h l List.mem_cons_self
    obtain ⟨ts, hts⟩ := ih fun m hm => h m (List.mem_cons_of_mem l hm)
    exact ⟨t :: ts, by rw [List.map_cons, ht, hts]⟩

/-- A cut of some lines into tables, as long as they go, and other lines, with what becomes
of each part. -/
structure Cut (ls : List Text) (parts : List Segment) (out : List (List Text)) : Prop where
  lines : ls = parts.flatMap Segment.lines
  proper : ∀ p ∈ parts, p.Proper
  apart : parts.IsChain fun p q => p.isTable = true → q.isTable = false
  aligned : List.Forall₂ Segment.Aligned parts out

theorem Cut.head {ls : List Text} {parts : List Segment} {out : List (List Text)}
    (h : Cut ls parts out) (hls : ∀ l ∈ ls.head?, isRow l = false) :
    ∀ p ∈ parts.head?, p.isTable = false := by
  intro p hp
  obtain ⟨ps, rfl⟩ : ∃ ps, parts = p :: ps := List.head?_eq_some_iff.mp hp
  cases p with
  | other line => rfl
  | table ts =>
    obtain ⟨t, us, rfl⟩ := List.exists_cons_of_ne_nil (h.proper _ List.mem_cons_self)
    have hrow := hls t.text (by rw [h.lines]; rfl)
    cases t with
    | data row => simp [TableLine.text, isRow_rowText] at hrow
    | sep more => simp [TableLine.text, isRow] at hrow

theorem exists_cut {ls : List Text}
    (h : ∀ l ∈ ls, isRow l = true → ∃ t : TableLine, t.text = l) :
    ∃ parts out, Cut ls parts out ∧ alignLines ls = out.flatten := by
  induction ls using alignLines.induct with
  | case1 => exact ⟨[], [], ⟨rfl, by simp, List.isChain_nil, List.Forall₂.nil⟩, by simp [alignLines]⟩
  | case2 l ls hrow ih =>
    have hsub : ∀ m ∈ ls.takeWhile isRow, m ∈ l :: ls := fun m hm =>
      List.mem_cons_of_mem l ((List.takeWhile_sublist isRow).subset hm)
    obtain ⟨ts, hts⟩ := exists_printed (l :: ls.takeWhile isRow) fun m hm => by
      rcases List.mem_cons.mp hm with rfl | hm
      · exact h m List.mem_cons_self hrow
      · exact h m (hsub m hm) (List.mem_takeWhile_imp hm)
    have hne : ts ≠ [] := fun hnil => by simp [hnil] at hts
    obtain ⟨parts, out, hcut, hout⟩ := ih fun m hm =>
      h m (List.mem_cons_of_mem l ((List.dropWhile_sublist isRow).subset hm))
    refine ⟨.table ts :: parts, alignBlock (l :: ls.takeWhile isRow) :: out, ⟨?_, ?_, ?_, ?_⟩, ?_⟩
    · rw [List.flatMap_cons, ← hcut.lines, Segment.lines, hts, List.cons_append,
        List.takeWhile_append_dropWhile]
    · exact List.forall_mem_cons.mpr ⟨hne, hcut.proper⟩
    · refine List.isChain_cons.mpr ⟨fun p hp _ => ?_, hcut.apart⟩
      exact hcut.head (head_dropWhile_isRow ls) p hp
    · rw [← hts]
      exact List.Forall₂.cons ⟨_, alignedTable hne⟩ hcut.aligned
    · rw [alignLines, if_pos hrow, hout, List.flatten_cons]
  | case3 l ls hrow ih =>
    have hother : isRow l = false := by simpa using hrow
    obtain ⟨parts, out, hcut, hout⟩ := ih fun m hm => h m (List.mem_cons_of_mem l hm)
    refine ⟨.other l :: parts, [l] :: out, ⟨?_, ?_, ?_, ?_⟩, ?_⟩
    · rw [List.flatMap_cons, ← hcut.lines]
      rfl
    · exact List.forall_mem_cons.mpr ⟨hother, hcut.proper⟩
    · exact List.isChain_cons.mpr ⟨fun p _ htable => by simp [Segment.isTable] at htable, hcut.apart⟩
    · exact List.Forall₂.cons rfl hcut.aligned
    · rw [alignLines_other hother, hout]
      rfl

theorem Segment.Aligned.length_eq {p : Segment} {out : List Text} (h : p.Aligned out) :
    out.length = p.lines.length := by
  cases p with
  | other line => rw [show out = [line] from h, Segment.lines]
  | table ts =>
    obtain ⟨ws, htable⟩ := h
    rw [← htable.cells.length_eq, Segment.lines, List.length_map]

theorem length_flatten_aligned {parts : List Segment} {out : List (List Text)}
    (h : List.Forall₂ Segment.Aligned parts out) :
    out.flatten.length = (parts.flatMap Segment.lines).length := by
  induction h with
  | nil => rfl
  | cons hp _ ih => rw [List.flatten_cons, List.flatMap_cons, List.length_append,
      List.length_append, hp.length_eq, ih]

/-- Aligning a text whose table lines the generators printed: as many lines, the other lines
as they were, and each table aligned. -/
theorem align_preserves (text : Text)
    (h : ∀ l ∈ text.splitOn '\n', isRow l = true → ∃ t : TableLine, t.text = l) :
    ((alignTables text).splitOn '\n').length = (text.splitOn '\n').length ∧
      ∃ parts out, Cut (text.splitOn '\n') parts out ∧
        (alignTables text).splitOn '\n' = out.flatten := by
  obtain ⟨parts, out, hcut, hout⟩ := exists_cut h
  rw [splitOn_alignTables, hout]
  refine ⟨?_, parts, out, hcut, rfl⟩
  rw [length_flatten_aligned hcut.aligned, ← hcut.lines]

/-- A caption over a table whose last cell is empty. -/
theorem align_preserves_summary :
    let text := "medians\n| a |  |\n|---|---|".toList
    ((alignTables text).splitOn '\n').length = (text.splitOn '\n').length ∧
      ∃ parts out, Cut (text.splitOn '\n') parts out ∧
        (alignTables text).splitOn '\n' = out.flatten := by
  have hcell : ∀ c ∈ ["a".toList, []], PlainCell c := by
    intro c hc
    rcases List.mem_cons.mp hc with rfl | hc
    · exact ⟨by decide, by decide, Text.trimmed_of_forall (by decide)⟩
    · rw [List.mem_singleton.mp hc]
      exact PlainCell.nil
  have hlines : "medians\n| a |  |\n|---|---|".toList.splitOn '\n' =
      ["medians".toList, rowText ["a".toList, []], (TableLine.sep 1).text] := by decide
  refine align_preserves _ fun l hl hrow => ?_
  rw [hlines] at hl
  rcases List.mem_cons.mp hl with rfl | hl
  · exact absurd hrow (by decide)
  rcases List.mem_cons.mp hl with rfl | hl
  · exact ⟨.data ⟨["a".toList, []], hcell, [], by decide, rfl⟩, rfl⟩
  · exact ⟨.sep 1, (List.mem_singleton.mp hl).symm⟩

end OMB
