import Mathlib
import OpenMethodBench.Proofs.Document
import OpenMethodBench.Spec.Readme

/-! Tables among other lines, aligned, are read back cell by cell. -/

namespace OMB

/-! ## Parts of a text -/

/-- Lines around a table. -/
structure Part where
  before : List Text
  block : List Text
  after : List Text

namespace Part

def lines (p : Part) : List Text := p.before ++ (p.block ++ p.after)

def aligned (p : Part) : List Text := p.before ++ (alignBlock p.block ++ p.after)

/-- What stands around the table is no part of it, and something stands after it. -/
structure Proper (p : Part) : Prop where
  before : ∀ l ∈ p.before, isRow l = false
  block : ∀ l ∈ p.block, isRow l = true
  ne_nil : p.block ≠ []
  after : ∀ l ∈ p.after, isRow l = false
  gap : p.after ≠ []

end Part

theorem head_append_not_isRow {after : List Text} (hgap : after ≠ [])
    (hafter : ∀ l ∈ after, isRow l = false) (rest : List Text) :
    ∀ l ∈ (after ++ rest).head?, isRow l = false := by
  intro l hl
  rw [List.head?_append_of_ne_nil _ hgap] at hl
  exact hafter l (List.mem_of_head? hl)

theorem alignLines_parts {ps : List Part} (h : ∀ p ∈ ps, p.Proper) (rest : List Text) :
    alignLines (ps.flatMap Part.lines ++ rest) = ps.flatMap Part.aligned ++ alignLines rest := by
  induction ps with
  | nil => rfl
  | cons p ps ih =>
    have hp := h p List.mem_cons_self
    rw [List.flatMap_cons, List.flatMap_cons, Part.lines, Part.aligned]
    simp only [List.append_assoc]
    rw [alignLines_append hp.before,
      alignLines_block hp.ne_nil hp.block (head_append_not_isRow hp.gap hp.after _),
      alignLines_append hp.after, ih fun q hq => h q (List.mem_cons_of_mem p hq)]

theorem readTables_append {ls : List Text} (h : ∀ l ∈ ls, isRow l = false) (rest : List Text) :
    readTables (ls ++ rest) = readTables rest := by
  induction ls with
  | nil => rfl
  | cons l ls ih =>
    rw [List.cons_append, readTables, h l List.mem_cons_self, if_neg (by decide),
      ih fun m hm => h m (List.mem_cons_of_mem l hm)]

theorem readTables_block {block rest : List Text} (hne : block ≠ [])
    (hblock : ∀ l ∈ block, isRow l = true) (hrest : ∀ l ∈ rest.head?, isRow l = false) :
    readTables (block ++ rest) = dataRows block :: readTables rest := by
  obtain ⟨l, ls, rfl⟩ := List.exists_cons_of_ne_nil hne
  have hls : ∀ m ∈ ls, isRow m = true := fun m hm => hblock m (List.mem_cons_of_mem l hm)
  rw [List.cons_append, readTables, if_pos (hblock l List.mem_cons_self),
    Text.takeWhile_append_of_head hls hrest, Text.dropWhile_append_of_head hls hrest]

/-- Each part has one table, and what stands around it has none. -/
theorem readTables_parts {ps : List Part} (h : ∀ p ∈ ps, p.Proper) (rest : List Text) :
    readTables (ps.flatMap Part.aligned ++ rest) =
      ps.map (fun p => dataRows (alignBlock p.block)) ++ readTables rest := by
  induction ps with
  | nil => rfl
  | cons p ps ih =>
    have hp := h p List.mem_cons_self
    have hne : alignBlock p.block ≠ [] := by
      rw [alignBlock_eq]
      simpa using hp.ne_nil
    rw [List.flatMap_cons, List.map_cons, Part.aligned]
    simp only [List.append_assoc]
    rw [readTables_append hp.before,
      readTables_block hne (alignBlock_isRow p.block) (head_append_not_isRow hp.gap hp.after _),
      readTables_append hp.after, ih fun q hq => h q (List.mem_cons_of_mem p hq), List.cons_append]

/-! ## One table -/

theorem dataRows_alignBlock {ts : List TableLine} {n : ℕ} (hlen : ∀ t ∈ ts, t.row.length = n) :
    dataRows (alignBlock (ts.map TableLine.text)) = (ts.filter fun t => !t.isRule).map TableLine.row := by
  have hrows := rows_row ts
  have hcells : (ts.map TableLine.text).map cellsOf = ts.map TableLine.row := by
    rw [List.map_map]
    exact List.map_congr_left fun t _ => t.cellsOf_text
  have hread : (alignBlock (ts.map TableLine.text)).map cellsOf =
      ts.map fun t => rereadRow (ts.map TableLine.row) t.row := by
    rw [alignBlock_eq, hcells, List.map_map, List.map_map]
    exact List.map_congr_left fun t ht => cellsOf_alignedRow hrows (List.mem_map_of_mem ht)
  have hdata : ∀ t ∈ ts.filter fun t => !t.isRule, rereadRow (ts.map TableLine.row) t.row = t.row := by
    intro t ht
    obtain ⟨ht, hrule⟩ := List.mem_filter.mp ht
    have hcount : columnCount (ts.map TableLine.row) = n := by
      refine columnCount_eq (List.ne_nil_of_mem (List.mem_map_of_mem ht)) fun r hr => ?_
      obtain ⟨u, hu, rfl⟩ := List.mem_map.mp hr
      exact hlen u hu
    rw [Bool.not_eq_true'] at hrule
    rw [rereadRow, t.isSep_row, hrule, if_neg (by decide), padRow, hcount, hlen t ht, Nat.sub_self,
      List.replicate_zero, List.append_nil]
  rw [dataRows, hread, List.filter_map, Function.comp_def]
  simp only [isSep_rereadRow, TableLine.isSep_row]
  exact List.map_congr_left hdata

/-- Cells for so many columns, none of them taken for markup. -/
structure Fits (n : ℕ) (cells : List Text) : Prop where
  length : cells.length = n
  cell : ∀ c ∈ cells, PlainCell c
  data : ∃ c ∈ cells, isDashes c = false

/-- A table whose rows have a cell for each column. -/
def MdTable.Regular (t : MdTable) : Prop := ∀ r ∈ t.shown, Fits t.header.length r

/-- The lines of a table. -/
def MdTable.lines (t : MdTable) : List Text :=
  rowText t.header :: ('|' :: t.header.flatMap fun _ => "---|".toList) ::
    t.rows.map fun r => rowText r.texts

/-- A regular table is made of the lines that generators print. -/
theorem MdTable.Regular.exists_lines {t : MdTable} (h : t.Regular) :
    ∃ (head : DataRow) (rows : List DataRow), t.header = head.cells ∧
      t.rows.map TableRow.texts = rows.map DataRow.cells := by
  have hrow : ∀ r ∈ t.shown, ∃ d : DataRow, d.cells = r := fun r hr =>
    ⟨⟨r, (h r hr).cell, (h r hr).data⟩, rfl⟩
  obtain ⟨head, hhead⟩ := hrow t.header List.mem_cons_self
  have hrows : t.rows.map TableRow.texts ∈ Set.range (List.map DataRow.cells) := by
    rw [Set.range_list_map]
    exact fun r hr => hrow r (List.mem_cons_of_mem _ hr)
  obtain ⟨rows, hrows⟩ := hrows
  exact ⟨head, rows, hhead.symm, hrows.symm⟩

theorem flatMap_rule (r : List Text) :
    (r.flatMap fun _ => "---|".toList) = (List.replicate r.length "---|".toList).flatten := by
  rw [← List.map_const', List.flatMap_def]

/-- What is read of a table, aligned, is the table. -/
theorem MdTable.Regular.spec {t : MdTable} (h : t.Regular) :
    (∀ l ∈ t.lines, isRow l = true) ∧ t.lines ≠ [] ∧ dataRows (alignBlock t.lines) = t.shown := by
  refine ⟨fun l hl => ?_, List.cons_ne_nil _ _, ?_⟩
  · rcases List.mem_cons.mp hl with rfl | hl
    · rfl
    rcases List.mem_cons.mp hl with rfl | hl
    · rfl
    · obtain ⟨r, -, rfl⟩ := List.mem_map.mp hl
      rfl
  obtain ⟨head, rows, hhead, hrows⟩ := h.exists_lines
  obtain ⟨n, hn⟩ : ∃ n, t.header.length = n + 1 := by
    obtain ⟨c, hc, -⟩ := (h t.header List.mem_cons_self).data
    exact Nat.exists_eq_add_one.mpr (List.length_pos_of_mem hc)
  have hlines : t.lines =
      (TableLine.data head :: .sep n :: rows.map TableLine.data).map TableLine.text := by
    have hbody : t.rows.map (fun r => rowText r.texts) = rows.map fun d => rowText d.cells := by
      have hboth := congrArg (List.map rowText) hrows
      rwa [List.map_map, List.map_map] at hboth
    rw [MdTable.lines, hbody, flatMap_rule, hn, hhead, List.map_cons, List.map_cons, List.map_map]
    rfl
  have hlen : ∀ u ∈ TableLine.data head :: .sep n :: rows.map TableLine.data,
      u.row.length = n + 1 := by
    intro u hu
    rcases List.mem_cons.mp hu with rfl | hu
    · rw [← hn, hhead]
      rfl
    rcases List.mem_cons.mp hu with rfl | hu
    · exact List.length_replicate
    · obtain ⟨d, hd, rfl⟩ := List.mem_map.mp hu
      have hmem : d.cells ∈ t.shown := by
        refine List.mem_cons_of_mem _ ?_
        rw [hrows]
        exact List.mem_map_of_mem hd
      rw [← hn]
      exact (h d.cells hmem).length
  have hkept : (TableLine.data head :: .sep n :: rows.map TableLine.data).filter
      (fun u => !u.isRule) = TableLine.data head :: rows.map TableLine.data := by
    have hall : ∀ u ∈ rows.map TableLine.data, (!u.isRule) = true := by
      intro u hu
      obtain ⟨d, -, rfl⟩ := List.mem_map.mp hu
      rfl
    rw [List.filter_cons_of_pos (by rfl), List.filter_cons_of_neg (by simp [TableLine.isRule]),
      List.filter_eq_self.mpr hall]
  rw [hlines, dataRows_alignBlock hlen, hkept, MdTable.shown, hrows, hhead, List.map_cons,
    List.map_map]
  rfl

end OMB
