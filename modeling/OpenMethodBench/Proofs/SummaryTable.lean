import Mathlib
import OpenMethodBench.Lib.Numeral
import OpenMethodBench.Proofs.ListingBlocks

/-! The summary table, aligned and read back cell by cell. -/

namespace OMB

/-! ## Cells -/

theorem decimal_spec (n : ℕ) : decimal n ≠ [] ∧ ∀ c ∈ decimal n, c.isDigit = true :=
  ⟨by simp [decimal], fun _ hc => Nat.isDigit_of_mem_toDigits (by decide) (by decide) hc⟩

theorem not_isSpace_of_isDigit {c : Char} (h : c.isDigit = true) :
    Text.isSpace c = false ∧ c ≠ '|' ∧ c ≠ '\n' ∧ c ≠ '`' := by
  have hne : ∀ d : Char, d.isDigit = false → c ≠ d := fun d hd hc => by
    rw [hc, hd] at h
    exact absurd h (by decide)
  exact ⟨Numeral.not_space_of_digit h, hne _ (by decide), hne _ (by decide), hne _ (by decide)⟩

theorem depthText_spec (d : Option ℕ) :
    depthText d ≠ [] ∧ ∀ c ∈ depthText d, Text.isSpace c = false ∧ c ≠ '|' ∧ c ≠ '\n' ∧ c ≠ '`' := by
  cases d with
  | none => exact ⟨by decide, by decide⟩
  | some d => exact ⟨(decimal_spec d).1, fun c hc => not_isSpace_of_isDigit ((decimal_spec d).2 c hc)⟩

theorem plainCell_decimal (n : ℕ) : PlainCell (decimal n) := by
  have hall := fun c hc => not_isSpace_of_isDigit ((decimal_spec n).2 c hc)
  exact ⟨fun h => (hall _ h).2.1 rfl, fun h => (hall _ h).2.2.1 rfl,
    Text.trimmed_of_forall fun c hc => (hall c hc).1⟩

theorem plainCell_countCell (row : PublishedRow) : PlainCell (countCell row) := by
  have hcount := plainCell_decimal row.lines.length
  obtain ⟨hne, hdepth⟩ := depthText_spec row.depth
  have hfix : ∀ c ∈ " / ".toList, c ≠ '|' ∧ c ≠ '\n' := by decide
  have hchar : ∀ c ∈ countCell row, c ≠ '|' ∧ c ≠ '\n' := by
    intro c hc
    rcases List.mem_append.mp hc with hc | hc
    · exact ⟨fun h => hcount.no_pipe (h ▸ hc), fun h => hcount.no_line (h ▸ hc)⟩
    · rcases List.mem_append.mp hc with hc | hc
      · exact hfix c hc
      · exact ⟨(hdepth c hc).2.1, (hdepth c hc).2.2.1⟩
  refine ⟨fun h => (hchar _ h).1 rfl, fun h => (hchar _ h).2 rfl, fun c hc => ?_, fun c hc => ?_⟩
  · rw [countCell, List.head?_append_of_ne_nil _ (decimal_spec _).1] at hc
    exact hcount.trimmed.1 c hc
  · rw [countCell, List.getLast?_append_of_ne_nil _ (by simp),
      List.getLast?_append_of_ne_nil _ hne] at hc
    exact (hdepth c (List.mem_of_getLast? hc)).1

theorem plainCell_rowLabel : ∀ v ∈ variants, PlainCell (rowLabel v.label v.form) ∧
    isDashes (rowLabel v.label v.form) = false := by
  have hall : ∀ v ∈ variants, Text.strip (rowLabel v.label v.form) = rowLabel v.label v.form ∧
      '|' ∉ rowLabel v.label v.form ∧ '\n' ∉ rowLabel v.label v.form ∧
      isDashes (rowLabel v.label v.form) = false := by decide +kernel
  intro v hv
  obtain ⟨hstrip, hpipe, hline, hdash⟩ := hall v hv
  exact ⟨⟨hpipe, hline, hstrip ▸ Text.trimmed_strip _⟩, hdash⟩

theorem not_mem_rowText {cells : List Text} (hne : cells ≠ []) (h : ∀ c ∈ cells, '\n' ∉ c) :
    '\n' ∉ rowText cells := by
  rw [rowText_eq hne]
  intro hmem
  rcases List.mem_append.mp hmem with hmem | hmem
  · rcases List.mem_cons.mp hmem with hmem | hmem
    · exact absurd hmem (by decide)
    · rcases Text.mem_join hmem with hmem | ⟨p, hp, hmem⟩
      · exact absurd hmem (by decide)
      · obtain ⟨c, hc, rfl⟩ := List.mem_map.mp hp
        simp [framed, h c hc] at hmem
  · exact absurd hmem (by decide)

section Summary

variable {builds : List Text} {data : Published}

/-- The cells of the row of a dispatch. -/
def summaryCells (v : VariantRow) (rows : List PublishedRow) : List Text :=
  rowLabel v.label v.form :: decimal v.arity :: rows.map countCell

theorem rowText_cons_cons {a b : Text} {cells : List Text} (h : cells ≠ []) :
    rowText (a :: b :: cells) = "| ".toList ++ (a ++ (" | ".toList ++ (b ++ (" | ".toList ++
      (" | ".toList.intercalate cells ++ " |".toList))))) := by
  rw [rowText, List.intercalate_cons_of_ne_nil (by simp), List.intercalate_cons_of_ne_nil h]
  simp

theorem summaryRow_eq_ok {v : VariantRow} {t : Text} (hne : builds ≠ [])
    (h : summaryRow data builds v = .ok t) :
    ∃ rows, builds.mapM (cellOf data v.key) = .ok rows ∧ t = rowText (summaryCells v rows) := by
  obtain ⟨rows, hrows, h⟩ := Outcome.bind_eq_ok_iff.mp h
  have hlen := (Outcome.mapM_eq_ok_iff.mp hrows).length_eq
  have hcells : rows.map countCell ≠ [] := by
    intro hnil
    rw [List.map_eq_nil_iff.mp hnil, List.length_nil] at hlen
    exact hne (List.length_eq_zero_iff.mp hlen)
  refine ⟨rows, hrows, ?_⟩
  rw [summaryCells, rowText_cons_cons hcells]
  exact (Except.ok.inj h).symm

theorem plainCell_summaryCells {v : VariantRow} (hv : v ∈ variants) (rows : List PublishedRow) :
    ∀ c ∈ summaryCells v rows, PlainCell c := by
  intro c hc
  rcases List.mem_cons.mp hc with rfl | hc
  · exact (plainCell_rowLabel v hv).1
  rcases List.mem_cons.mp hc with rfl | hc
  · exact plainCell_decimal v.arity
  · obtain ⟨row, -, rfl⟩ := List.mem_map.mp hc
    exact plainCell_countCell row

theorem cellsOf_summaryRow {v : VariantRow} (hv : v ∈ variants) (rows : List PublishedRow) :
    cellsOf (rowText (summaryCells v rows)) = summaryCells v rows ∧
      '\n' ∉ rowText (summaryCells v rows) := by
  have hcell := plainCell_summaryCells hv rows
  have hne : summaryCells v rows ≠ [] := List.cons_ne_nil _ _
  refine ⟨?_, not_mem_rowText hne fun c hc => (hcell c hc).no_line⟩
  rw [cellsOf_rowText hne fun c hc => (hcell c hc).no_pipe]
  exact (List.map_congr_left fun c hc => (hcell c hc).strip_eq).trans (List.map_id _)

/-- The two lines over the rows. -/
theorem summaryHead_spec (hne : builds ≠ []) (hnames : ∀ n ∈ builds, PlainName n) {head rule : Text}
    (hhead : head = "| dispatch | arity | ".toList ++ (" | ".toList.intercalate builds ++ " |".toList))
    (hrule : rule = "|---|---|".toList ++ (builds.flatMap fun _ => "---|".toList)) :
    ((cellsOf head).length = builds.length + 2 ∧ '\n' ∉ head ∧ isRow head = true) ∧
      (cellsOf rule).length = builds.length + 2 ∧ '\n' ∉ rule ∧ isRow rule = true := by
  have hheadText : head = rowText ("dispatch".toList :: "arity".toList :: builds) := by
    rw [hhead, rowText_cons_cons hne]
    rfl
  have hcells : ∀ c ∈ "dispatch".toList :: "arity".toList :: builds, '|' ∉ c ∧ '\n' ∉ c := by
    simp only [List.mem_cons]
    rintro c (rfl | rfl | hc)
    · decide
    · decide
    · exact ⟨(hnames c hc).no_pipe, (hnames c hc).no_line⟩
  have hruleText : rule = (TableLine.sep (builds.length + 1)).text := by
    have hflat : ∀ bs : List Text, (bs.flatMap fun _ => "---|".toList) =
        (List.replicate bs.length "---|".toList).flatten := by
      intro bs
      induction bs with
      | nil => rfl
      | cons b bs ih => rw [List.flatMap_cons, ih, List.length_cons, List.replicate_succ, List.flatten_cons]
    rw [hrule, hflat, TableLine.text, List.replicate_succ, List.replicate_succ, List.flatten_cons,
      List.flatten_cons]
    rfl
  refine ⟨⟨?_, ?_, hheadText ▸ rfl⟩, ?_, ?_, hruleText ▸ rfl⟩
  · rw [hheadText, cellsOf_rowText (List.cons_ne_nil _ _) fun c hc => (hcells c hc).1]
    simp
  · rw [hheadText]
    exact not_mem_rowText (List.cons_ne_nil _ _) fun c hc => (hcells c hc).2
  · rw [hruleText, cellsOf_rule, List.length_replicate]
  · rw [hrule]
    intro h
    rcases List.mem_append.mp h with h | h
    · exact absurd h (by decide)
    · obtain ⟨b, -, h⟩ := List.mem_flatMap.mp h
      exact absurd h (by decide)

theorem columnCount_eq {rows : List (List Text)} {n : ℕ} (hne : rows ≠ [])
    (h : ∀ r ∈ rows, r.length = n) : columnCount rows = n := by
  obtain ⟨r, rs, rfl⟩ := List.exists_cons_of_ne_nil hne
  have hgreatest := isGreatest_foldr_max 0 ((r :: rs).map List.length)
  refine Nat.le_antisymm ?_ ?_
  · rcases hgreatest.1 with hzero | hmem
    · rw [columnCount, Set.mem_singleton_iff.mp hzero]
      exact Nat.zero_le n
    · obtain ⟨s, hs, hlen⟩ := List.mem_map.mp hmem
      exact le_of_eq (hlen.symm.trans (h s hs))
  · rw [← h r List.mem_cons_self]
    exact le_columnCount List.mem_cons_self

/-- A row with as many cells as any other is read from the aligned table as it was. -/
theorem cellsOf_aligned {block : List Text} (hline : ∀ l ∈ block, '\n' ∉ l) {n : ℕ}
    (hlen : ∀ l ∈ block, (cellsOf l).length = n) {l : Text} (hl : l ∈ block)
    (hsep : isSep (cellsOf l) = false) :
    cellsOf (alignedRow (block.map cellsOf) (cellsOf l)) = cellsOf l := by
  have hmem : cellsOf l ∈ block.map cellsOf := List.mem_map_of_mem hl
  have hcount : columnCount (block.map cellsOf) = n :=
    columnCount_eq (List.ne_nil_of_mem hmem) fun r hr => by
      obtain ⟨m, hm, rfl⟩ := List.mem_map.mp hr
      exact hlen m hm
  rw [cellsOf_alignedRow (rows_cellsOf hline) hmem, rereadRow, hsep, if_neg (by decide), padRow, hcount,
    hlen l hl, Nat.sub_self, List.replicate_zero, List.append_nil]

theorem drop_alignBlock (head rule : Text) (body : List Text) :
    ((alignBlock (head :: rule :: body)).map cellsOf).drop 2 =
      body.map fun l => cellsOf (alignedRow ((head :: rule :: body).map cellsOf) (cellsOf l)) := by
  have hdrop : ∀ f : Text → List Text, ((head :: rule :: body).map f).drop 2 = body.map f :=
    fun _ => rfl
  rw [alignBlock_eq, List.map_map, List.map_map, hdrop, Function.comp_def, Function.comp_def]

/-- The summary: a block of table rows, whose data rows are read from it aligned as they were
set. -/
theorem sectionSummary_spec (hne : builds ≠ []) (hnames : ∀ n ∈ builds, PlainName n)
    {ls : List Text} (h : sectionSummary data builds = .ok ls) :
    (∀ l ∈ ls, isRow l = true ∧ '\n' ∉ l) ∧ ls ≠ [] ∧
      List.Forall₂ (fun v cells => ∃ rows, builds.mapM (cellOf data v.key) = .ok rows ∧
        cells = summaryCells v rows) byArity (((alignBlock ls).map cellsOf).drop 2) := by
  obtain ⟨body, hbody, h⟩ := Outcome.bind_eq_ok_iff.mp h
  obtain rfl := Except.ok.inj h
  have hmem : ∀ v ∈ byArity, v ∈ variants := by decide
  obtain ⟨hhead, hrule⟩ := summaryHead_spec hne hnames rfl rfl
  have hrows := Outcome.mapM_eq_ok_iff.mp hbody
  have hrow : ∀ l ∈ body, ∃ v ∈ variants, ∃ rows, rows.length = builds.length ∧
      l = rowText (summaryCells v rows) := by
    intro l hl
    obtain ⟨v, hv, hvl⟩ := Outcome.exists_of_mem_right hrows hl
    obtain ⟨rows, hmap, hl⟩ := summaryRow_eq_ok hne hvl
    exact ⟨v, hmem v hv, rows, (Outcome.mapM_eq_ok_iff.mp hmap).length_eq.symm, hl⟩
  have hbodyLine : ∀ l ∈ body, (cellsOf l).length = builds.length + 2 ∧ '\n' ∉ l ∧ isRow l = true := by
    intro l hl
    obtain ⟨v, hv, rows, hlen, rfl⟩ := hrow l hl
    obtain ⟨hcells, hline⟩ := cellsOf_summaryRow hv rows
    refine ⟨?_, hline, rfl⟩
    rw [hcells, summaryCells, List.length_cons, List.length_cons, List.length_map, hlen]
  have hall : ∀ l ∈ ("| dispatch | arity | ".toList ++ (" | ".toList.intercalate builds ++
      " |".toList)) :: ("|---|---|".toList ++ (builds.flatMap fun _ => "---|".toList)) :: body,
      (cellsOf l).length = builds.length + 2 ∧ '\n' ∉ l ∧ isRow l = true := by
    intro l hl
    rcases List.mem_cons.mp hl with rfl | hl
    · exact hhead
    rcases List.mem_cons.mp hl with rfl | hl
    · exact hrule
    · exact hbodyLine l hl
  refine ⟨fun l hl => ⟨(hall l hl).2.2, (hall l hl).2.1⟩, List.cons_ne_nil _ _, ?_⟩
  rw [drop_alignBlock, List.forall₂_map_right_iff]
  refine List.forall₂_iff_get.mpr ⟨hrows.length_eq, fun i hi hj => ?_⟩
  have hl : body.get ⟨i, hj⟩ ∈ body := List.get_mem body ⟨i, hj⟩
  obtain ⟨rows, hmap, ht⟩ := summaryRow_eq_ok hne ((List.forall₂_iff_get.mp hrows).2 i hi hj)
  have hv : byArity.get ⟨i, hi⟩ ∈ variants := hmem _ (List.get_mem byArity ⟨i, hi⟩)
  refine ⟨rows, hmap, ?_⟩
  have hcells := (cellsOf_summaryRow hv rows).1
  have hsep : isSep (cellsOf (body.get ⟨i, hj⟩)) = false := by
    rw [ht, hcells, isSep, List.all_eq_false]
    exact ⟨_, List.mem_cons_self, by rw [(plainCell_rowLabel _ hv).2]; decide⟩
  have haligned := cellsOf_aligned (fun l hl => (hall l hl).2.1) (fun l hl => (hall l hl).1)
    (List.mem_cons_of_mem _ (List.mem_cons_of_mem _ hl)) hsep
  exact haligned.trans (ht ▸ hcells)

end Summary

end OMB
