import Mathlib
import OpenMethodBench.Proofs.TableBack
import OpenMethodBench.Proofs.TableReads

/-! The tables of `report.py` have a plain cell for each column, whatever was measured. -/

namespace OMB

open Outcome

/-! ## Cells -/

/-- No blank and no pipe. -/
def Dense (t : Text) : Prop := ∀ c ∈ t, Text.isSpace c = false ∧ c ≠ '|'

/-- One line, without a pipe. -/
def Inline (t : Text) : Prop := ∀ c ∈ t, c ≠ '|' ∧ c ≠ '\n'

theorem Dense.inline {t : Text} (h : Dense t) : Inline t := by
  refine fun c hc => ⟨(h c hc).2, ?_⟩
  rintro rfl
  exact absurd (h _ hc).1 (by decide)

theorem Inline.append {t u : Text} (ht : Inline t) (hu : Inline u) : Inline (t ++ u) :=
  List.forall_mem_append.mpr ⟨ht, hu⟩

/-- What begins and ends densely has nothing to be stripped. -/
theorem plainCell_between {a m z : Text} (ha : Dense a) (hane : a ≠ []) (hm : Inline m) (hz : Dense z)
    (hzne : z ≠ []) : PlainCell (a ++ m ++ z) := by
  have hall : Inline (a ++ m ++ z) := (ha.inline.append hm).append hz.inline
  refine ⟨fun h => (hall _ h).1 rfl, fun h => (hall _ h).2 rfl, fun c hc => ?_, fun c hc => ?_⟩
  · rw [List.append_assoc, List.head?_append_of_ne_nil _ hane] at hc
    exact (ha c (List.mem_of_head? hc)).1
  · rw [List.getLast?_append_of_ne_nil _ hzne] at hc
    exact (hz c (List.mem_of_getLast? hc)).1

theorem dense_fixed (d : ℕ) (q : ℚ) : Dense (Numeral.fixed d q) := by
  intro c hc
  rcases Numeral.fixed_chars c hc with hc | rfl | rfl
  · exact ⟨(not_isSpace_of_isDigit hc).1, (not_isSpace_of_isDigit hc).2.1⟩
  · decide
  · decide

theorem fixed_ne_nil (d : ℕ) (q : ℚ) : Numeral.fixed d q ≠ [] := by
  intro hnil
  have hread := Numeral.decimal?_fixed d q
  have hempty : Numeral.decimal? [] = none := by decide
  rw [hnil, hempty] at hread
  exact Option.some_ne_none _ hread.symm

theorem dense_cycles (v : ℚ) : Dense (cycles v) := by
  rw [cycles]
  split_ifs
  · exact dense_fixed 1 v
  · exact dense_fixed 0 v

theorem cycles_ne_nil (v : ℚ) : cycles v ≠ [] := by
  rw [cycles]
  split_ifs
  · exact fixed_ne_nil 1 v
  · exact fixed_ne_nil 0 v

theorem dense_fixedSigned (d : ℕ) (q : ℚ) : Dense (Numeral.fixedSigned d q) := by
  rw [Numeral.fixedSigned]
  split_ifs
  · exact dense_fixed d q
  · exact List.forall_mem_cons.mpr ⟨by decide, dense_fixed d q⟩

theorem plainCell_ratioText (ratio : ℚ) : PlainCell (ratioText ratio) := by
  have hunit : Dense ['x'] := by unfold Dense; decide
  have hcell := plainCell_between (dense_fixed 2 ratio) (fixed_ne_nil 2 ratio) (m := []) (by simp [Inline])
    hunit (by decide)
  rwa [List.append_nil] at hcell

theorem plainCell_costText (ratio net : ℚ) : PlainCell (costText ratio net) := by
  have hopen : Inline "x (".toList := by unfold Inline; decide
  have hclose : Dense [')'] := by unfold Dense; decide
  have hcell := plainCell_between (dense_fixed 2 ratio) (fixed_ne_nil 2 ratio)
    (hopen.append (dense_cycles net).inline) hclose (by decide)
  simpa only [costText, List.append_assoc] using hcell

theorem plainCell_deltaText (direct indirect : ℚ) : PlainCell (deltaText direct indirect) := by
  have harrow : Inline " → ".toList := by unfold Inline; decide
  have hopen : Inline " (**".toList := by unfold Inline; decide
  have hclose : Dense "**)".toList := by unfold Dense; decide
  have hmiddle := harrow.append ((dense_cycles indirect).inline.append (hopen.append
    (dense_fixedSigned (if direct < 100 then 1 else 0)
      (cyclesShown indirect - cyclesShown direct)).inline))
  have hcell := plainCell_between (dense_cycles direct) (cycles_ne_nil direct) hmiddle hclose (by decide)
  simpa only [deltaText, List.append_assoc] using hcell

/-! ## What a section is made of -/

section Made

variable {intel zen : Table} {body : Text} {cols : List (Text × Table)} {passes : ℕ} {bs : List Block}

theorem coldRow_ok_iff {r : DispatchRow} {row : TableRow} : coldRow intel zen body r = .ok row ↔
    ∃ i, ratioCell intel (r.key clflush body) = .ok i ∧ ∃ z, ratioCell zen (r.key clflush body) = .ok z ∧
      ⟨[code (labelFor r.label r.group r.arity []), Numeral.intText r.arity], [i, z]⟩ = row := by
  simp only [coldRow, bind_eq_ok_iff, pure_eq_ok_iff]

theorem coldTable_ok_iff {t : MdTable} : coldTable intel zen body = .ok t ↔
    ∃ rows, List.Forall₂ (fun r row => coldRow intel zen body r = .ok row) bothArities rows ∧
      ⟨["dispatch", "arity", "x net (Intel)", "x net (Zen)"].map String.toList, rows⟩ = t := by
  simp only [coldTable, bind_eq_ok_iff, mapM_eq_ok_iff, pure_eq_ok_iff]

theorem indirectRow_ok_iff {sa : IndirectSpec × ℤ} {row : TableRow} :
    indirectRow cols sa = .ok row ↔ ∃ cells,
      List.Forall₂ (fun col c => indirectCell col.2 (sa.1.keys clflush sa.2) = .ok c) cols cells ∧
        ⟨[sa.1.label, Numeral.intText sa.2], cells⟩ = row := by
  simp only [indirectRow, bind_eq_ok_iff, mapM_eq_ok_iff, pure_eq_ok_iff]

theorem sectionIndirect_ok_iff : sectionIndirect cols passes = .ok bs ↔
    ∃ rows, List.Forall₂ (fun sa row => indirectRow cols sa = .ok row) indirectRows rows ∧
      [.caption "Median of ".toList passes
          (" passes; `disp` cycles, direct → indirect, ".toList ++ "caches cold.\n".toList),
        .table ⟨["call form".toList, "arity".toList] ++ cols.map Prod.fst, rows⟩] = bs := by
  simp only [sectionIndirect, bind_eq_ok_iff, mapM_eq_ok_iff, pure_eq_ok_iff]

theorem matrixRow_ok_iff {r : DispatchRow} {row : TableRow × List ℚ} :
    matrixRow cols clflush r = .ok row ↔ ∃ cells,
      List.Forall₂ (fun col c => matrixCell col (r.key clflush "const".toList) = .ok c) cols cells ∧
        (⟨[code (labelFor r.label r.group r.arity " (yardstick)".toList)], cells.map Prod.fst⟩,
          cells.flatMap Prod.snd) = row := by
  simp only [matrixRow, bind_eq_ok_iff, mapM_eq_ok_iff, pure_eq_ok_iff]

theorem matrixRows_ok_iff {arity : ℤ} {part : List TableRow × List ℚ} :
    matrixRows cols clflush arity = .ok part ↔ ∃ rows,
      List.Forall₂ (fun r row => matrixRow cols clflush r = .ok row) (dispatchRows arity) rows ∧
        (arityRow cols arity :: rows.map Prod.fst, rows.flatMap Prod.snd) = part := by
  simp only [matrixRows, bind_eq_ok_iff, mapM_eq_ok_iff, pure_eq_ok_iff]

theorem sectionMatrix_ok_iff : sectionMatrix cols passes = .ok bs ↔ ∃ parts,
    List.Forall₂ (fun arity part => matrixRows cols clflush arity = .ok part) [1, 2] parts ∧
      [.prose "#### The compilers\n".toList,
        .table ⟨"dispatch".toList :: cols.map Prod.fst, parts.flatMap Prod.fst⟩,
        matrixCaption passes (parts.flatMap Prod.snd)] = bs := by
  simp only [sectionMatrix, bind_eq_ok_iff, mapM_eq_ok_iff, pure_eq_ok_iff]

variable {x : Inputs}

theorem emitResults_ok (h : emitSection x .results = .ok bs) : ∃ share t,
    coldTable x.intel x.zen "const".toList = .ok t ∧
      bs = [.prose "### Caches cold (`clflush`)\n".toList, .prose (resultsIntro share),
        buildCaption x.build x.passes, .table t, .prose []] := by
  obtain ⟨bs', hbs, h⟩ := bind_eq_ok_iff.mp h
  obtain rfl := pure_eq_ok_iff.mp h
  obtain ⟨touch, -, hbs⟩ := bind_eq_ok_iff.mp hbs
  obtain ⟨vf, -, hbs⟩ := bind_eq_ok_iff.mp hbs
  obtain ⟨share, -, hbs⟩ := bind_eq_ok_iff.mp hbs
  obtain ⟨t, ht, hbs⟩ := bind_eq_ok_iff.mp hbs
  obtain rfl := pure_eq_ok_iff.mp hbs
  exact ⟨share, t, ht, rfl⟩

theorem emitUsed_ok (h : emitSection x .used = .ok bs) : ∃ t,
    coldTable x.intel x.zen "use".toList = .ok t ∧
      bs = [.prose (usedCaption ++ ['\n']), buildCaption x.build x.passes, .table t, .prose []] := by
  obtain ⟨bs', hbs, h⟩ := bind_eq_ok_iff.mp h
  obtain rfl := pure_eq_ok_iff.mp h
  obtain ⟨t, ht, hbs⟩ := bind_eq_ok_iff.mp hbs
  obtain rfl := pure_eq_ok_iff.mp hbs
  exact ⟨t, ht, rfl⟩

theorem emitIndirect_ok (h : emitSection x .indirect = .ok bs) :
    ∃ bs', sectionIndirect x.indirectCols x.passes = .ok bs' ∧ bs = bs' ++ [.prose []] := by
  obtain ⟨bs', hbs, h⟩ := bind_eq_ok_iff.mp h
  exact ⟨bs', hbs, (pure_eq_ok_iff.mp h).symm⟩

end Made

/-! ## Rows and tables -/

/-- A row that is named by something other than dashes. -/
theorem fits_row {r : TableRow} {n m : ℕ} (hn : r.head.length = n) (hm : r.cells.length = m)
    (hhead : ∀ c ∈ r.head, PlainCell c) (hname : ∃ c ∈ r.head, isDashes c = false)
    (hcells : ∀ c ∈ r.cells, PlainCell c.text) : Fits (n + m) r.texts where
  length := by rw [TableRow.texts, List.length_append, List.length_map, hn, hm]
  cell := List.forall_mem_append.mpr ⟨hhead, List.forall_mem_map.mpr hcells⟩
  data := by
    obtain ⟨c, hc, hdash⟩ := hname
    exact ⟨c, List.mem_append_left _ hc, hdash⟩

/-- What names the rows of a table. -/
def Names (head : List Text) : Prop := (∀ c ∈ head, PlainCell c) ∧ ∃ c ∈ head, isDashes c = false

/-- Names that can be looked at. -/
theorem names_of_strip {head : List Text} (h : (∀ c ∈ head, Text.strip c = c ∧ '|' ∉ c ∧ '\n' ∉ c) ∧
    ∃ c ∈ head, isDashes c = false) : Names head := by
  refine ⟨fun c hc => ?_, h.2⟩
  obtain ⟨hstrip, hpipe, hline⟩ := h.1 c hc
  exact ⟨hpipe, hline, hstrip ▸ Text.trimmed_strip c⟩

theorem names_cold : ∀ r ∈ bothArities,
    Names [code (labelFor r.label r.group r.arity []), Numeral.intText r.arity] := by
  have hall : ∀ r ∈ bothArities, (∀ c ∈ [code (labelFor r.label r.group r.arity []),
      Numeral.intText r.arity], Text.strip c = c ∧ '|' ∉ c ∧ '\n' ∉ c) ∧
      ∃ c ∈ [code (labelFor r.label r.group r.arity []), Numeral.intText r.arity],
        isDashes c = false := by
    decide +kernel
  exact fun r hr => names_of_strip (hall r hr)

theorem names_indirect : ∀ row ∈ indirectRows, Names [row.1.label, Numeral.intText row.2] := by
  have hall : ∀ row ∈ indirectRows, (∀ c ∈ [row.1.label, Numeral.intText row.2],
      Text.strip c = c ∧ '|' ∉ c ∧ '\n' ∉ c) ∧
      ∃ c ∈ [row.1.label, Numeral.intText row.2], isDashes c = false := by
    decide +kernel
  exact fun r hr => names_of_strip (hall r hr)

theorem names_matrix : ∀ arity ∈ ([1, 2] : List ℤ), Names (arityRow [] arity).head ∧
    ∀ r ∈ dispatchRows arity, Names [code (labelFor r.label r.group r.arity " (yardstick)".toList)] := by
  have hall : ∀ arity ∈ ([1, 2] : List ℤ), ((∀ c ∈ (arityRow [] arity).head,
      Text.strip c = c ∧ '|' ∉ c ∧ '\n' ∉ c) ∧ ∃ c ∈ (arityRow [] arity).head, isDashes c = false) ∧
      ∀ r ∈ dispatchRows arity, (∀ c ∈ [code (labelFor r.label r.group r.arity " (yardstick)".toList)],
        Text.strip c = c ∧ '|' ∉ c ∧ '\n' ∉ c) ∧
        ∃ c ∈ [code (labelFor r.label r.group r.arity " (yardstick)".toList)], isDashes c = false := by
    decide +kernel
  exact fun arity h => ⟨names_of_strip (hall arity h).1, fun r hr => names_of_strip ((hall arity h).2 r hr)⟩

/-- A table is regular that has names in its header, and in every row cells for its columns. -/
theorem regular_of_rows {t : MdTable} (hheader : Names t.header)
    (hrows : ∀ r ∈ t.rows, Fits t.header.length r.texts) : t.Regular := by
  intro cells hcells
  rcases List.mem_cons.mp hcells with rfl | hcells
  · exact ⟨rfl, hheader.1, hheader.2⟩
  · obtain ⟨r, hr, rfl⟩ := List.mem_map.mp hcells
    exact hrows r hr

theorem coldTable_regular {intel zen : Table} {body : Text} {t : MdTable}
    (h : coldTable intel zen body = .ok t) : t.Regular := by
  obtain ⟨rows, hrows, rfl⟩ := coldTable_ok_iff.mp h
  have hheader : Names (["dispatch", "arity", "x net (Intel)", "x net (Zen)"].map String.toList) :=
    names_of_strip (by decide +kernel)
  refine regular_of_rows hheader fun row hrow => ?_
  obtain ⟨r, hr, hrow⟩ := exists_of_mem_right hrows hrow
  obtain ⟨i, hi, z, hz, rfl⟩ := coldRow_ok_iff.mp hrow
  obtain ⟨p, -, rfl⟩ := ratioCell_ok hi
  obtain ⟨q, -, rfl⟩ := ratioCell_ok hz
  refine fits_row (n := 2) (m := 2) rfl rfl (names_cold r hr).1 (names_cold r hr).2 ?_
  refine List.forall_mem_cons.mpr ⟨?_, List.forall_mem_singleton.mpr ?_⟩
  · exact plainCell_ratioText p
  · exact plainCell_ratioText q

section Columns

variable {cols : List (Text × Table)} (hcols : ∀ col ∈ cols, PlainCell col.1)
include hcols

/-- A header of some names and the columns'. -/
theorem names_columns {lead : List Text} (hlead : Names lead) : Names (lead ++ cols.map Prod.fst) := by
  obtain ⟨c, hc, hdash⟩ := hlead.2
  exact ⟨List.forall_mem_append.mpr ⟨hlead.1, List.forall_mem_map.mpr hcols⟩,
    c, List.mem_append_left _ hc, hdash⟩

theorem indirect_regular {passes : ℕ} {bs : List Block} (h : sectionIndirect cols passes = .ok bs) :
    ∃ t, bs = [.caption "Median of ".toList passes
      (" passes; `disp` cycles, direct → indirect, ".toList ++ "caches cold.\n".toList), .table t] ∧
      t.Regular := by
  obtain ⟨rows, hrows, rfl⟩ := sectionIndirect_ok_iff.mp h
  have hlead : Names ["call form".toList, "arity".toList] := names_of_strip (by decide +kernel)
  refine ⟨_, rfl, regular_of_rows (names_columns hcols hlead) fun row hrow => ?_⟩
  obtain ⟨sa, hsa, hrow⟩ := exists_of_mem_right hrows hrow
  obtain ⟨cells, hcells, rfl⟩ := indirectRow_ok_iff.mp hrow
  rw [List.length_append, List.length_map]
  refine fits_row rfl hcells.length_eq.symm (names_indirect sa hsa).1 (names_indirect sa hsa).2
    fun c hc => ?_
  obtain ⟨col, -, hcell⟩ := exists_of_mem_right hcells hc
  obtain ⟨direct, indirect, -, -, rfl⟩ := indirectCell_ok hcell
  exact plainCell_deltaText direct indirect

theorem matrix_regular {passes : ℕ} {bs : List Block} (h : sectionMatrix cols passes = .ok bs) :
    ∃ t spreads, bs = [.prose "#### The compilers\n".toList, .table t, matrixCaption passes spreads] ∧
      t.Regular := by
  obtain ⟨parts, hparts, rfl⟩ := sectionMatrix_ok_iff.mp h
  have hlead : Names ["dispatch".toList] := names_of_strip (by decide +kernel)
  refine ⟨_, _, rfl, regular_of_rows (names_columns hcols hlead) fun row hrow => ?_⟩
  obtain ⟨part, hpart, hrow⟩ := List.mem_flatMap.mp hrow
  obtain ⟨arity, harity, hpart⟩ := exists_of_mem_right hparts hpart
  obtain ⟨rows, hrows, rfl⟩ := matrixRows_ok_iff.mp hpart
  obtain ⟨hname, hnames⟩ := names_matrix arity harity
  rw [List.length_cons, List.length_map, Nat.add_comm]
  rcases List.mem_cons.mp hrow with rfl | hrow
  · refine fits_row rfl (List.length_map _) hname.1 hname.2 fun c hc => ?_
    obtain ⟨col, -, rfl⟩ := List.mem_map.mp hc
    exact PlainCell.nil
  · obtain ⟨row', hrow', rfl⟩ := List.mem_map.mp hrow
    obtain ⟨r, hr, hr'⟩ := exists_of_mem_right hrows hrow'
    obtain ⟨cells, hcells, rfl⟩ := matrixRow_ok_iff.mp hr'
    have hlen : (cells.map Prod.fst).length = cols.length := by
      rw [List.length_map, hcells.length_eq]
    refine fits_row rfl hlen (hnames r hr).1 (hnames r hr).2 fun c hc => ?_
    obtain ⟨cell, hcell, rfl⟩ := List.mem_map.mp hc
    obtain ⟨col, -, hcell⟩ := exists_of_mem_right hcells hcell
    obtain ⟨ratio, net, -, -, hcost⟩ := matrixCell_ok hcell
    rw [hcost]
    exact plainCell_costText ratio net

end Columns

end OMB
