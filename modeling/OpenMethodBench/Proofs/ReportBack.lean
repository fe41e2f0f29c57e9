import Mathlib
import OpenMethodBench.Proofs.ManifestColumns
import OpenMethodBench.Proofs.ReportCells
import OpenMethodBench.Proofs.ShownProse

/-! What `report.py` writes is read back: one table for each section, cell by cell as it was made,
whatever the prose around it says. -/

namespace OMB

open Outcome

/-! ## Prose -/

/-- No line of it is taken for a table row. -/
def NoTable (t : Text) : Prop := ∀ l ∈ linesOf t, isRow l = false

theorem noTable_of_not_mem {t : Text} (h : '|' ∉ t) : NoTable t := fun _ hl =>
  isRow_of_not_mem fun hc => h (Text.mem_of_mem_splitOn hl hc)

theorem no_pipe_literal {cs : List Char} (h : '|' ∉ cs) : '|' ∉ (String.ofList cs).toList := by
  rwa [String.toList_ofList]

theorem no_pipe_fixed (d : ℕ) (q : ℚ) : '|' ∉ Numeral.fixed d q := fun h => (dense_fixed d q _ h).2 rfl

theorem no_pipe_digits (n : ℕ) : '|' ∉ Nat.toDigits 10 n := fun h =>
  absurd (Numeral.toDigits_digit _ h) (by decide)

theorem no_pipe_append {t u : Text} (ht : '|' ∉ t) (hu : '|' ∉ u) : '|' ∉ t ++ u := fun h =>
  (List.mem_append.mp h).elim ht hu

theorem noTable_resultsIntro (share : ℚ) : NoTable (resultsIntro share) := by
  refine noTable_of_not_mem ?_
  unfold resultsIntro
  refine no_pipe_append (no_pipe_append (no_pipe_append (no_pipe_append (no_pipe_append
    (no_pipe_append (no_pipe_append (no_pipe_append (no_pipe_append (no_pipe_append ?_ ?_) ?_) ?_) ?_)
    (no_pipe_fixed 0 (share * 100))) ?_) ?_) ?_) ?_) ?_
  all_goals exact no_pipe_literal (by decide +kernel)

theorem noTable_usedCaption : NoTable (usedCaption ++ ['\n']) := by
  refine noTable_of_not_mem ?_
  unfold usedCaption
  refine no_pipe_append (no_pipe_append (no_pipe_append (no_pipe_append (no_pipe_append ?_ ?_) ?_) ?_)
    ?_) (by decide)
  all_goals exact no_pipe_literal (by decide +kernel)

/-- The caption begins as the name of the build does. -/
theorem noTable_buildCaption {build : Text} (hline : '\n' ∉ build) (hrow : isRow build = false)
    (passes : ℕ) : NoTable (build ++ ", median of ".toList ++ Nat.toDigits 10 passes ++
      " passes each.\n".toList) := by
  have hdigits : '\n' ∉ Nat.toDigits 10 passes := fun h =>
    absurd (Numeral.toDigits_digit _ h) (by decide)
  have hbody : '\n' ∉ build ++ ", median of ".toList ++ Nat.toDigits 10 passes ++
      " passes each.".toList := by
    simp only [List.mem_append, not_or]
    exact ⟨⟨⟨hline, by decide⟩, hdigits⟩, by decide⟩
  have hlines : linesOf (build ++ ", median of ".toList ++ Nat.toDigits 10 passes ++
      " passes each.\n".toList) = [build ++ ", median of ".toList ++ Nat.toDigits 10 passes ++
      " passes each.".toList, []] := by
    have hend : " passes each.\n".toList = " passes each.".toList ++ ['\n'] := rfl
    rw [hend, ← List.append_assoc, linesOf_append_cons, linesOf_of_not_mem hbody]
    rfl
  intro l hl
  rw [hlines] at hl
  rcases List.mem_pair.mp hl with rfl | rfl
  · rcases build with - | ⟨c, build⟩
    · rfl
    · exact hrow
  · rfl

theorem noTable_matrixCaption {passes : ℕ} {spreads : List ℚ} {before after : Text} {n : ℕ}
    (h : matrixCaption passes spreads = .caption before n after) :
    NoTable (before ++ Nat.toDigits 10 n ++ after) := by
  refine noTable_of_not_mem ?_
  unfold matrixCaption at h
  obtain ⟨rfl, rfl, rfl⟩ := Block.caption.inj h
  refine no_pipe_append (no_pipe_append (by decide) (no_pipe_digits passes)) ?_
  split_ifs
  · decide
  · simp only [List.mem_append, not_or]
    exact ⟨⟨⟨⟨⟨by decide, by decide⟩, no_pipe_fixed _ _⟩, by decide⟩, no_pipe_fixed _ _⟩, by decide⟩

/-! ## Sections -/

/-- The texts that are printed for a block, each with its own `print`. -/
def Block.prints : Block → List Text
  | prose t => [t]
  | caption before passes after => [before ++ Nat.toDigits 10 passes ++ after]
  | table t => t.lines

theorem Block.text_eq (b : Block) : b.text = buffered b.prints := by
  have hline : ∀ cells : List Text, Block.line cells = rowText cells ++ ['\n'] := by
    intro cells
    have hend : " |\n".toList = " |".toList ++ ['\n'] := rfl
    rw [Block.line, rowText, hend, ← List.append_assoc]
  cases b with
  | prose t => exact (List.append_nil _).symm
  | caption before passes after => exact (List.append_nil _).symm
  | table t =>
    have hrows : (t.rows.flatMap fun r => Block.line (r.head ++ r.cells.map Cell.text)) =
        buffered (t.rows.map fun r => rowText r.texts) := by
      rw [buffered, List.flatMap_map]
      exact List.flatMap_congr fun r _ => hline _
    rw [Block.text, hrows, hline, Block.prints, MdTable.lines, buffered, buffered, List.flatMap_cons,
      List.flatMap_cons]
    simp

theorem bufferOf_eq (out : List (Section × List Block)) :
    bufferOf out = buffered (out.flatMap fun sb => sb.2.flatMap Block.prints) := by
  rw [bufferOf, buffered, List.flatMap_assoc]
  refine List.flatMap_congr fun sb _ => ?_
  rw [List.flatMap_assoc]
  exact List.flatMap_congr fun b _ => b.text_eq

/-- The lines of a section are those of a part. -/
def IsPart (bs : List Block) (t : MdTable) : Prop :=
  Block.tables bs = [t] ∧ t.Regular ∧ ∃ p : Part, p.Proper ∧ p.block = t.lines ∧
    (bs.flatMap Block.prints).flatMap linesOf = p.lines

theorem MdTable.Regular.one_line {t : MdTable} (h : t.Regular) : ∀ l ∈ t.lines, '\n' ∉ l := by
  have hrow : ∀ r ∈ t.shown, '\n' ∉ rowText r := fun r hr =>
    not_mem_rowText (List.ne_nil_of_mem (h r hr).data.choose_spec.1) fun c hc => ((h r hr).cell c hc).no_line
  intro l hl
  rcases List.mem_cons.mp hl with rfl | hl
  · exact hrow _ List.mem_cons_self
  rcases List.mem_cons.mp hl with rfl | hl
  · rw [List.mem_cons, not_or]
    refine ⟨by decide, fun hc => ?_⟩
    obtain ⟨c, -, hc⟩ := List.mem_flatMap.mp hc
    exact absurd hc (by decide)
  · obtain ⟨r, hr, rfl⟩ := List.mem_map.mp hl
    exact hrow _ (List.mem_cons_of_mem _ (List.mem_map_of_mem hr))

/-- Prose, a table, and prose. -/
theorem isPart_of_prints {bs : List Block} {t : MdTable} (before after : List Text)
    (htables : Block.tables bs = [t]) (ht : t.Regular)
    (hprints : bs.flatMap Block.prints = before ++ (t.lines ++ after))
    (hbefore : ∀ u ∈ before, NoTable u) (hafter : ∀ u ∈ after, NoTable u) (hgap : after ≠ []) :
    IsPart bs t := by
  obtain ⟨hrows, hne, -⟩ := ht.spec
  refine ⟨htables, ht, ⟨before.flatMap linesOf, t.lines, after.flatMap linesOf⟩, ?_, rfl, ?_⟩
  · refine ⟨List.forall_mem_flatMap.mpr hbefore, hrows, hne, List.forall_mem_flatMap.mpr hafter, ?_⟩
    obtain ⟨u, us, rfl⟩ := List.exists_cons_of_ne_nil hgap
    rw [List.flatMap_cons]
    exact List.append_ne_nil_of_left_ne_nil (List.splitOn_ne_nil _ _) _
  · rw [hprints, List.flatMap_append, List.flatMap_append, flatMap_linesOf ht.one_line]
    rfl

/-- What the prose and the headers of a run name. -/
structure Inputs.Plain (x : Inputs) : Prop where
  one_line : '\n' ∉ x.build
  no_row : isRow x.build = false
  matrix : ∀ col ∈ x.matrixCols, PlainCell col.1
  indirect : ∀ col ∈ x.indirectCols, PlainCell col.1

theorem noTable_nil : NoTable [] := noTable_of_not_mem List.not_mem_nil

theorem emitSection_isPart {x : Inputs} (hx : x.Plain) {s : Section} {bs : List Block}
    (h : emitSection x s = .ok bs) : ∃ t, IsPart bs t := by
  have hcaption := noTable_buildCaption hx.one_line hx.no_row x.passes
  cases s with
  | results =>
    obtain ⟨share, t, ht, rfl⟩ := emitResults_ok h
    refine ⟨t, isPart_of_prints [_, _, _] [[]] rfl (coldTable_regular ht) rfl ?_ ?_
      (List.cons_ne_nil _ _)⟩
    · exact List.forall_mem_cons.mpr ⟨noTable_of_not_mem (by decide), List.forall_mem_cons.mpr
        ⟨noTable_resultsIntro share, List.forall_mem_singleton.mpr hcaption⟩⟩
    · exact List.forall_mem_singleton.mpr noTable_nil
  | used =>
    obtain ⟨t, ht, rfl⟩ := emitUsed_ok h
    refine ⟨t, isPart_of_prints [_, _] [[]] rfl (coldTable_regular ht) rfl ?_ ?_
      (List.cons_ne_nil _ _)⟩
    · exact List.forall_mem_cons.mpr ⟨noTable_usedCaption, List.forall_mem_singleton.mpr hcaption⟩
    · exact List.forall_mem_singleton.mpr noTable_nil
  | indirect =>
    obtain ⟨bs', hbs, rfl⟩ := emitIndirect_ok h
    obtain ⟨t, rfl, ht⟩ := indirect_regular hx.indirect hbs
    refine ⟨t, isPart_of_prints [_] [[]] rfl ht rfl ?_ ?_ (List.cons_ne_nil _ _)⟩
    · refine List.forall_mem_singleton.mpr (noTable_of_not_mem ?_)
      exact no_pipe_append (no_pipe_append (by decide) (no_pipe_digits x.passes))
        (no_pipe_append (by decide) (by decide))
    · exact List.forall_mem_singleton.mpr noTable_nil
  | matrix =>
    obtain ⟨t, spreads, rfl, ht⟩ := matrix_regular hx.matrix h
    obtain ⟨before, n, after, hcaption⟩ : ∃ before n after,
        matrixCaption x.passes spreads = .caption before n after := ⟨_, _, _, rfl⟩
    refine ⟨t, isPart_of_prints ["#### The compilers\n".toList]
      [before ++ Nat.toDigits 10 n ++ after] ?_ ht ?_ ?_ ?_ (List.cons_ne_nil _ _)⟩
    · rfl
    · rw [hcaption]
      rfl
    · exact List.forall_mem_singleton.mpr (noTable_of_not_mem (by decide))
    · exact List.forall_mem_singleton.mpr (noTable_matrixCaption hcaption)

/-! ## The whole text -/

/-- Sections one after the other: the tables that are read from the lines they print, aligned, are
theirs. -/
theorem readTables_sections {out : List (Section × List Block)} (h : ∀ sb ∈ out, ∃ t, IsPart sb.2 t) :
    List.Forall₂ (fun sb rows => ∃ t, Block.tables sb.2 = [t] ∧ rows = t.shown) out
      (readTables (linesOf (alignTables (bufferOf out)))) := by
  have hpart : ∀ sb : Section × List Block, ∃ p : Part, (∃ t, IsPart sb.2 t) → p.Proper ∧
      (sb.2.flatMap Block.prints).flatMap linesOf = p.lines ∧
      ∃ t, Block.tables sb.2 = [t] ∧ dataRows (alignBlock p.block) = t.shown := by
    intro sb
    by_cases hsb : ∃ t, IsPart sb.2 t
    · obtain ⟨t, htables, ht, p, hp, hblock, hlines⟩ := hsb
      exact ⟨p, fun _ => ⟨hp, hlines, t, htables, by rw [hblock, ht.spec.2.2]⟩⟩
    · exact ⟨⟨[], [], []⟩, fun hsb' => absurd hsb' hsb⟩
  choose part hpart using hpart
  have hproper : ∀ p ∈ out.map part, p.Proper := by
    intro p hp
    obtain ⟨sb, hsb, rfl⟩ := List.mem_map.mp hp
    exact (hpart sb (h sb hsb)).1
  have hlines : linesOf (bufferOf out) = (out.map part).flatMap Part.lines ++ [[]] := by
    rw [bufferOf_eq, linesOf_buffered, List.flatMap_assoc, List.flatMap_map]
    congr 1
    exact List.flatMap_congr fun sb hsb => (hpart sb (h sb hsb)).2.1
  have hlast : ∀ l ∈ ([[]] : List Text), isRow l = false := by decide
  have halign : linesOf (alignTables (bufferOf out)) = alignLines (linesOf (bufferOf out)) :=
    splitOn_alignTables (bufferOf out)
  have hread : readTables (linesOf (alignTables (bufferOf out))) =
      out.map fun sb => dataRows (alignBlock (part sb).block) := by
    rw [halign, hlines, alignLines_parts hproper, alignLines_of_not_isRow hlast,
      readTables_parts hproper, ← List.append_nil [[]], readTables_append hlast, readTables,
      List.append_nil, List.map_map]
    rfl
  rw [hread, List.forall₂_map_right_iff]
  exact List.forall₂_same.mpr fun sb hsb => (hpart sb (h sb hsb)).2.2

/-- A label is one line. -/
theorem one_line_labelOf {c : Text} (h : '\n' ∉ c) : '\n' ∉ labelOf c := by
  have hversion : ∀ name v, versionAfter name c = some v → '\n' ∉ v := by
    intro name v hv
    rw [versionAfter] at hv
    split_ifs at hv
    obtain rfl := Option.some.inj hv
    exact fun hmem => h (List.mem_of_mem_drop hmem)
  unfold labelOf
  split
  · rename_i v hv
    exact fun hmem => (List.mem_append.mp hmem).elim (by decide) (hversion _ v hv)
  · rename_i v _ hv
    exact fun hmem => (List.mem_append.mp hmem).elim (by decide) (hversion _ v hv)
  · exact h

theorem one_line_columns {conf : Text} {c : Text × Text} (hc : c ∈ columns conf) : '\n' ∉ c.1 := by
  obtain ⟨cc, hcc, rfl⟩ := List.mem_map.mp hc
  obtain ⟨l, hl, rfl⟩ := List.mem_map.mp hcc
  have hline : '\n' ∉ l := Text.not_mem_of_mem_splitOn (List.mem_of_mem_filter hl)
  exact one_line_labelOf fun hmem => hline ((Text.strip_sublist l).subset hmem)

theorem prepare_plain {conf : Text} {fs : FileSystem} {args : List Text} {sections : List Section}
    {x : Inputs} (hx : prepare conf fs args = .ok (sections, x)) (hbuild : isRow x.build = false) :
    x.Plain := by
  obtain ⟨hmatrix, hindirect⟩ := prepare_labels hx
  have hlabel : ∀ (cols : List (Text × Table)) (names : List String),
      cols.map Prod.fst = names.map String.toList →
      (∀ t ∈ names.map String.toList, Text.strip t = t ∧ '|' ∉ t ∧ '\n' ∉ t) →
      ∀ col ∈ cols, PlainCell col.1 := by
    intro cols names hcols hnames col hcol
    obtain ⟨hstrip, hpipe, hline⟩ := hnames col.1 (hcols ▸ List.mem_map_of_mem hcol)
    exact ⟨hpipe, hline, hstrip ▸ Text.trimmed_strip _⟩
  refine ⟨?_, hbuild, hlabel _ _ hmatrix (by decide +kernel), hlabel _ _ hindirect (by decide +kernel)⟩
  obtain ⟨build, root, intel, zen, hname, -, -, -, -, hselect⟩ := prepare_ok_iff.mp hx
  obtain ⟨bi, bz, ci, gi, cz, gz, -, -, -, -, -, -, rfl⟩ := selectInputs_ok_iff.mp hselect
  obtain ⟨c, hc, rfl⟩ := buildName_ok_iff.mp hname
  exact one_line_columns (List.mem_of_head? hc)

theorem written_ok_iff {conf : Text} {fs : FileSystem} {args : List Text} {text : Text} :
    (written conf fs args).res = .ok text ↔
      ∃ out, (main conf fs args).res = .ok out ∧ text = alignTables (bufferOf out) := by
  rw [written, Script.res_bind, bind_eq_ok_iff]
  exact exists_congr fun out => and_congr_right fun _ => pure_eq_ok_iff.trans eq_comm

section Written

variable {conf : Text} {fs : FileSystem} {args : List Text} {sections : List Section} {x : Inputs}
  {text : Text}

theorem tables_of_written (hx : prepare conf fs args = .ok (sections, x))
    (hbuild : isRow x.build = false) (h : (written conf fs args).res = .ok text) :
    List.Forall₂ (fun s rows => ∃ bs t, emitSection x s = .ok bs ∧ Block.tables bs = [t] ∧
      rows = t.shown) sections (readTables (linesOf text)) := by
  obtain ⟨out, hout, rfl⟩ := written_ok_iff.mp h
  obtain ⟨sections', x', hx', hemit⟩ := main_ok_iff.mp hout
  rw [hx] at hx'
  obtain ⟨rfl, rfl⟩ := Prod.mk.inj (Except.ok.inj hx')
  have hsections := emitSections_ok_iff.mp hemit
  have hplain := prepare_plain hx hbuild
  have hpart : ∀ sb ∈ out, ∃ t, IsPart sb.2 t := by
    intro sb hsb
    obtain ⟨s, -, -, hs⟩ := exists_of_mem_right hsections hsb
    exact emitSection_isPart hplain hs
  refine forall₂_comp (fun s sb rows hs hrows => ?_) hsections (readTables_sections hpart)
  obtain ⟨t, ht, hrows⟩ := hrows
  exact ⟨sb.2, t, hs.2, ht, hrows⟩

end Written

end OMB
