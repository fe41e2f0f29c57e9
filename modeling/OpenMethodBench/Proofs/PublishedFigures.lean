import Mathlib
import OpenMethodBench.Proofs.LabReport
import OpenMethodBench.Proofs.ReportBack

/-! The tables of the README, from the samples: every figure of the main machine that a reader finds
in what `report.py` writes. -/

namespace OMB

open Outcome Steps

/-! ## The cells -/

section Cells

variable {data : Table} {c : Cell}

theorem ratioCell_shows {k : Key} {q : ℚ} (hq : med data k "x_net" = .ok q)
    (h : ratioCell data k = .ok c) : c.text = ratioText q := by
  obtain ⟨ratio, hratio, hcell⟩ := ratioCell_ok h
  rw [hcell, Except.ok.inj (hratio.symm.trans hq)]

theorem indirectCell_shows {keys : Key × Key} {direct indirect : ℚ}
    (hd : med data keys.1 "disp" = .ok direct) (hi : med data keys.2 "disp" = .ok indirect)
    (h : indirectCell data keys = .ok c) : c.text = deltaText direct indirect := by
  obtain ⟨dv, iv, hdv, hiv, hcell⟩ := indirectCell_ok h
  rw [hcell, Except.ok.inj (hdv.symm.trans hd), Except.ok.inj (hiv.symm.trans hi)]

theorem matrixCell_shows {name : Text} {k : Key} {ratio net : ℚ} {c : Cell × List ℚ}
    (hratio : med data k "x_net" = .ok ratio) (hnet : med data k "net" = .ok net)
    (h : matrixCell (name, data) k = .ok c) : c.1.text = costText ratio net := by
  obtain ⟨ratio', net', hratio', hnet', hcell⟩ := matrixCell_ok h
  rw [hcell, Except.ok.inj (hratio'.symm.trans hratio), Except.ok.inj (hnet'.symm.trans hnet)]

end Cells

/-! ## The tables -/

/-- The row of a dispatch that a variant makes. -/
def IsVariant (V : Variant) (k : Key) : Prop := V ∈ runVariants ∧ V.key .clflush = k

theorem exists_variant {body : Text} (hbody : body = "const".toList ∨ body = "use".toList) :
    ∀ r ∈ bothArities, ∃ V, IsVariant V (r.key clflush body) := by
  have hall : ∀ body ∈ ["const".toList, "use".toList], ∀ r ∈ bothArities, ∃ V ∈ runVariants,
      V.key .clflush = r.key clflush body := by
    decide +kernel
  intro r hr
  obtain ⟨V, hV, hkey⟩ := hall body (by simpa using hbody) r hr
  exact ⟨V, hV, hkey⟩

theorem exists_variants : ∀ row ∈ indirectRows, ∃ V W, IsVariant V (row.1.keys clflush row.2).1 ∧
    IsVariant W (row.1.keys clflush row.2).2 := by
  have hall : ∀ row ∈ indirectRows, (∃ V ∈ runVariants, V.key .clflush = (row.1.keys clflush row.2).1) ∧
      ∃ W ∈ runVariants, W.key .clflush = (row.1.keys clflush row.2).2 := by
    decide +kernel
  intro row hrow
  obtain ⟨⟨V, hV, hkey⟩, W, hW, hkey'⟩ := hall row hrow
  exact ⟨V, W, ⟨hV, hkey⟩, ⟨hW, hkey'⟩⟩

section Published

variable (sqrt : ℚ → ℚ) (ks : List ℕ)

/-- One dispatch on both machines: the ratio on the main one. -/
def ShowsRatio (build : ℕ → Variant → Stats ℚ) (body : Text) (r : DispatchRow) (row : List Text) : Prop :=
  ∃ V zen, IsVariant V (r.key clflush body) ∧ row =
    [code (labelFor r.label r.group r.arity []), Numeral.intText r.arity,
      ratioText (medianOf sqrt ks build .xNet V), zen]

/-- What the indirection adds to one call form, for the two compilers. -/
def ShowsDelta (clang gcc : ℕ → Variant → Stats ℚ) (form : IndirectSpec × ℤ) (row : List Text) : Prop :=
  ∃ V W, IsVariant V (form.1.keys clflush form.2).1 ∧ IsVariant W (form.1.keys clflush form.2).2 ∧
    row = [form.1.label, Numeral.intText form.2,
      deltaText (medianOf sqrt ks clang .disp V) (medianOf sqrt ks clang .disp W),
      deltaText (medianOf sqrt ks gcc .disp V) (medianOf sqrt ks gcc .disp W)]

/-- One dispatch for the two compilers, on the main machine first. -/
def ShowsCost (clang gcc : ℕ → Variant → Stats ℚ) (r : DispatchRow) (row : List Text) : Prop :=
  ∃ V zen, IsVariant V (r.key clflush "const".toList) ∧ row =
    code (labelFor r.label r.group r.arity " (yardstick)".toList) ::
      costText (medianOf sqrt ks clang .xNet V) (medianOf sqrt ks clang .net V) ::
      costText (medianOf sqrt ks gcc .xNet V) (medianOf sqrt ks gcc .net V) :: zen

/-- The rows of one arity, under the row that heads them. -/
def ShowsArity (clang gcc : ℕ → Variant → Stats ℚ) (arity : ℤ) (rows : List (List Text)) : Prop :=
  ∃ head body, rows = head :: body ∧
    List.Forall₂ (ShowsCost sqrt ks clang gcc) (dispatchRows arity) body

/-- The rows of a section's table, under its header. -/
def Publishes (build clang gcc : ℕ → Variant → Stats ℚ) : Section → List (List Text) → Prop
  | .results, rows => List.Forall₂ (ShowsRatio sqrt ks build "const".toList) bothArities rows
  | .used, rows => List.Forall₂ (ShowsRatio sqrt ks build "use".toList) bothArities rows
  | .indirect, rows => List.Forall₂ (ShowsDelta sqrt ks clang gcc) indirectRows rows
  | .matrix, rows => ∃ parts, rows = parts.flatten ∧
      List.Forall₂ (ShowsArity sqrt ks clang gcc) [1, 2] parts

variable {sqrt ks} {st : ℕ → Variant → Stats ℚ} {t : Table}

theorem HasMedians.med (h : HasMedians sqrt ks st t) {V : Variant} {k : Key} (hV : IsVariant V k)
    (F : Figure) : OMB.med t k F.column = .ok (medianOf sqrt ks st F V) := hV.2 ▸ h V hV.1 F

theorem coldTable_publishes {zen : Table} {body : Text} {table : MdTable}
    (hbody : body = "const".toList ∨ body = "use".toList) (ht : HasMedians sqrt ks st t)
    (h : coldTable t zen body = .ok table) :
    List.Forall₂ (ShowsRatio sqrt ks st body) bothArities table.shown.tail := by
  obtain ⟨rows, hrows, rfl⟩ := coldTable_ok_iff.mp h
  rw [MdTable.shown, List.tail_cons, List.forall₂_map_right_iff]
  refine List.forall₂_iff_get.mpr ⟨hrows.length_eq, fun i hi hj => ?_⟩
  obtain ⟨V, hV⟩ := exists_variant hbody _ (List.get_mem bothArities ⟨i, hi⟩)
  obtain ⟨intel, hintel, z, -, hrow⟩ := coldRow_ok_iff.mp ((List.forall₂_iff_get.mp hrows).2 i hi hj)
  refine ⟨V, z.text, hV, ?_⟩
  rw [← hrow, TableRow.texts, ← ratioCell_shows (ht.med hV .xNet) hintel]
  rfl

section Columns

variable {clang gcc : ℕ → Variant → Stats ℚ} {tc tg : Table} (hc : HasMedians sqrt ks clang tc)
  (hg : HasMedians sqrt ks gcc tg)
include hc hg

theorem indirect_publishes {cn gn : Text} {passes : ℕ} {bs : List Block} {table : MdTable}
    (htable : Block.tables bs = [table])
    (h : sectionIndirect [(cn, tc), (gn, tg)] passes = .ok bs) :
    List.Forall₂ (ShowsDelta sqrt ks clang gcc) indirectRows table.shown.tail := by
  obtain ⟨rows, hrows, rfl⟩ := sectionIndirect_ok_iff.mp h
  obtain rfl := List.head_eq_of_cons_eq htable
  rw [MdTable.shown, List.tail_cons, List.forall₂_map_right_iff]
  refine List.forall₂_iff_get.mpr ⟨hrows.length_eq, fun i hi hj => ?_⟩
  obtain ⟨V, W, hV, hW⟩ := exists_variants _ (List.get_mem indirectRows ⟨i, hi⟩)
  obtain ⟨cells, hcells, hrow⟩ := indirectRow_ok_iff.mp ((List.forall₂_iff_get.mp hrows).2 i hi hj)
  obtain ⟨c, cs, hcell, hcs, rfl⟩ := List.forall₂_cons_left_iff.mp hcells
  obtain ⟨g, gs, hcell', hgs, rfl⟩ := List.forall₂_cons_left_iff.mp hcs
  obtain rfl := List.forall₂_nil_left_iff.mp hgs
  refine ⟨V, W, hV, hW, ?_⟩
  rw [← hrow, TableRow.texts, ← indirectCell_shows (hc.med hV .disp) (hc.med hW .disp) hcell,
    ← indirectCell_shows (hg.med hV .disp) (hg.med hW .disp) hcell']
  rfl

theorem matrixRows_publish {cn gn : Text} {zen : List (Text × Table)} {arity : ℤ}
    {part : List TableRow × List ℚ} (harity : arity ∈ ([1, 2] : List ℤ))
    (h : matrixRows ((cn, tc) :: (gn, tg) :: zen) clflush arity = .ok part) :
    ShowsArity sqrt ks clang gcc arity (part.1.map TableRow.texts) := by
  obtain ⟨rows, hrows, rfl⟩ := matrixRows_ok_iff.mp h
  refine ⟨_, rows.map fun r => r.1.texts, by rw [List.map_cons, List.map_map]; rfl, ?_⟩
  rw [List.forall₂_map_right_iff]
  refine List.forall₂_iff_get.mpr ⟨hrows.length_eq, fun i hi hj => ?_⟩
  have hmem : (dispatchRows arity).get ⟨i, hi⟩ ∈ bothArities :=
    List.mem_flatMap.mpr ⟨arity, harity, List.get_mem _ _⟩
  obtain ⟨V, hV⟩ := exists_variant (Or.inl rfl) _ hmem
  obtain ⟨cells, hcells, hrow⟩ := matrixRow_ok_iff.mp ((List.forall₂_iff_get.mp hrows).2 i hi hj)
  obtain ⟨c, cs, hcell, hcs, rfl⟩ := List.forall₂_cons_left_iff.mp hcells
  obtain ⟨g, gs, hcell', -, rfl⟩ := List.forall₂_cons_left_iff.mp hcs
  refine ⟨V, (gs.map Prod.fst).map Cell.text, hV, ?_⟩
  rw [← hrow, TableRow.texts, ← matrixCell_shows (hc.med hV .xNet) (hc.med hV .net) hcell,
    ← matrixCell_shows (hg.med hV .xNet) (hg.med hV .net) hcell']
  rfl

theorem matrix_publishes {cn gn : Text} {zen : List (Text × Table)} {passes : ℕ}
    {bs : List Block} {table : MdTable} (htable : Block.tables bs = [table])
    (h : sectionMatrix ((cn, tc) :: (gn, tg) :: zen) passes = .ok bs) :
    Publishes sqrt ks clang clang gcc .matrix table.shown.tail := by
  obtain ⟨parts, hparts, rfl⟩ := sectionMatrix_ok_iff.mp h
  have hone : Block.tables [.prose "#### The compilers\n".toList, .table ⟨"dispatch".toList ::
      ((cn, tc) :: (gn, tg) :: zen).map Prod.fst, parts.flatMap Prod.fst⟩,
      matrixCaption passes (parts.flatMap Prod.snd)] = [⟨"dispatch".toList ::
      ((cn, tc) :: (gn, tg) :: zen).map Prod.fst, parts.flatMap Prod.fst⟩] := rfl
  obtain rfl := List.head_eq_of_cons_eq (hone.symm.trans htable)
  refine ⟨parts.map fun p => p.1.map TableRow.texts, ?_, ?_⟩
  · rw [MdTable.shown, List.tail_cons, List.map_flatMap, List.flatMap_def]
  · rw [List.forall₂_map_right_iff]
    refine List.forall₂_iff_get.mpr ⟨hparts.length_eq, fun i hi hj => ?_⟩
    exact matrixRows_publish hc hg (List.get_mem _ _) ((List.forall₂_iff_get.mp hparts).2 i hi hj)

end Columns

end Published

/-! ## The run -/

section Run

variable {lab : Lab} {sqrt : ℚ → ℚ} {conf : Text} {ks : List ℕ} {fs : FileSystem} {args : List Text}
  {sections : List Section} {x : Inputs}

/-- What a section publishes of what the programs find. -/
theorem section_publishes (hx : prepare conf fs args = .ok (sections, x))
    (hshows : ShowsPasses lab sqrt conf ks x) :
    ∃ build clang gcc, FoundBy lab sqrt conf ks x.build build ∧
      FoundBy lab sqrt conf ks "clang 22".toList clang ∧ FoundBy lab sqrt conf ks "gcc 15".toList gcc ∧
      ∀ s bs t, emitSection x s = .ok bs → Block.tables bs = [t] →
        Publishes sqrt ks build clang gcc s t.shown.tail := by
  obtain ⟨name, root, intel, zen, -, -, -, -, -, hselect⟩ := prepare_ok_iff.mp hx
  obtain ⟨bi, bz, ci, gi, cz, gz, -, -, -, -, -, -, rfl⟩ := selectInputs_ok_iff.mp hselect
  have hresults := hshows .results
  have hindirect := hshows .indirect
  simp only [sectionColumns, sectionTables, List.map_cons, List.map_nil, List.forall₂_cons] at hresults hindirect
  obtain ⟨build, hbuild, hb⟩ := hresults.1 trivial
  obtain ⟨clang, hclang, hc⟩ := hindirect.1 trivial
  obtain ⟨gcc, hgcc, hg⟩ := hindirect.2.1 trivial
  refine ⟨build, clang, gcc, hbuild, hclang, hgcc, fun s bs t h htables => ?_⟩
  cases s with
  | results =>
    obtain ⟨share, table, ht, rfl⟩ := emitResults_ok h
    obtain rfl := List.head_eq_of_cons_eq htables
    exact coldTable_publishes (Or.inl rfl) hb ht
  | used =>
    obtain ⟨table, ht, rfl⟩ := emitUsed_ok h
    obtain rfl := List.head_eq_of_cons_eq htables
    exact coldTable_publishes (Or.inr rfl) hb ht
  | indirect =>
    obtain ⟨bs', hbs, rfl⟩ := emitIndirect_ok h
    rw [Block.tables, List.filterMap_append] at htables
    have hprose : [Block.prose []].filterMap Block.table? = [] := rfl
    rw [hprose, List.append_nil] at htables
    exact indirect_publishes hc hg htables hbs
  | matrix => exact matrix_publishes hc hg htables h

end Run

/-- The tables that are read from what `report.py` writes are those of the sections that were asked
for, header and all. After a run of `matrix.sh` that ends well they have for their figures of the main
machine the medians over the passes of what the verified programs find in their own samples, each as
it is printed. -/
theorem published_figures {conf : Text} {fs : FileSystem} {root : Text} {args : List Text}
    {sections : List Section} {text : Text} (hargs : parseArgs args = .ok (sections, root))
    (hbuild : ∀ c ∈ (columns conf).head?, isRow c.1 = false)
    (htext : (written conf fs args).res = .ok text) :
    (∃ x, prepare conf fs args = .ok (sections, x) ∧ List.Forall₂ (fun s rows => ∃ bs t,
      emitSection x s = .ok bs ∧ Block.tables bs = [t] ∧ rows = t.shown) sections
        (readTables (linesOf text))) ∧
    ∀ (lab : Lab) (sqrt : ℚ → ℚ) (space : Char → Bool) (runs : Option ℤ) (out t : OutDir),
      loopCommands space conf = compilers conf → PlainCommands (compilers conf) →
      run (matrixStep space conf (lab.bench sqrt)) out
        (matrixSteps space conf (lab.bench sqrt) runs out) = some t →
      passNumbers runs ≠ [] → fs root = runDirs t →
      ∃ reference build clang gcc, buildName (columns conf) = .ok reference ∧
        FoundBy lab sqrt conf (passNumbers runs) reference build ∧
        FoundBy lab sqrt conf (passNumbers runs) "clang 22".toList clang ∧
        FoundBy lab sqrt conf (passNumbers runs) "gcc 15".toList gcc ∧
        List.Forall₂ (fun s rows => Publishes sqrt (passNumbers runs) build clang gcc s rows.tail)
          sections (readTables (linesOf text)) := by
  obtain ⟨out', hout, -⟩ := written_ok_iff.mp htext
  obtain ⟨x, hx, -⟩ := main_sections hargs hout
  obtain ⟨-, hname, -, -⟩ := prepare_loads hargs hx
  have hrow : isRow x.build = false := by
    obtain ⟨c, hc, hname⟩ := buildName_ok_iff.mp hname
    rw [← hname]
    exact hbuild c hc
  have htables := tables_of_written hx hrow htext
  refine ⟨⟨x, hx, htables⟩, fun lab sqrt space runs out t hconf hplain hrun hpasses hfs => ?_⟩
  have hshows := lab_shows hconf hplain hrun hfs hpasses hargs hx
  obtain ⟨build, clang, gcc, hb, hc, hg, hpublish⟩ := section_publishes hx hshows
  refine ⟨x.build, build, clang, gcc, hname, hb, hc, hg, htables.imp fun s rows hrows => ?_⟩
  obtain ⟨bs, table, hbs, htable, rfl⟩ := hrows
  exact hpublish s bs table hbs htable

theorem published_counted : ∃ text reference build clang gcc,
    (written twoCompilers (besideZen countedPasses) ["matrix".toList]).res = .ok text ∧
      buildName (columns twoCompilers) = .ok reference ∧
      FoundBy countingLab Rat.sqrt twoCompilers (passNumbers (some 2)) reference build ∧
      FoundBy countingLab Rat.sqrt twoCompilers (passNumbers (some 2)) "clang 22".toList clang ∧
      FoundBy countingLab Rat.sqrt twoCompilers (passNumbers (some 2)) "gcc 15".toList gcc ∧
      List.Forall₂ (fun s rows => Publishes Rat.sqrt (passNumbers (some 2)) build clang gcc s rows.tail)
        [.matrix] (readTables (linesOf text)) := by
  have hdata := lab_dataset loopCommands_eq_compilers_two plainCompilers_two run_counted
    (besideZen_results countedPasses) (by decide) (zen_beside countedPasses)
  obtain ⟨out, hout⟩ := hdata.main parseArgs_matrix labels_two.1 labels_two.2 (by simp)
  have htext := written_ok_iff.mpr ⟨out, hout, rfl⟩
  have hbuild : ∀ c ∈ (columns twoCompilers).head?, isRow c.1 = false := by
    rw [columns_twoCompilers]
    decide
  obtain ⟨reference, build, clang, gcc, h⟩ := (published_figures parseArgs_matrix hbuild htext).2
    countingLab Rat.sqrt posixSpace (some 2) olderRuns countedPasses loopCommands_eq_compilers_two
    plainCompilers_two run_counted (by decide) (besideZen_results countedPasses)
  exact ⟨_, reference, build, clang, gcc, htext, h⟩

end OMB
