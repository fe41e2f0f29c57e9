import OpenMethodBench.Proofs.Rendering

/-! The columns of the multi-compiler tables against the lines of the manifest. -/

namespace OMB

open Outcome

/-! ## The columns a section is given -/

namespace Block

def table? : Block → Option MdTable
  | table t => some t
  | _ => none

/-- The tables among the blocks of a section. -/
def tables (bs : List Block) : List MdTable := bs.filterMap table?

end Block

/-- What the cells of a table are made of. -/
inductive CellKind
  | cost
  | delta

/-- The cell shows medians, each over the entries of a key. -/
inductive ShowsMedians (median : Key → String → ℚ → Prop) (entries : Key → List Record) :
    CellKind → Cell → Prop
  | cost {k : Key} {ratio net : ℚ} : median k "x_net" ratio → median k "net" net →
      ShowsMedians median entries .cost ⟨costText ratio net, [entries k, entries k]⟩
  | delta {k k' : Key} {direct indirect : ℚ} : median k "disp" direct → median k' "disp" indirect →
      ShowsMedians median entries .delta ⟨deltaText direct indirect, [entries k, entries k']⟩

theorem ShowsMedians.imp {median median' : Key → String → ℚ → Prop} {entries entries' : Key → List Record}
    {kind : CellKind} {cell : Cell} (hmedian : ∀ k name q, median k name q → median' k name q)
    (hentries : ∀ k, entries k = entries' k) (h : ShowsMedians median entries kind cell) :
    ShowsMedians median' entries' kind cell := by
  cases h with
  | cost hratio hnet =>
    rw [hentries]
    exact .cost (hmedian _ _ _ hratio) (hmedian _ _ _ hnet)
  | delta hdirect hindirect =>
    rw [hentries, hentries]
    exact .delta (hmedian _ _ _ hdirect) (hmedian _ _ _ hindirect)

/-- The row is the one over the dispatches of an arity, and its cells are blank. -/
def HeadsArity (row : TableRow) : Prop := ∃ cols arity, row = arityRow cols arity

/-- The cell shows medians over its column's table. -/
def CellFrom (kind : CellKind) (col : Text × Table) (cell : Cell) : Prop :=
  ShowsMedians (fun k name q => med col.2 k name = .ok q) col.2.entries kind cell

/-- One column for each of `cols`, after those that name the row. -/
structure HasColumns (kind : CellKind) (lead : ℕ) (cols : List (Text × Table)) (t : MdTable) : Prop where
  header : t.header.drop lead = cols.map (·.1)
  cells : ∀ row ∈ t.rows, HeadsArity row ∨ List.Forall₂ (CellFrom kind) cols row.cells

theorem indirect_columns {x : Inputs} {bs : List Block} (h : emitSection x .indirect = .ok bs) :
    ∃ t, Block.tables bs = [t] ∧ HasColumns .delta 2 x.indirectCols t := by
  obtain ⟨bs', hbs, h⟩ := bind_eq_ok_iff.mp h
  obtain rfl := pure_eq_ok_iff.mp h
  obtain ⟨rows, hrows, hbs⟩ := bind_eq_ok_iff.mp hbs
  obtain rfl := pure_eq_ok_iff.mp hbs
  refine ⟨_, rfl, rfl, fun row hrow => Or.inr ?_⟩
  obtain ⟨sa, -, hrow⟩ := exists_of_mem_right (mapM_eq_ok_iff.mp hrows) hrow
  obtain ⟨cells, hcells, hrow⟩ := bind_eq_ok_iff.mp hrow
  obtain rfl := pure_eq_ok_iff.mp hrow
  refine (mapM_eq_ok_iff.mp hcells).imp fun col cell hcell => ?_
  obtain ⟨direct, indirect, hdirect, hindirect, rfl⟩ := indirectCell_ok hcell
  exact .delta hdirect hindirect

theorem matrixRow_columns {cols : List (Text × Table)} {r : DispatchRow}
    {row : TableRow × List ℚ} (h : matrixRow cols clflush r = .ok row) :
    List.Forall₂ (CellFrom .cost) cols row.1.cells := by
  obtain ⟨cells, hcells, h⟩ := bind_eq_ok_iff.mp h
  obtain rfl := pure_eq_ok_iff.mp h
  rw [List.forall₂_map_right_iff]
  refine (mapM_eq_ok_iff.mp hcells).imp fun col cell hcell => ?_
  obtain ⟨ratio, net, hratio, hnet, hcost⟩ := matrixCell_ok hcell
  rw [hcost]
  exact .cost hratio hnet

theorem matrix_columns {x : Inputs} {bs : List Block} (h : emitSection x .matrix = .ok bs) :
    ∃ t, Block.tables bs = [t] ∧ HasColumns .cost 1 x.matrixCols t := by
  obtain ⟨parts, hparts, h⟩ := bind_eq_ok_iff.mp h
  obtain rfl := pure_eq_ok_iff.mp h
  refine ⟨_, rfl, rfl, fun row hrow => ?_⟩
  obtain ⟨part, hpart, hrow⟩ := List.mem_flatMap.mp hrow
  obtain ⟨arity, -, hpart⟩ := exists_of_mem_right (mapM_eq_ok_iff.mp hparts) hpart
  obtain ⟨rows, hrows, hpart⟩ := bind_eq_ok_iff.mp hpart
  obtain rfl := pure_eq_ok_iff.mp hpart
  rcases List.mem_cons.mp hrow with rfl | hrow
  · exact Or.inl ⟨_, _, rfl⟩
  · obtain ⟨row', hrow', rfl⟩ := List.mem_map.mp hrow
    obtain ⟨r, -, hr⟩ := exists_of_mem_right (mapM_eq_ok_iff.mp hrows) hrow'
    exact Or.inr (matrixRow_columns hr)

/-! ## The columns of the manifest -/

section Manifest

variable (conf : Text) (fs : FileSystem) (root : Text)

/-- A column that shows what one listed compiler measured on one machine. -/
abbrev ManifestColumn := Dataset × Text × Text

/-- One column per line of the manifest, in its order. -/
def manifestColumns (d : Dataset) : List ManifestColumn := (columns conf).map fun c => (d, c)

def ManifestColumn.label : ManifestColumn → Text
  | (.intel, name, _) => name ++ " (Intel)".toList
  | (.zen, name, _) => name ++ " (Zen)".toList

/-- The rows in the compiler's own files. -/
def ManifestColumn.rows (c : ManifestColumn) : List Record :=
  records (paths (fs (c.1.root root)) c.2.2)

/-- Those that a key selects. -/
def ManifestColumn.rowsAt (c : ManifestColumn) (k : Key) : List Record :=
  (c.rows fs root).filter fun r => keyOf r = .ok k

/-- The median of a figure over the rows that a key selects; there are some. -/
def ManifestColumn.Median (c : ManifestColumn) (k : Key) (name : String) (q : ℚ) : Prop :=
  c.rowsAt fs root k ≠ [] ∧ ∃ xs, (c.rowsAt fs root k).mapM (floatField name) = .ok xs ∧ q = median xs

/-- The cell shows medians over rows of the compiler's own files. -/
def CellOf (kind : CellKind) (c : ManifestColumn) (cell : Cell) : Prop :=
  ShowsMedians (c.Median fs root) (c.rowsAt fs root) kind cell

/-- The table has these columns, so labelled. -/
structure ShowsColumns (kind : CellKind) (lead : ℕ) (cols : List ManifestColumn)
    (label : ManifestColumn → Text) (t : MdTable) : Prop where
  header : t.header.drop lead = cols.map label
  cells : ∀ row ∈ t.rows, HeadsArity row ∨ List.Forall₂ (CellOf fs root kind) cols row.cells

/-- Whatever sections are asked for, the run prints them, the matrix with one column per
line of the manifest for each machine, the indirect table with one for the main machine. -/
def ColumnsFollow : Prop :=
  ∀ args sections, parseArgs args = .ok (sections, root) →
    ∃ out, (main conf fs args).res = .ok out ∧ out.map (·.1) = sections ∧
      (∀ sb ∈ out, sb.1 = .matrix → ∃ t, Block.tables sb.2 = [t] ∧
        ShowsColumns fs root .cost 1 (manifestColumns conf .intel ++ manifestColumns conf .zen)
          ManifestColumn.label t) ∧
      ∀ sb ∈ out, sb.1 = .indirect → ∃ t, Block.tables sb.2 = [t] ∧
        ShowsColumns fs root .delta 2 (manifestColumns conf .intel) (fun c => c.2.1) t

variable {conf fs root}

/-- What a loaded table has a median of is what the compiler's own files have. -/
theorem median_of_med {c : ManifestColumn} {t : Table} (ht : load (paths (fs (c.1.root root)) c.2.2) = .ok t)
    {k : Key} {name : String} {q : ℚ} (h : med t k name = .ok q) : c.Median fs root k name q := by
  have hentries : t.entries k = c.rowsAt fs root k := load_entries ht k
  obtain ⟨rs, hrs, hmedian⟩ := bind_eq_ok_iff.mp h
  obtain ⟨xs, hxs, hq⟩ := bind_eq_ok_iff.mp hmedian
  rw [rowsOf] at hrs
  rcases hget : t.get? k with - | rs'
  · rw [hget] at hrs
    exact absurd hrs (by simp)
  · rw [hget] at hrs
    obtain rfl := Except.ok.inj hrs
    obtain ⟨hne, rfl⟩ := (load_filled ht).get?_eq_some_iff.mp hget
    rw [hentries] at hne hxs
    exact ⟨hne, xs, hxs, (pure_eq_ok_iff.mp hq).symm⟩

theorem HasColumns.shows {kind : CellKind} {lead : ℕ} {cols : List (Text × Table)} {t : MdTable}
    (h : HasColumns kind lead cols t) {mcols : List ManifestColumn} {label : ManifestColumn → Text}
    (hlabels : cols.map (·.1) = mcols.map label)
    (hload : List.Forall₂ (fun c tab => load (paths (fs (c.1.root root)) c.2.2) = .ok tab)
      mcols (cols.map (·.2))) :
    ShowsColumns fs root kind lead mcols label t := by
  refine ⟨h.header.trans hlabels, fun row hrow => (h.cells row hrow).imp id fun hcells => ?_⟩
  rw [List.forall₂_map_right_iff] at hload
  refine forall₂_comp (fun c col cell hc hcell => ?_) hload hcells
  exact hcell.imp (fun k name q => median_of_med hc) (load_entries hc)

/-- The manifest lists the two labels `main` names, in its order, and no other. -/
def ListsTheTwo (conf : Text) : Prop :=
  (columns conf).map (·.1) = ["clang 22", "gcc 15"].map String.toList

/-- The indirect table is headed by the labels `main` gives it, whatever the manifest. -/
theorem listed_of_follow (h : ColumnsFollow conf fs root) : ListsTheTwo conf := by
  have hargs : parseArgs ["indirect".toList, root] = .ok ([.indirect], root) := rfl
  obtain ⟨out, hout, -, -, hindirect⟩ := h _ _ hargs
  obtain ⟨x, hx, hemit⟩ := main_sections hargs hout
  obtain ⟨sb, hsb, hname, hbs⟩ := exists_of_mem_left hemit
    (List.mem_singleton_self Section.indirect)
  obtain ⟨t, ht, hshows⟩ := hindirect sb hsb hname
  obtain ⟨t', ht', hcolumns⟩ := indirect_columns hbs
  obtain rfl : t = t' := by simpa [ht] using ht'
  have hheader := hshows.header.symm.trans hcolumns.header
  rw [(prepare_labels hx).2, manifestColumns, List.map_map] at hheader
  exact hheader

/-- `section_results` divides by the median of the yardstick. -/
theorem results_ne_zero {x : Inputs} {bs : List Block} (h : emitSection x .results = .ok bs) :
    med x.intel vfKey "net" ≠ .ok 0 := by
  obtain ⟨bs', hbs, -⟩ := bind_eq_ok_iff.mp h
  obtain ⟨touchM, -, hbs⟩ := bind_eq_ok_iff.mp hbs
  obtain ⟨vfn, hvfn, hbs⟩ := bind_eq_ok_iff.mp hbs
  obtain ⟨share, hshare, -⟩ := bind_eq_ok_iff.mp hbs
  rintro hzero
  obtain rfl : vfn = 0 := by simpa [hvfn] using hzero
  simp [divide] at hshare

theorem yardstick_of_follow (h : ColumnsFollow conf fs root) :
    ¬ YardstickVanishes conf fs root := by
  rintro ⟨build, t, hbuild, ht, hzero⟩
  have hargs : parseArgs ["results".toList, root] = .ok ([.results], root) := rfl
  obtain ⟨out, hout, -⟩ := h _ _ hargs
  obtain ⟨x, hx, hemit⟩ := main_sections hargs hout
  obtain ⟨-, hbuild', -, hload⟩ := prepare_loads hargs hx
  obtain ⟨sb, -, -, hbs⟩ := exists_of_mem_left hemit (List.mem_singleton_self Section.results)
  obtain rfl := Except.ok.inj (hbuild.symm.trans hbuild')
  have hcold := hload .results
  rw [sectionColumns, sectionTables, List.forall₂_cons] at hcold
  obtain rfl := Except.ok.inj (ht.symm.trans hcold.1)
  exact results_ne_zero hbs hzero

/-- A listed compiler's table is loaded from its own files when no label is listed twice. -/
theorem columnFiles_eq_own (hdistinct : ((columns conf).map (·.1)).Nodup) {c : Text × Text}
    (hc : c ∈ columns conf) (d : Dataset) :
    columnFiles conf fs root (d, c.1) = paths (fs (d.root root)) c.2 := by
  obtain ⟨c', hc', hname, hfiles⟩ := filesOf_eq_paths (fs (d.root root))
    (List.mem_map_of_mem (f := (·.1)) hc)
  rw [columnFiles, hfiles, List.inj_on_of_nodup_map hdistinct hc' hc hname]

theorem loads_own (hdistinct : ((columns conf).map (·.1)).Nodup) {mcols : List ManifestColumn}
    (hlisted : ∀ c ∈ mcols, c.2 ∈ columns conf) {tables : List Table}
    (hload : List.Forall₂ (fun c t => load (columnFiles conf fs root c) = .ok t)
      (mcols.map fun c => (c.1, c.2.1)) tables) :
    List.Forall₂ (fun c t => load (paths (fs (c.1.root root)) c.2.2) = .ok t) mcols tables := by
  have hown : ∀ c ∈ mcols, columnFiles conf fs root (c.1, c.2.1) =
      paths (fs (c.1.root root)) c.2.2 :=
    fun c hc => columnFiles_eq_own hdistinct (hlisted c hc) c.1
  rw [List.forall₂_map_left_iff] at hload
  refine ((List.forall₂_and_left _ _).mpr ⟨hown, hload⟩).imp fun c t h => ?_
  rw [← h.1]
  exact h.2

theorem manifestColumns_listed {d : Dataset} : ∀ c ∈ manifestColumns conf d, c.2 ∈ columns conf := by
  intro c hc
  obtain ⟨col, hcol, rfl⟩ := List.mem_map.mp hc
  exact hcol

section Two

variable {args : List Text} {sections : List Section} {x : Inputs}

theorem ListsTheTwo.nodup (h : ListsTheTwo conf) : ((columns conf).map (·.1)).Nodup := by
  rw [h]
  decide

theorem ListsTheTwo.columns_eq (h : ListsTheTwo conf) :
    ∃ clang gcc, columns conf = [("clang 22".toList, clang), ("gcc 15".toList, gcc)] := by
  obtain ⟨⟨a, clang⟩, ⟨b, gcc⟩, hcols⟩ : ∃ a b, columns conf = [a, b] := by
    have hlength := congrArg List.length h
    rw [List.length_map] at hlength
    exact List.length_eq_two.mp hlength
  obtain ⟨rfl, rfl⟩ : a = "clang 22".toList ∧ b = "gcc 15".toList := by
    simpa [ListsTheTwo, hcols] using h
  exact ⟨clang, gcc, hcols⟩

theorem matrix_shows (h : ListsTheTwo conf) (hargs : parseArgs args = .ok (sections, root))
    (hx : prepare conf fs args = .ok (sections, x)) {t : MdTable}
    (ht : HasColumns .cost 1 x.matrixCols t) :
    ShowsColumns fs root .cost 1 (manifestColumns conf .intel ++ manifestColumns conf .zen)
      ManifestColumn.label t := by
  obtain ⟨clang, gcc, hcols⟩ := h.columns_eq
  obtain ⟨-, -, -, hload⟩ := prepare_loads hargs hx
  refine ht.shows ?_ (loads_own h.nodup (fun c hc => ?_) ?_)
  · rw [(prepare_labels hx).1, manifestColumns, manifestColumns, hcols]
    rfl
  · rcases List.mem_append.mp hc with hc | hc
    · exact manifestColumns_listed c hc
    · exact manifestColumns_listed c hc
  · have hcolumns : sectionColumns x.build .matrix =
        (manifestColumns conf .intel ++ manifestColumns conf .zen).map fun c => (c.1, c.2.1) := by
      rw [manifestColumns, manifestColumns, hcols]
      rfl
    exact hcolumns ▸ hload .matrix

theorem indirect_shows (h : ListsTheTwo conf) (hargs : parseArgs args = .ok (sections, root))
    (hx : prepare conf fs args = .ok (sections, x)) {t : MdTable}
    (ht : HasColumns .delta 2 x.indirectCols t) :
    ShowsColumns fs root .delta 2 (manifestColumns conf .intel) (fun c => c.2.1) t := by
  obtain ⟨clang, gcc, hcols⟩ := h.columns_eq
  obtain ⟨-, -, -, hload⟩ := prepare_loads hargs hx
  refine ht.shows ?_ (loads_own h.nodup manifestColumns_listed ?_)
  · rw [(prepare_labels hx).2, manifestColumns, hcols]
    rfl
  · have hcolumns : sectionColumns x.build .indirect =
        (manifestColumns conf .intel).map fun c => (c.1, c.2.1) := by
      rw [manifestColumns, hcols]
      rfl
    exact hcolumns ▸ hload .indirect

end Two

/-- Over a complete dataset of the two compilers `main` names, the columns are those of
the manifest. -/
theorem follow_of_listed (hdata : CompleteDataset conf fs root) (h : ListsTheTwo conf)
    (hvf : ¬ YardstickVanishes conf fs root) : ColumnsFollow conf fs root := by
  intro args sections hargs
  have hclang : "clang 22".toList ∈ (columns conf).map (·.1) := by
    rw [h]
    simp
  have hgcc : "gcc 15".toList ∈ (columns conf).map (·.1) := by
    rw [h]
    simp
  obtain ⟨out, hout⟩ := hdata.main hargs hclang hgcc fun _ => hvf
  obtain ⟨x, hx, hemit⟩ := main_sections hargs hout
  refine ⟨out, hout, ?_, fun sb hsb hname => ?_, fun sb hsb hname => ?_⟩
  · have hnames : List.Forall₂ (· = ·) (out.map (·.1)) sections :=
      List.forall₂_map_left_iff.mpr (hemit.flip.imp fun _ _ h => h.1)
    exact List.forall₂_eq_eq_eq ▸ hnames
  · obtain ⟨s, -, rfl, hbs⟩ := exists_of_mem_right hemit hsb
    rw [hname] at hbs
    obtain ⟨t, ht, hcolumns⟩ := matrix_columns hbs
    exact ⟨t, ht, matrix_shows h hargs hx hcolumns⟩
  · obtain ⟨s, -, rfl, hbs⟩ := exists_of_mem_right hemit hsb
    rw [hname] at hbs
    obtain ⟨t, ht, hcolumns⟩ := indirect_columns hbs
    exact ⟨t, ht, indirect_shows h hargs hx hcolumns⟩

/-- When the columns are those of the manifest, over any complete dataset. -/
theorem columns_follow_iff (hdata : CompleteDataset conf fs root) :
    ColumnsFollow conf fs root ↔ ListsTheTwo conf ∧ ¬ YardstickVanishes conf fs root :=
  ⟨fun h => ⟨listed_of_follow h, yardstick_of_follow h⟩,
    fun ⟨hlisted, hvf⟩ => follow_of_listed hdata hlisted hvf⟩

end Manifest

/-- The committed manifest over one run of each machine. -/
theorem columns_follow_two_compilers :
    ColumnsFollow twoCompilers (measuredRuns twoCompilers hundredEach 1 1) "results".toList := by
  refine (columns_follow_iff (measuredRuns_complete _ _ Nat.one_pos Nat.one_pos)).mpr ⟨?_, ?_⟩
  · rw [ListsTheTwo, columns_twoCompilers]
    rfl
  · rintro ⟨build, t, hbuild, ht, hzero⟩
    rw [columns_twoCompilers] at hbuild
    obtain rfl : "clang 22".toList = build := Except.ok.inj hbuild
    rw [columnFiles_measured (by simp [columns_twoCompilers])] at ht
    rw [med_measured ht (by decide +kernel)] at hzero
    have hnet : hundredEach vfKey - hundredEach probeKey = 100 := by
      have hne : vfKey ≠ probeKey := by decide
      simp [hundredEach, hne]
    rw [hnet, rounded_hundred] at hzero
    exact absurd (Except.ok.inj hzero) (by norm_num)

/-- A third compiler, added to the committed manifest. -/
def threeCompilers : Text := "clang++-22\ng++-15\nclang++-23\n".toList

/-- Every file of the third compiler is there, and no table has a column for it. -/
theorem third_compiler_without_column :
    compilers threeCompilers = ["clang++-22", "g++-15", "clang++-23"].map String.toList ∧
      CompleteDataset threeCompilers (measuredRuns threeCompilers hundredEach 1 1)
        "results".toList ∧
      ¬ ColumnsFollow threeCompilers (measuredRuns threeCompilers hundredEach 1 1)
        "results".toList := by
  refine ⟨by decide +kernel, measuredRuns_complete _ _ Nat.one_pos Nat.one_pos, fun h => ?_⟩
  have hlength := congrArg List.length (listed_of_follow h)
  have hthree : (columns threeCompilers).length = 3 := by decide +kernel
  rw [List.length_map, hthree] at hlength
  exact absurd hlength (by decide)

end OMB
