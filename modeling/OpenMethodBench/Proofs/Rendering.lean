import OpenMethodBench.Proofs.Datasets
import OpenMethodBench.Proofs.GeneratorRun

/-! Over complete tables every section is printed, unless the one division of the run has
nothing to divide by. -/

namespace OMB

open Outcome

/-! ## The rows a section shows -/

/-- The last row of the run that a section shows. -/
def lastRow : Section → Key
  | .used => variantKey clflush "inplace_ind" "use" "inplace_ind" "om ref" 2
  | .results | .indirect | .matrix =>
    variantKey clflush "inplace_ind" "const" "inplace_ind" "om ref" 2

theorem lastRow_mem (s : Section) : lastRow s ∈ sectionKeys s := by
  cases s <;> decide +kernel

/-- The run measures every row a section shows, and none after the last. -/
theorem sectionKeys_measured (s : Section) : ∀ k ∈ sectionKeys s,
    k ∈ matrixOrder ∧ matrixOrder.idxOf k ≤ matrixOrder.idxOf (lastRow s) := by
  cases s <;> decide +kernel

/-! ## Medians of complete tables -/

section Complete

variable {t intel zen : Table}

theorem Complete.rowsOf (ht : Complete t) {k : Key} (hk : k ∈ matrixOrder) (place : Text) :
    ∃ rs, OMB.rowsOf t k place = .ok rs ∧ ∀ r ∈ rs, Legible r := by
  obtain ⟨rs, hrs, hlegible⟩ := ht k hk
  exact ⟨rs, by rw [OMB.rowsOf, hrs], hlegible⟩

theorem Complete.med (ht : Complete t) {k : Key} (hk : k ∈ matrixOrder) (name : String)
    (hname : name ∈ ["net", "disp", "x_net"]) : ∃ q, OMB.med t k name = .ok q := by
  obtain ⟨rs, hrs, hlegible⟩ := ht.rowsOf hk []
  obtain ⟨qs, hqs⟩ := exists_mapM fun r hr => hlegible r hr name hname
  exact ⟨median qs, bind_ok hrs (bind_ok hqs rfl)⟩

theorem Complete.ratioCell (ht : Complete t) {k : Key} (hk : k ∈ matrixOrder) :
    ∃ c, OMB.ratioCell t k = .ok c := by
  obtain ⟨q, hq⟩ := ht.med hk "x_net" (by simp)
  exact ⟨_, bind_ok hq rfl⟩

theorem coldTable_complete (hintel : Complete intel) (hzen : Complete zen) (body : Text)
    (hkeys : ∀ r ∈ bothArities, r.key clflush body ∈ matrixOrder) :
    ∃ table, coldTable intel zen body = .ok table := by
  have hcells : ∀ r ∈ bothArities, ∃ row, coldRow intel zen body r = .ok row := by
    intro r hr
    obtain ⟨i, hi⟩ := hintel.ratioCell (hkeys r hr)
    obtain ⟨z, hz⟩ := hzen.ratioCell (hkeys r hr)
    exact ⟨_, bind_ok hi (bind_ok hz rfl)⟩
  obtain ⟨rows, hrows⟩ := exists_mapM hcells
  exact ⟨_, bind_ok hrows rfl⟩

theorem floatText_cycles (v : ℚ) : ∃ q, floatText (cycles v) = .ok q := by
  rw [cycles]
  split_ifs <;> rw [floatText, Numeral.decimal?_fixed] <;> exact ⟨_, rfl⟩

theorem Complete.indirectCell (ht : Complete t) {keys : Key × Key}
    (hdirect : keys.1 ∈ matrixOrder) (hindirect : keys.2 ∈ matrixOrder) :
    ∃ c, OMB.indirectCell t keys = .ok c := by
  obtain ⟨dv, hdv⟩ := ht.med hdirect "disp" (by simp)
  obtain ⟨iv, hiv⟩ := ht.med hindirect "disp" (by simp)
  obtain ⟨rdv, hrdv⟩ := floatText_cycles dv
  obtain ⟨riv, hriv⟩ := floatText_cycles iv
  exact ⟨_, bind_ok hdv (bind_ok hiv (bind_ok hrdv (bind_ok hriv rfl)))⟩

theorem matrixCell_complete {col : Text × Table} (ht : Complete col.2) {k : Key}
    (hk : k ∈ matrixOrder) : ∃ c, matrixCell col k = .ok c := by
  obtain ⟨rs, hrs, hlegible⟩ := ht.rowsOf hk (" in ".toList ++ col.1)
  obtain ⟨ratios, hratios⟩ := exists_mapM fun r hr => hlegible r hr "x_net" (by simp)
  obtain ⟨net, hnet⟩ := ht.med hk "net" (by simp)
  exact ⟨_, bind_ok hrs (bind_ok hratios (bind_ok hnet rfl))⟩

end Complete

/-! ## Sections over complete tables -/

section Sections

variable {intel zen : Table} {cols : List (Text × Table)} {passes : ℕ}

/-- `section_results` divides by a median. -/
theorem sectionResults_complete {build : Text} (hintel : Complete intel) (hzen : Complete zen)
    (hkeys : ∀ r ∈ bothArities, r.key clflush "const".toList ∈ matrixOrder)
    (hvf : med intel vfKey "net" ≠ .ok 0) :
    ∃ bs, sectionResults intel zen build passes = .ok bs := by
  obtain ⟨touchM, htouch⟩ := hintel.med (k := touchKey) (by decide +kernel) "net" (by simp)
  obtain ⟨vfn, hvfn⟩ := hintel.med (k := vfKey) (by decide +kernel) "net" (by simp)
  have hshare : divide touchM vfn = .ok (touchM / vfn) := by
    rw [divide, if_neg]
    rintro rfl
    exact hvf hvfn
  obtain ⟨t, ht⟩ := coldTable_complete hintel hzen "const".toList hkeys
  exact ⟨_, bind_ok htouch (bind_ok hvfn (bind_ok hshare (bind_ok ht rfl)))⟩

theorem emitWorld_complete {build body caption : Text} (hintel : Complete intel)
    (hzen : Complete zen) (hkeys : ∀ r ∈ bothArities, r.key clflush body ∈ matrixOrder) :
    ∃ bs, emitWorld intel zen build body passes caption = .ok bs := by
  obtain ⟨t, ht⟩ := coldTable_complete hintel hzen body hkeys
  exact ⟨_, bind_ok ht rfl⟩

theorem sectionIndirect_complete (hcols : ∀ col ∈ cols, Complete col.2)
    (hkeys : ∀ row ∈ indirectRows, (row.1.keys clflush row.2).1 ∈ matrixOrder ∧
      (row.1.keys clflush row.2).2 ∈ matrixOrder) :
    ∃ bs, sectionIndirect cols passes = .ok bs := by
  have hcells : ∀ row ∈ indirectRows, ∃ r, indirectRow cols row = .ok r := by
    intro row hrow
    obtain ⟨cells, hcells⟩ := exists_mapM fun col hcol =>
      (hcols col hcol).indirectCell (hkeys row hrow).1 (hkeys row hrow).2
    exact ⟨_, bind_ok hcells rfl⟩
  obtain ⟨rows, hrows⟩ := exists_mapM hcells
  exact ⟨_, bind_ok hrows rfl⟩

theorem matrixRows_complete (hcols : ∀ col ∈ cols, Complete col.2) {arity : ℤ}
    (hkeys : ∀ r ∈ dispatchRows arity, r.key clflush "const".toList ∈ matrixOrder) :
    ∃ rows, matrixRows cols clflush arity = .ok rows := by
  have hcells : ∀ r ∈ dispatchRows arity, ∃ row, matrixRow cols clflush r = .ok row := by
    intro r hr
    obtain ⟨cells, hcells⟩ := exists_mapM fun col hcol =>
      matrixCell_complete (hcols col hcol) (hkeys r hr)
    exact ⟨_, bind_ok hcells rfl⟩
  obtain ⟨rows, hrows⟩ := exists_mapM hcells
  exact ⟨_, bind_ok hrows rfl⟩

theorem sectionMatrix_complete (hcols : ∀ col ∈ cols, Complete col.2)
    (hkeys : ∀ r ∈ bothArities, r.key clflush "const".toList ∈ matrixOrder) :
    ∃ bs, sectionMatrix cols passes = .ok bs := by
  have hrows : ∀ arity ∈ [1, 2], ∃ rows, matrixRows cols clflush arity = .ok rows := by
    intro arity harity
    apply matrixRows_complete hcols
    intro r hr
    exact hkeys r (List.mem_flatMap.mpr ⟨arity, harity, hr⟩)
  obtain ⟨parts, hparts⟩ := exists_mapM hrows
  exact ⟨_, bind_ok hparts rfl⟩

/-- A section over complete tables is printed. -/
theorem emitSection_complete {x : Inputs} {s : Section} (ht : ∀ t ∈ sectionTables x s, Complete t)
    (hvf : s = .results → med x.intel vfKey "net" ≠ .ok 0) : ∃ bs, emitSection x s = .ok bs := by
  have hkeys : ∀ k ∈ sectionKeys s, k ∈ matrixOrder := fun k hk => (sectionKeys_measured s k hk).1
  cases s with
  | results =>
    simp only [sectionTables, List.forall_mem_cons] at ht
    obtain ⟨bs, hbs⟩ := sectionResults_complete ht.1 ht.2.1
      (fun r hr => hkeys _ (List.mem_map_of_mem hr)) (hvf rfl)
    exact ⟨_, bind_ok hbs rfl⟩
  | used =>
    simp only [sectionTables, List.forall_mem_cons] at ht
    obtain ⟨bs, hbs⟩ := emitWorld_complete ht.1 ht.2.1
      (fun r hr => hkeys _ (List.mem_map_of_mem hr))
    exact ⟨_, bind_ok hbs rfl⟩
  | indirect =>
    obtain ⟨bs, hbs⟩ := sectionIndirect_complete
      (fun col hcol => ht _ (List.mem_map_of_mem hcol)) fun row hrow =>
      ⟨hkeys _ (List.mem_flatMap.mpr ⟨row, hrow, by simp⟩),
        hkeys _ (List.mem_flatMap.mpr ⟨row, hrow, by simp⟩)⟩
    exact ⟨_, bind_ok hbs rfl⟩
  | matrix =>
    exact sectionMatrix_complete (fun col hcol => ht _ (List.mem_map_of_mem hcol))
      fun r hr => hkeys _ (List.mem_map_of_mem hr)

end Sections

/-! ## Runs over complete datasets -/

section Dataset

variable (conf : Text) (fs : FileSystem) (root : Text)

/-- Every run of both machines has the file of every listed compiler, with every row. -/
structure CompleteDataset : Prop where
  runs : ∀ d : Dataset, fs (d.root root) ≠ []
  files : ∀ d : Dataset, ∀ dir ∈ fs (d.root root), ∀ c ∈ columns conf,
    ∃ t, dir c.2 = some t ∧ CompleteFile t

/-- Every compiler has files on both machines, each with some first rows of its run. -/
structure CutColumns : Prop where
  runs : ∀ d : Dataset, fs (d.root root) ≠ []
  paths : ∀ d : Dataset, ∀ c ∈ columns conf, paths (fs (d.root root)) c.2 ≠ [] ∧
    ∀ f ∈ paths (fs (d.root root)) c.2, CutFile f

/-- The first compiler's virtual call took no time at all on the main machine. -/
def YardstickVanishes : Prop :=
  ∃ build t, buildName (columns conf) = .ok build ∧
    load (columnFiles conf fs root (.intel, build)) = .ok t ∧ med t vfKey "net" = .ok 0

variable {conf fs root}

theorem CompleteDataset.paths (h : CompleteDataset conf fs root) (d : Dataset)
    {c : Text × Text} (hc : c ∈ columns conf) :
    OMB.paths (fs (d.root root)) c.2 ≠ [] ∧
      ∀ f ∈ OMB.paths (fs (d.root root)) c.2, CompleteFile f := by
  refine ⟨fun hnil => ?_, fun f hf => ?_⟩
  · obtain ⟨dir, dirs, hdirs⟩ := List.exists_cons_of_ne_nil (h.runs d)
    obtain ⟨t, ht, -⟩ := h.files d dir (by rw [hdirs]; exact List.mem_cons_self) c hc
    rw [hdirs, OMB.paths, List.filterMap_cons_some (f := fun d : RunDir => d c.2) ht] at hnil
    exact absurd hnil (by simp)
  · obtain ⟨dir, hdir, hf⟩ := List.mem_filterMap.mp hf
    obtain ⟨t, ht, hcomplete⟩ := h.files d dir hdir c hc
    exact Option.some.inj (ht.symm.trans hf) ▸ hcomplete

theorem CompleteDataset.columnFiles (h : CompleteDataset conf fs root) {c : Dataset × Text}
    (hc : c.2 ∈ (columns conf).map (·.1)) :
    OMB.columnFiles conf fs root c ≠ [] ∧
      ∀ f ∈ OMB.columnFiles conf fs root c, CompleteFile f := by
  obtain ⟨col, hcol, -, hfiles⟩ := filesOf_eq_paths (fs (c.1.root root)) hc
  rw [OMB.columnFiles, hfiles]
  exact h.paths c.1 hcol

theorem CompleteDataset.cutColumns (h : CompleteDataset conf fs root) : CutColumns conf fs root := by
  refine ⟨h.runs, fun d c hc => ?_⟩
  obtain ⟨hne, hcomplete⟩ := h.paths d hc
  exact ⟨hne, fun f hf => (hcomplete f hf).cut⟩

/-- Every listed label gets a table. -/
theorem CutColumns.loads (h : CutColumns conf fs root) (d : Dataset)
    (missing : Text → Text) :
    ∃ loaded counts, loadColumns (fs (d.root root)) (columns conf) missing =
        .ok (loaded, counts) ∧
      ∀ name ∈ (columns conf).map (·.1), ∃ t, loaded.get? name = some t := by
  have hloads : ∃ r, loadColumns (fs (d.root root)) (columns conf) missing = .ok r := by
    apply loadColumns_exists
    intro c hc
    obtain ⟨hne, hcut⟩ := h.paths d c hc
    exact ⟨hne, load_cut hcut⟩
  obtain ⟨⟨loaded, counts⟩, hloaded⟩ := hloads
  refine ⟨loaded, counts, hloaded, fun name hname => ?_⟩
  obtain ⟨c, hc, rfl⟩ := List.mem_map.mp hname
  exact Option.ne_none_iff_exists'.mp ((loadColumns_ok hloaded).2.1 c hc)

/-- The sections get their tables as soon as the two labels `main` names are listed. -/
theorem CutColumns.prepare (h : CutColumns conf fs root) {args : List Text}
    {sections : List Section} (hargs : parseArgs args = .ok (sections, root))
    (hclang : "clang 22".toList ∈ (columns conf).map (·.1))
    (hgcc : "gcc 15".toList ∈ (columns conf).map (·.1)) :
    ∃ x, OMB.prepare conf fs args = .ok (sections, x) := by
  obtain ⟨intel, counts, hintel, hintelTables⟩ := h.loads .intel (missingIntel root)
  obtain ⟨zen, zenCounts, hzen, hzenTables⟩ := h.loads .zen missingZen
  obtain ⟨c, cols, hcols⟩ : ∃ c cols, columns conf = c :: cols := by
    apply List.exists_cons_of_ne_nil
    intro hnil
    rw [hnil] at hclang
    simp at hclang
  have hbuild : c.1 ∈ (columns conf).map (·.1) := by simp [hcols]
  obtain ⟨bi, hbi⟩ := hintelTables _ hbuild
  obtain ⟨bz, hbz⟩ := hzenTables _ hbuild
  obtain ⟨ci, hci⟩ := hintelTables _ hclang
  obtain ⟨gi, hgi⟩ := hintelTables _ hgcc
  obtain ⟨cz, hcz⟩ := hzenTables _ hclang
  obtain ⟨gz, hgz⟩ := hzenTables _ hgcc
  exact ⟨_, prepare_ok_iff.mpr ⟨c.1, root, (intel, counts), (zen, zenCounts),
    buildName_ok_iff.mpr ⟨c, by rw [hcols]; rfl, rfl⟩, hargs, h.runs .intel, hintel, hzen,
    selectInputs_ok_iff.mpr ⟨bi, bz, ci, gi, cz, gz, hbi, hbz, hci, hgi, hcz, hgz, rfl⟩⟩⟩

theorem CompleteDataset.prepare (h : CompleteDataset conf fs root) {args : List Text}
    {sections : List Section} (hargs : parseArgs args = .ok (sections, root))
    (hclang : "clang 22".toList ∈ (columns conf).map (·.1))
    (hgcc : "gcc 15".toList ∈ (columns conf).map (·.1)) :
    ∃ x, OMB.prepare conf fs args = .ok (sections, x) := h.cutColumns.prepare hargs hclang hgcc

theorem sectionColumns_listed {build : Text} {s : Section} {c : Dataset × Text}
    (hc : c ∈ sectionColumns build s) :
    c.2 = build ∨ c.2 = "clang 22".toList ∨ c.2 = "gcc 15".toList := by
  cases s <;> simp only [sectionColumns, List.mem_cons, List.not_mem_nil, or_false] at hc <;> grind

/-- The tables of every section of a run over a complete dataset are complete. -/
theorem CompleteDataset.tables (h : CompleteDataset conf fs root) {args : List Text}
    {sections : List Section} {x : Inputs} (hargs : parseArgs args = .ok (sections, root))
    (hclang : "clang 22".toList ∈ (columns conf).map (·.1))
    (hgcc : "gcc 15".toList ∈ (columns conf).map (·.1))
    (hx : OMB.prepare conf fs args = .ok (sections, x)) (s : Section) :
    ∀ t ∈ sectionTables x s, Complete t := by
  obtain ⟨-, hbuild, -, hload⟩ := prepare_loads hargs hx
  have hlisted : ∀ c ∈ sectionColumns x.build s, c.2 ∈ (columns conf).map (·.1) := by
    intro c hc
    rcases sectionColumns_listed hc with hbuilt | hname | hname
    · obtain ⟨col, hcol, hname⟩ := buildName_ok_iff.mp hbuild
      rw [hbuilt, ← hname]
      exact List.mem_map_of_mem (List.mem_of_head? hcol)
    · rwa [hname]
    · rwa [hname]
  intro t ht
  obtain ⟨c, hc, hct⟩ := exists_of_mem_right (hload s) ht
  obtain ⟨hne, hcomplete⟩ := h.columnFiles (hlisted c hc)
  obtain ⟨t', ht', hcomplete'⟩ := load_complete hne hcomplete
  rw [hct] at ht'
  exact Except.ok.inj ht' ▸ hcomplete'

/-- A run over a complete dataset of the two compilers `main` names prints every section
asked for. -/
theorem CompleteDataset.main (h : CompleteDataset conf fs root) {args : List Text}
    {sections : List Section} (hargs : parseArgs args = .ok (sections, root))
    (hclang : "clang 22".toList ∈ (columns conf).map (·.1))
    (hgcc : "gcc 15".toList ∈ (columns conf).map (·.1))
    (hvf : .results ∈ sections → ¬ YardstickVanishes conf fs root) :
    ∃ out, (OMB.main conf fs args).res = .ok out := by
  obtain ⟨x, hx⟩ := h.prepare hargs hclang hgcc
  obtain ⟨-, hbuild, -, hload⟩ := prepare_loads hargs hx
  have hsections : ∀ s ∈ sections, ∃ bs, emitSection x s = .ok bs := by
    intro s hs
    apply emitSection_complete (h.tables hargs hclang hgcc hx s)
    rintro rfl hzero
    have hintel : load (OMB.columnFiles conf fs root (.intel, x.build)) = .ok x.intel := by
      have hcold := hload .results
      rw [sectionColumns, sectionTables, List.forall₂_cons] at hcold
      exact hcold.1
    exact hvf hs ⟨x.build, x.intel, hbuild, hintel, hzero⟩
  obtain ⟨out, hout⟩ := exists_mapM fun s hs => by
    obtain ⟨bs, hbs⟩ := hsections s hs
    exact ⟨(s, bs), bind_ok hbs rfl⟩
  exact ⟨out, main_ok_iff.mpr ⟨sections, x, hx, hout⟩⟩

end Dataset

/-! ## A measured dataset -/

section Measured

variable (conf : Text) (mean : Key → ℚ) (intelRuns zenRuns : ℕ)

/-- A run directory in which every listed compiler measured the same. -/
def measuredDir : RunDir := fun file =>
  if file ∈ (columns conf).map (·.2) then some (measuredFile mean) else none

/-- So many runs on each machine. -/
def measuredRuns : FileSystem := fun root =>
  if root = "results".toList then List.replicate intelRuns (measuredDir conf mean)
  else if root = "results-zen".toList then List.replicate zenRuns (measuredDir conf mean)
  else []

def Dataset.runs : Dataset → ℕ
  | .intel => intelRuns
  | .zen => zenRuns

variable {conf mean intelRuns zenRuns}

theorem measuredRuns_root (d : Dataset) :
    measuredRuns conf mean intelRuns zenRuns (d.root "results".toList) =
      List.replicate (d.runs intelRuns zenRuns) (measuredDir conf mean) := by
  cases d <;> rfl

theorem measuredDir_listed {c : Text × Text} (hc : c ∈ columns conf) :
    measuredDir conf mean c.2 = some (measuredFile mean) :=
  if_pos (List.mem_map_of_mem hc)

theorem measuredRuns_complete (conf : Text) (mean : Key → ℚ) (hintel : 0 < intelRuns)
    (hzen : 0 < zenRuns) :
    CompleteDataset conf (measuredRuns conf mean intelRuns zenRuns) "results".toList where
  runs d := by
    rw [measuredRuns_root, ne_eq, List.replicate_eq_nil_iff]
    cases d
    · exact hintel.ne'
    · exact hzen.ne'
  files d dir hdir c hc := by
    rw [measuredRuns_root] at hdir
    rw [List.eq_of_mem_replicate hdir]
    exact ⟨_, measuredDir_listed hc, measuredFile_complete mean⟩

theorem columnFiles_measured {c : Dataset × Text} (hc : c.2 ∈ (columns conf).map (·.1)) :
    columnFiles conf (measuredRuns conf mean intelRuns zenRuns) "results".toList c =
      List.replicate (c.1.runs intelRuns zenRuns) (measuredFile mean) := by
  obtain ⟨col, hcol, -, hfiles⟩ := filesOf_eq_paths
    (measuredRuns conf mean intelRuns zenRuns (c.1.root "results".toList)) hc
  rw [columnFiles, hfiles, measuredRuns_root, paths,
    List.filterMap_replicate_of_some (f := fun dir : RunDir => dir col.2) (measuredDir_listed hcol)]

end Measured

/-- The lines of the committed manifest. -/
def twoCompilers : Text := "clang++-22\ng++-15\n".toList

theorem columns_twoCompilers : columns twoCompilers =
    [("clang 22".toList, "clang++-22.csv".toList), ("gcc 15".toList, "g++-15.csv".toList)] := by
  decide +kernel

theorem parseArgs_matrix :
    parseArgs ["matrix".toList] = .ok ([.matrix], "results".toList) := rfl

theorem measured_matrix_printed (mean : Key → ℚ) {intelRuns zenRuns : ℕ}
    (hintel : 0 < intelRuns) (hzen : 0 < zenRuns) :
    ∃ out, (main twoCompilers (measuredRuns twoCompilers mean intelRuns zenRuns)
      ["matrix".toList]).res = .ok out := by
  apply (measuredRuns_complete _ mean hintel hzen).main parseArgs_matrix
  · rw [columns_twoCompilers]
    simp
  · rw [columns_twoCompilers]
    simp
  · simp

end OMB
