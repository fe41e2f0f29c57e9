import OpenMethodBench.Proofs.TableReads

/-! What a run of `report.py` that reaches its end went through: the files each table was
loaded from, and the tables the sections were given. -/

namespace OMB

open Outcome

/-! ## Loading the columns -/

/-- The files behind `loaded[name]`: a later column of the same label replaces an
earlier one. -/
def filesOf (dirs : List RunDir) (cols : List (Text × Text)) (name : Text) : List Text :=
  match cols.reverse.find? fun c => c.1 = name with
  | some c => paths dirs c.2
  | none => []

section Columns

variable {dirs : List RunDir} {cols : List (Text × Text)} {missing : Text → Text}

theorem loadColumn_ok_iff {acc acc' : Dict Text Table × List ℕ} {col : Text × Text} :
    loadColumn dirs missing acc col = .ok acc' ↔ paths dirs col.2 ≠ [] ∧
      ∃ t, load (paths dirs col.2) = .ok t ∧
        acc' = (acc.1.set col.1 t, acc.2 ++ [(paths dirs col.2).length]) := by
  by_cases hempty : paths dirs col.2 = []
  · simp [loadColumn, hempty, bind, Except.bind, throw, throwThe, MonadExceptOf.throw]
  · have hfiles : (paths dirs col.2).isEmpty = false := by simpa using hempty
    simp only [loadColumn, hfiles, Bool.false_eq_true, if_false]
    refine ⟨fun h => ⟨hempty, ?_⟩, fun ⟨_, t, ht, h⟩ => ?_⟩
    · obtain ⟨t, ht, h⟩ := bind_eq_ok_iff.mp h
      exact ⟨t, ht, (pure_eq_ok_iff.mp h).symm⟩
    · rw [h]
      exact bind_ok ht rfl

theorem loadColumns_append (col : Text × Text) :
    loadColumns dirs (cols ++ [col]) missing =
      loadColumns dirs cols missing >>= fun acc => loadColumn dirs missing acc col := by
  rw [loadColumns, List.foldlM_append]
  refine congrArg _ (funext fun acc => ?_)
  rw [List.foldlM_cons]
  rcases loadColumn dirs missing acc col with e | r <;> rfl

theorem filesOf_append (col : Text × Text) (name : Text) :
    filesOf dirs (cols ++ [col]) name =
      if col.1 = name then paths dirs col.2 else filesOf dirs cols name := by
  rw [filesOf, List.reverse_append, List.reverse_singleton, List.singleton_append,
    List.find?_cons]
  by_cases h : col.1 = name <;> simp [h, filesOf]

/-- A listed label has the files of some compiler listed under it. -/
theorem filesOf_eq_paths (dirs : List RunDir) {name : Text} (h : name ∈ cols.map (·.1)) :
    ∃ c ∈ cols, c.1 = name ∧ filesOf dirs cols name = paths dirs c.2 := by
  rcases hfind : cols.reverse.find? fun c => c.1 = name with - | c
  · obtain ⟨c, hc, hname⟩ := List.mem_map.mp h
    have hnone := List.find?_eq_none.mp hfind c (List.mem_reverse.mpr hc)
    exact absurd hname (by simpa using hnone)
  · have hc := List.mem_of_find?_eq_some hfind
    have hname := List.find?_some hfind
    refine ⟨c, List.mem_reverse.mp hc, by simpa using hname, ?_⟩
    rw [filesOf, hfind]

/-- What the tables of a finished loop were loaded from. -/
theorem loadColumns_ok {loaded : Dict Text Table} {counts : List ℕ}
    (h : loadColumns dirs cols missing = .ok (loaded, counts)) :
    counts = cols.map (fun c => (paths dirs c.2).length) ∧
      (∀ c ∈ cols, loaded.get? c.1 ≠ none) ∧
      ∀ name t, loaded.get? name = some t →
        (∃ c ∈ cols, c.1 = name) ∧ load (filesOf dirs cols name) = .ok t := by
  induction cols using List.reverseRecOn generalizing loaded counts with
  | nil =>
    obtain ⟨rfl, rfl⟩ := Prod.mk.inj (Except.ok.inj h)
    exact ⟨rfl, by simp, by simp⟩
  | append_singleton cols col ih =>
    rw [loadColumns_append, bind_eq_ok_iff] at h
    obtain ⟨⟨loaded', counts'⟩, hprev, hcol⟩ := h
    obtain ⟨hcounts, hpresent, hfrom⟩ := ih hprev
    obtain ⟨-, t, ht, heq⟩ := loadColumn_ok_iff.mp hcol
    obtain ⟨rfl, rfl⟩ := Prod.mk.inj heq
    refine ⟨by rw [hcounts]; simp, fun c hc => ?_, fun name t' ht' => ?_⟩
    · rw [Dict.get?_set]
      split_ifs with hname
      · simp
      · rcases List.mem_append.mp hc with hc | hc
        · exact hpresent c hc
        · exact absurd (congrArg Prod.fst (List.mem_singleton.mp hc)).symm hname
    · rw [Dict.get?_set] at ht'
      rw [filesOf_append]
      split_ifs at ht' ⊢ with hname
      · obtain rfl := Option.some.inj ht'
        exact ⟨⟨col, by simp, hname⟩, ht⟩
      · obtain ⟨⟨c, hc, hcn⟩, hload⟩ := hfrom name t' ht'
        exact ⟨⟨c, List.mem_append_left _ hc, hcn⟩, hload⟩

theorem loadColumns_exists (h : ∀ c ∈ cols, paths dirs c.2 ≠ [] ∧ ∃ t, load (paths dirs c.2) = .ok t) :
    ∃ r, loadColumns dirs cols missing = .ok r := by
  induction cols using List.reverseRecOn with
  | nil => exact ⟨([], []), rfl⟩
  | append_singleton cols col ih =>
    obtain ⟨acc, hacc⟩ := ih fun c hc => h c (List.mem_append_left _ hc)
    obtain ⟨hne, t, ht⟩ := h col (by simp)
    rw [loadColumns_append, hacc]
    exact ⟨_, loadColumn_ok_iff.mpr ⟨hne, t, ht, rfl⟩⟩

end Columns

/-! ## The run -/

theorem main_ok_iff {conf : Text} {fs : FileSystem} {args : List Text}
    {out : List (Section × List Block)} :
    (main conf fs args).res = .ok out ↔
      ∃ sections x, prepare conf fs args = .ok (sections, x) ∧
        emitSections sections x = .ok out := by
  rw [main, Script.res_bind, Script.res_ofExcept, bind_eq_ok_iff]
  exact Prod.exists

theorem prepare_ok_iff {conf : Text} {fs : FileSystem} {args : List Text}
    {sections : List Section} {x : Inputs} :
    prepare conf fs args = .ok (sections, x) ↔
      ∃ build root intel zen, buildName (columns conf) = .ok build ∧
        parseArgs args = .ok (sections, root) ∧ fs root ≠ [] ∧
        loadColumns (fs root) (columns conf) (missingIntel root) = .ok intel ∧
        loadColumns (fs "results-zen".toList) (columns conf) missingZen = .ok zen ∧
        selectInputs build intel.1 zen.1 (intel.2.min?.getD 0) = .ok x := by
  refine ⟨fun h => ?_, ?_⟩
  · obtain ⟨build, hbuild, h⟩ := bind_eq_ok_iff.mp h
    obtain ⟨⟨sections', root⟩, hargs, h⟩ := bind_eq_ok_iff.mp h
    by_cases hdirs : fs root = []
    · simp [hdirs, bind, Except.bind, throw, throwThe, MonadExceptOf.throw] at h
    · have hfalse : (fs root).isEmpty = false := by simpa using hdirs
      simp only [hfalse, Bool.false_eq_true, if_false] at h
      obtain ⟨intel, hintel, h⟩ := bind_eq_ok_iff.mp h
      obtain ⟨zen, hzen, h⟩ := bind_eq_ok_iff.mp h
      obtain ⟨y, hy, h⟩ := bind_eq_ok_iff.mp h
      obtain ⟨rfl, rfl⟩ := Prod.mk.inj (pure_eq_ok_iff.mp h)
      exact ⟨build, root, intel, zen, hbuild, hargs, hdirs, hintel, hzen, hy⟩
  · rintro ⟨build, root, intel, zen, hbuild, hargs, hdirs, hintel, hzen, hx⟩
    have hfalse : (fs root).isEmpty = false := by simpa using hdirs
    refine bind_ok hbuild (bind_ok hargs ?_)
    simp only [hfalse, Bool.false_eq_true, if_false]
    exact bind_ok hintel (bind_ok hzen (bind_ok hx rfl))

theorem tableOf_ok_iff {loaded : Dict Text Table} {name : Text} {t : Table} :
    tableOf loaded name = .ok t ↔ loaded.get? name = some t := by
  rw [tableOf]
  rcases loaded.get? name with - | t' <;> simp

/-- Where the inputs of the sections were loaded from. -/
theorem selectInputs_ok_iff {build : Text} {intel zen : Dict Text Table} {passes : ℕ}
    {x : Inputs} :
    selectInputs build intel zen passes = .ok x ↔
      ∃ buildIntel buildZen clangIntel gccIntel clangZen gccZen,
        intel.get? build = some buildIntel ∧ zen.get? build = some buildZen ∧
        intel.get? "clang 22".toList = some clangIntel ∧
        intel.get? "gcc 15".toList = some gccIntel ∧
        zen.get? "clang 22".toList = some clangZen ∧ zen.get? "gcc 15".toList = some gccZen ∧
        x = ⟨buildIntel, buildZen, build,
          [("clang 22 (Intel)".toList, clangIntel), ("gcc 15 (Intel)".toList, gccIntel),
            ("clang 22 (Zen)".toList, clangZen), ("gcc 15 (Zen)".toList, gccZen)],
          [("clang 22".toList, clangIntel), ("gcc 15".toList, gccIntel)], passes⟩ := by
  refine ⟨fun h => ?_, ?_⟩
  · obtain ⟨bi, hbi, h⟩ := bind_eq_ok_iff.mp h
    obtain ⟨bz, hbz, h⟩ := bind_eq_ok_iff.mp h
    obtain ⟨ci, hci, h⟩ := bind_eq_ok_iff.mp h
    obtain ⟨gi, hgi, h⟩ := bind_eq_ok_iff.mp h
    obtain ⟨cz, hcz, h⟩ := bind_eq_ok_iff.mp h
    obtain ⟨gz, hgz, h⟩ := bind_eq_ok_iff.mp h
    exact ⟨bi, bz, ci, gi, cz, gz, tableOf_ok_iff.mp hbi, tableOf_ok_iff.mp hbz,
      tableOf_ok_iff.mp hci, tableOf_ok_iff.mp hgi, tableOf_ok_iff.mp hcz, tableOf_ok_iff.mp hgz,
      (pure_eq_ok_iff.mp h).symm⟩
  · rintro ⟨bi, bz, ci, gi, cz, gz, hbi, hbz, hci, hgi, hcz, hgz, rfl⟩
    simp only [← tableOf_ok_iff] at hbi hbz hci hgi hcz hgz
    exact bind_ok hbi (bind_ok hbz (bind_ok hci (bind_ok hgi (bind_ok hcz (bind_ok hgz rfl)))))

theorem emitSections_ok_iff {sections : List Section} {x : Inputs}
    {out : List (Section × List Block)} :
    emitSections sections x = .ok out ↔
      List.Forall₂ (fun s sb => sb.1 = s ∧ emitSection x s = .ok sb.2) sections out := by
  rw [emitSections, mapM_eq_ok_iff]
  refine ⟨fun h => h.imp fun s sb hsb => ?_, fun h => h.imp fun s sb hsb => ?_⟩
  · obtain ⟨bs, hbs, hsb⟩ := bind_eq_ok_iff.mp hsb
    obtain rfl := pure_eq_ok_iff.mp hsb
    exact ⟨rfl, hbs⟩
  · obtain ⟨rfl, hbs⟩ := hsb
    exact bind_ok hbs rfl

/-! ## What the sections are loaded from -/

/-- The two measurement machines. -/
inductive Dataset | intel | zen
  deriving DecidableEq, Repr

/-- Where a machine's run directories are. -/
def Dataset.root (root : Text) : Dataset → Text
  | .intel => root
  | .zen => "results-zen".toList

/-- The machine and the label behind each column of a section's table. -/
def sectionColumns (build : Text) : Section → List (Dataset × Text)
  | .results | .used => [(.intel, build), (.zen, build)]
  | .indirect => [(.intel, "clang 22".toList), (.intel, "gcc 15".toList)]
  | .matrix => [(.intel, "clang 22".toList), (.intel, "gcc 15".toList),
      (.zen, "clang 22".toList), (.zen, "gcc 15".toList)]

section Prepare

variable (conf : Text) (fs : FileSystem) (root : Text)

/-- The files a column is loaded from. -/
def columnFiles (c : Dataset × Text) : List Text := filesOf (fs (c.1.root root)) (columns conf) c.2

/-- The smallest number of files any listed compiler has on the main machine. -/
def passCount : ℕ := ((columns conf).map fun c => (paths (fs root) c.2).length).min?.getD 0

end Prepare

theorem buildName_ok_iff {cols : List (Text × Text)} {build : Text} :
    buildName cols = .ok build ↔ ∃ c, cols.head? = some c ∧ c.1 = build := by
  rcases cols with - | ⟨⟨name, file⟩, cols⟩
  · simp [buildName]
  · have hfirst : ((name, file) :: cols).find? (fun c => c.2 = file) = some (name, file) := by
      simp
    rw [buildName, hfirst]
    simp

/-- The tables of every section were loaded from the files of its columns. -/
theorem prepare_loads {conf : Text} {fs : FileSystem} {args : List Text}
    {sections sections' : List Section} {root : Text} {x : Inputs}
    (hargs : parseArgs args = .ok (sections', root))
    (h : prepare conf fs args = .ok (sections, x)) :
    sections = sections' ∧ buildName (columns conf) = .ok x.build ∧
      x.passes = passCount conf fs root ∧
      ∀ s, List.Forall₂ (fun c t => load (columnFiles conf fs root c) = .ok t)
        (sectionColumns x.build s) (sectionTables x s) := by
  obtain ⟨build, root', ⟨intel, counts⟩, ⟨zen, zenCounts⟩, hbuild, hargs', -, hintel, hzen, hx⟩ :=
    prepare_ok_iff.mp h
  rw [hargs] at hargs'
  obtain ⟨rfl, rfl⟩ := Prod.mk.inj (Except.ok.inj hargs')
  obtain ⟨rfl, -, hfrom⟩ := loadColumns_ok hintel
  obtain ⟨-, -, hfromZen⟩ := loadColumns_ok hzen
  obtain ⟨bi, bz, ci, gi, cz, gz, hbi, hbz, hci, hgi, hcz, hgz, rfl⟩ := selectInputs_ok_iff.mp hx
  refine ⟨rfl, hbuild, rfl, fun s => ?_⟩
  have hclang := (hfrom _ _ hci).2
  have hgcc := (hfrom _ _ hgi).2
  cases s with
  | results => exact .cons (hfrom _ _ hbi).2 (.cons (hfromZen _ _ hbz).2 .nil)
  | used => exact .cons (hfrom _ _ hbi).2 (.cons (hfromZen _ _ hbz).2 .nil)
  | indirect => exact .cons hclang (.cons hgcc .nil)
  | matrix =>
    exact .cons hclang (.cons hgcc (.cons (hfromZen _ _ hcz).2 (.cons (hfromZen _ _ hgz).2 .nil)))

/-- A run that printed got its inputs, and every section asked for is among what it printed. -/
theorem main_sections {conf : Text} {fs : FileSystem} {args : List Text}
    {sections : List Section} {root : Text} {out : List (Section × List Block)}
    (hargs : parseArgs args = .ok (sections, root)) (hrun : (main conf fs args).res = .ok out) :
    ∃ x, prepare conf fs args = .ok (sections, x) ∧
      List.Forall₂ (fun s sb => sb.1 = s ∧ emitSection x s = .ok sb.2) sections out := by
  obtain ⟨sections', x, hx, hemit⟩ := main_ok_iff.mp hrun
  obtain ⟨rfl, -, -, -⟩ := prepare_loads hargs hx
  exact ⟨x, hx, emitSections_ok_iff.mp hemit⟩

/-- The columns of the two multi-compiler tables have the labels `main` gives them. -/
theorem prepare_labels {conf : Text} {fs : FileSystem} {args : List Text}
    {sections : List Section} {x : Inputs} (h : prepare conf fs args = .ok (sections, x)) :
    x.matrixCols.map (·.1) = ["clang 22 (Intel)", "gcc 15 (Intel)", "clang 22 (Zen)",
        "gcc 15 (Zen)"].map String.toList ∧
      x.indirectCols.map (·.1) = ["clang 22", "gcc 15"].map String.toList := by
  obtain ⟨build, root, intel, zen, -, -, -, -, -, hx⟩ := prepare_ok_iff.mp h
  obtain ⟨bi, bz, ci, gi, cz, gz, -, -, -, -, -, -, rfl⟩ := selectInputs_ok_iff.mp hx
  exact ⟨rfl, rfl⟩

end OMB
