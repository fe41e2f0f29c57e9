import Mathlib
import OpenMethodBench.Proofs.MatrixRun
import OpenMethodBench.Proofs.PassCount

/-! What `report.py` loads after a run of `matrix.sh`: the passes of that run, and no other. -/

namespace OMB

open Steps

/-! ## The files of a column -/

section Files

variable {out t : OutDir} {bench : Bench} {ccs : List Text} {ks done : List ℕ} {begun : OutDir}

theorem runDirs_perm {runs : OutDir} (hruns : ∀ e ∈ runs, isRunName e.1 = true) :
    (runDirs (others out ++ runs)).Perm (runs.map fun e name => e.2.get? name) := by
  have hnone : (others out).filter (fun e => isRunName e.1) = [] := by
    rw [List.filter_eq_nil_iff]
    intro e he
    rw [isRunName_of_mem_others (List.mem_map_of_mem he)]
    decide
  rw [runDirs, List.filter_append, hnone, List.nil_append, List.filter_eq_self.mpr hruns]
  exact (List.mergeSort_perm runs _).map _

theorem paths_perm {runs : OutDir} (hruns : ∀ e ∈ runs, isRunName e.1 = true) (file : Text) :
    (paths (runDirs (others out ++ runs)) file).Perm (runs.filterMap fun e => e.2.get? file) := by
  have hperm : (paths (runDirs (others out ++ runs)) file).Perm _ :=
    (runDirs_perm hruns).filterMap fun dir : RunDir => dir file
  rwa [List.filterMap_map] at hperm

theorem get?_pass {cc : Text} (hcc : cc ∈ ccs) (k : ℕ) :
    (bench.pass ccs k).2.get? (csvName cc) = some (bench.csv k cc) :=
  Dict.get?_map csvName_injective _ hcc

/-- What an interrupted pass has of a compiler: nothing, or what its benchmark had printed. -/
theorem PartPass.get? {k : ℕ} {files : Dict Text Text} (h : PartPass bench ccs k files) (cc : Text) :
    files.get? (csvName cc) = none ∨ ∃ shown, shown <+: bench.prints k cc ∧
      files.get? (csvName cc) = some shown.flatten := by
  obtain ⟨pre, post, cut, -, rfl, hcut⟩ := h
  by_cases hpre : cc ∈ pre
  · right
    refine ⟨bench.prints k cc, List.prefix_rfl, ?_⟩
    rw [Dict.get?_append, get?_pass hpre]
    rfl
  · have hnot : csvName cc ∉ (bench.pass pre k).2.map Prod.fst := by
      intro hmem
      obtain ⟨e, he, hname⟩ := List.mem_map.mp hmem
      obtain ⟨c, hc, rfl⟩ := List.mem_map.mp he
      exact hpre (csvName_injective hname ▸ hc)
    rw [Dict.get?_append_of_not_mem hnot]
    rcases hcut with rfl | ⟨c, -, shown, -, hshown, rfl⟩
    · exact Or.inl rfl
    · rw [Dict.get?_cons]
      split_ifs with hname
      · obtain rfl := csvName_injective hname
        exact Or.inr ⟨shown, hshown, rfl⟩
      · exact Or.inl rfl

/-- The last file of a column, if a run was left in the middle of a pass. -/
def CutShort (bench : Bench) (ks done : List ℕ) (cc : Text) (cut : List Text) : Prop :=
  cut = [] ∨ ∃ k shown, done ++ [k] <+: ks ∧ shown <+: bench.prints k cc ∧ cut = [shown.flatten]

theorem filterMap_begun {cc : Text} (h : Begun bench ccs ks done begun) :
    CutShort bench ks done cc (begun.filterMap fun e => e.2.get? (csvName cc)) := by
  rcases h with rfl | ⟨k, files, hk, hpart, rfl⟩
  · exact Or.inl rfl
  · rcases hpart.get? cc with hnone | ⟨shown, hshown, hget⟩
    · exact Or.inl (by simp [hnone])
    · exact Or.inr ⟨k, shown, hk, hshown, by simp [hget]⟩

theorem filterMap_passes {cc : Text} (hcc : cc ∈ ccs) :
    (done.map (bench.pass ccs)).filterMap (fun e => e.2.get? (csvName cc)) =
      done.map fun k => bench.csv k cc := by
  rw [List.filterMap_map]
  have hget : (fun e => Dict.get? e.2 (csvName cc)) ∘ bench.pass ccs = fun k => some (bench.csv k cc) :=
    funext fun k => get?_pass hcc k
  rw [hget, List.filterMap_eq_map']

theorem Cleared.paths (h : Cleared bench ccs ks out t done begun) {cc : Text} (hcc : cc ∈ ccs) :
    ∃ cut, CutShort bench ks done cc cut ∧
      (OMB.paths (runDirs t) (csvName cc)).Perm ((done.map fun k => bench.csv k cc) ++ cut) := by
  have hruns : ∀ e ∈ done.map (bench.pass ccs) ++ begun, isRunName e.1 = true := by
    intro e he
    rcases List.mem_append.mp he with he | he
    · obtain ⟨k, -, rfl⟩ := List.mem_map.mp he
      exact isRunName_runName k
    · rcases h.next with rfl | ⟨k, files, -, -, rfl⟩
      · exact absurd he List.not_mem_nil
      · rw [List.mem_singleton.mp he]
        exact isRunName_runName k
  refine ⟨_, filterMap_begun h.next, ?_⟩
  have hperm : (OMB.paths (runDirs (others out ++ (done.map (bench.pass ccs) ++ begun))) _).Perm _ :=
    paths_perm hruns (csvName cc)
  rwa [List.filterMap_append, filterMap_passes hcc, ← h.entries] at hperm

end Files

/-! ## What the report is loaded from -/

section Report

variable {space : Char → Bool} {conf : Text} {fs : FileSystem} {root : Text} {args : List Text}
  {sections sections' : List Section} {x : Inputs} {bench : Bench} {out t : OutDir}
  {ks done : List ℕ} {begun : OutDir}

theorem mem_columns {c : Text × Text} (hc : c ∈ columns conf) :
    ∃ cc ∈ compilers conf, c = (labelOf cc, csvName cc) := by
  obtain ⟨cc, hcc, rfl⟩ := List.mem_map.mp hc
  exact ⟨cc, hcc, rfl⟩

/-- The sections have columns of listed compilers only. -/
theorem prepare_listed (h : prepare conf fs args = .ok (sections, x)) (s : Section) :
    ∀ c ∈ sectionColumns x.build s, c.2 ∈ (columns conf).map Prod.fst := by
  obtain ⟨build, root', ⟨intel, counts⟩, zen, -, -, -, hintel, -, hx⟩ := prepare_ok_iff.mp h
  obtain ⟨-, -, hfrom⟩ := loadColumns_ok hintel
  obtain ⟨bi, bz, ci, gi, cz, gz, hbi, -, hci, hgi, -, -, rfl⟩ := selectInputs_ok_iff.mp hx
  have hlisted : ∀ name t, intel.get? name = some t → name ∈ (columns conf).map Prod.fst := by
    intro name t ht
    obtain ⟨⟨c, hc, rfl⟩, -⟩ := hfrom name t ht
    exact List.mem_map_of_mem hc
  intro c hc
  rcases sectionColumns_listed hc with hname | hname | hname
  · exact hname ▸ hlisted _ _ hbi
  · exact hname ▸ hlisted _ _ hci
  · exact hname ▸ hlisted _ _ hgi

/-- Each table of the main machine is loaded from one file of its compiler for every pass that is
done, and from what a pass in the making has of it. -/
def LoadsPasses (bench : Bench) (conf : Text) (ks done : List ℕ) (x : Inputs) : Prop :=
  ∀ s, List.Forall₂ (fun c t => c.1 = .intel → ∃ cc ∈ compilers conf, labelOf cc = c.2 ∧
    ∃ cut files, CutShort bench ks done cc cut ∧
      files.Perm ((done.map fun k => bench.csv k cc) ++ cut) ∧ load files = .ok t)
    (sectionColumns x.build s) (sectionTables x s)

theorem Cleared.loads (h : Cleared bench (compilers conf) ks out t done begun)
    (hfs : fs root = runDirs t) (hargs : parseArgs args = .ok (sections', root))
    (hx : prepare conf fs args = .ok (sections, x)) : LoadsPasses bench conf ks done x := by
  intro s
  obtain ⟨-, -, -, hload⟩ := prepare_loads hargs hx
  refine List.forall₂_iff_get.mpr ⟨(hload s).length_eq, fun i hi hj hintel => ?_⟩
  have htable := (List.forall₂_iff_get.mp (hload s)).2 i hi hj
  obtain ⟨c, hc, hname, hfiles⟩ := filesOf_eq_paths (fs root)
    (prepare_listed hx s _ (List.get_mem (sectionColumns x.build s) ⟨i, hi⟩))
  obtain ⟨cc, hcc, rfl⟩ := mem_columns hc
  obtain ⟨cut, hcut, hperm⟩ := h.paths hcc
  refine ⟨cc, hcc, hname, cut, _, hcut, hperm, ?_⟩
  rw [columnFiles, hintel] at htable
  rwa [← hfs, ← hfiles]

theorem CutShort.length_le {cc : Text} {cut : List Text} (h : CutShort bench ks done cc cut) : cut.length ≤ 1 := by
  rcases h with rfl | ⟨k, shown, -, -, rfl⟩
  · exact Nat.zero_le 1
  · exact le_refl 1

theorem passCount_bounds {lo hi : ℕ} (hlisted : columns conf ≠ []) (hfiles : ∀ c ∈ columns conf,
    lo ≤ (OMB.paths (fs root) c.2).length ∧ (OMB.paths (fs root) c.2).length ≤ hi) :
    lo ≤ passCount conf fs root ∧ passCount conf fs root ≤ hi := by
  constructor
  · by_contra hlt
    obtain ⟨c, hc, hle⟩ := (passCount_le_iff hlisted).mp
      (Nat.le_sub_one_of_lt (Nat.lt_of_not_le hlt))
    have := (hfiles c hc).1
    omega
  · obtain ⟨c, hc⟩ := List.exists_mem_of_ne_nil _ hlisted
    exact (passCount_le_iff hlisted).mpr ⟨c, hc, (hfiles c hc).2⟩

/-- How many files a column has. -/
theorem Cleared.length_paths (h : Cleared bench (compilers conf) ks out t done begun)
    (hfs : fs root = runDirs t) {c : Text × Text} (hc : c ∈ columns conf) :
    ∃ cc cut, CutShort bench ks done cc cut ∧
      (OMB.paths (fs root) c.2).length = done.length + cut.length := by
  obtain ⟨cc, hcc, rfl⟩ := mem_columns hc
  obtain ⟨cut, hcut, hperm⟩ := h.paths hcc
  have hlen := hperm.length_eq
  rw [List.length_append, List.length_map] at hlen
  exact ⟨cc, cut, hcut, by rw [hfs]; exact hlen⟩

theorem Cleared.passCount (h : Cleared bench (compilers conf) ks out t done begun)
    (hfs : fs root = runDirs t) (hlisted : columns conf ≠ []) :
    done.length ≤ OMB.passCount conf fs root ∧ OMB.passCount conf fs root ≤ done.length + 1 := by
  refine passCount_bounds hlisted fun c hc => ?_
  obtain ⟨cc, cut, hcut, hlen⟩ := h.length_paths hfs hc
  have hone := hcut.length_le
  omega

theorem prepare_ne_nil (hargs : parseArgs args = .ok (sections', root))
    (h : prepare conf fs args = .ok (sections, x)) : columns conf ≠ [] ∧ fs root ≠ [] := by
  obtain ⟨build, root', -, -, hbuild, hargs', hdirs, -⟩ := prepare_ok_iff.mp h
  rw [hargs] at hargs'
  obtain ⟨-, rfl⟩ := Prod.mk.inj (Except.ok.inj hargs')
  obtain ⟨c, hc, -⟩ := buildName_ok_iff.mp hbuild
  exact ⟨fun hnil => absurd (hnil ▸ hc) (by simp), hdirs⟩

end Report

section Completed

variable {space : Char → Bool} {conf : Text} {bench : Bench} {out t : OutDir} {runs : Option ℤ}
  {fs : FileSystem} {root : Text}

/-- What the script has left where it ends well. -/
theorem cleared_of_run (hplain : PlainCommands (loopCommands space conf))
    (hrun : run (matrixStep space conf bench) out (matrixSteps space conf bench runs out) = some t) :
    Cleared bench (loopCommands space conf) (passNumbers runs) out t (passNumbers runs) [] := by
  obtain ⟨⟨-, hbuilt, -⟩, ht⟩ := (matrixSteps_run_iff hplain).mp hrun
  exact ⟨List.prefix_rfl, by rw [ht, List.append_nil], Or.inl rfl, fun _ => hbuilt⟩

theorem CutShort.eq_nil {ks : List ℕ} {cc : Text} {cut : List Text} (h : CutShort bench ks ks cc cut) : cut = [] := by
  rcases h with h | ⟨k, shown, hk, -, -⟩
  · exact h
  · have := hk.length_le
    rw [List.length_append, List.length_singleton] at this
    omega

theorem dataset_of_run (hconf : loopCommands space conf = compilers conf)
    (hplain : PlainCommands (compilers conf))
    (hrun : run (matrixStep space conf bench) out (matrixSteps space conf bench runs out) = some t)
    (hpasses : passNumbers runs ≠ []) (hfs : fs root = runDirs t)
    (hcsv : ∀ k ∈ passNumbers runs, ∀ cc ∈ compilers conf, CompleteFile (bench.csv k cc))
    (hzen : fs "results-zen".toList ≠ [] ∧ ∀ dir ∈ fs "results-zen".toList, ∀ c ∈ columns conf,
      ∃ t, dir c.2 = some t ∧ CompleteFile t) : CompleteDataset conf fs root := by
  have hclear := cleared_of_run (hconf ▸ hplain) hrun
  have hperm : (fs root).Perm (((passNumbers runs).map (bench.pass (compilers conf))).map
      fun e name => e.2.get? name) := by
    rw [hfs, hclear.entries, List.append_nil, hconf]
    refine runDirs_perm fun e he => ?_
    obtain ⟨k, -, rfl⟩ := List.mem_map.mp he
    exact isRunName_runName k
  have hruns : fs root ≠ [] := by
    intro hnil
    have hlen := hperm.length_eq
    rw [hnil, List.length_map, List.length_map] at hlen
    exact hpasses (List.length_eq_zero_iff.mp hlen.symm)
  have hfiles : ∀ dir ∈ fs root, ∀ c ∈ columns conf, ∃ t, dir c.2 = some t ∧ CompleteFile t := by
    intro dir hdir c hc
    obtain ⟨e, he, rfl⟩ := List.mem_map.mp (hperm.mem_iff.mp hdir)
    obtain ⟨k, hk, rfl⟩ := List.mem_map.mp he
    obtain ⟨cc, hcc, rfl⟩ := mem_columns hc
    exact ⟨bench.csv k cc, get?_pass hcc k, hcsv k hk cc hcc⟩
  refine ⟨fun d => ?_, fun d => ?_⟩
  · cases d with
    | intel => exact hruns
    | zen => exact hzen.1
  · cases d with
    | intel => exact hfiles
    | zen => exact hzen.2

section Printed

variable (hconf : loopCommands space conf = compilers conf) (hplain : PlainCommands (compilers conf))
  (hrun : run (matrixStep space conf bench) out (matrixSteps space conf bench runs out) = some t)
  (hfs : fs root = runDirs t) {args : List Text} {sections sections' : List Section} {x : Inputs}
  (hargs : parseArgs args = .ok (sections', root)) (hx : prepare conf fs args = .ok (sections, x))
include hconf hplain hrun hfs hargs hx

theorem passes_of_run : x.passes = (runs.getD 0).toNat := by
  have hclear := cleared_of_run (hconf ▸ hplain) hrun
  rw [hconf] at hclear
  obtain ⟨hlisted, -⟩ := prepare_ne_nil hargs hx
  obtain ⟨-, -, hcount, -⟩ := prepare_loads hargs hx
  have hfiles : (passNumbers runs).length ≤ passCount conf fs root ∧
      passCount conf fs root ≤ (passNumbers runs).length := by
    refine passCount_bounds hlisted fun c hc => ?_
    obtain ⟨cc, cut, hcut, hlen⟩ := hclear.length_paths hfs hc
    rw [hcut.eq_nil, List.length_nil, Nat.add_zero] at hlen
    omega
  rw [hcount, le_antisymm hfiles.2 hfiles.1, passNumbers, List.length_range']

theorem loads_of_run (s : Section) : List.Forall₂ (fun c t => c.1 = .intel → ∃ cc ∈ compilers conf,
    labelOf cc = c.2 ∧ ∃ files, files.Perm ((passNumbers runs).map fun k => bench.csv k cc) ∧
      load files = .ok t) (sectionColumns x.build s) (sectionTables x s) := by
  have hclear := cleared_of_run (hconf ▸ hplain) hrun
  rw [hconf] at hclear
  refine (hclear.loads hfs hargs hx s).imp fun c t hct hintel => ?_
  obtain ⟨cc, hcc, hname, cut, files, hcut, hperm, hload⟩ := hct hintel
  rw [hcut.eq_nil, List.append_nil] at hperm
  exact ⟨cc, hcc, hname, files, hperm, hload⟩

end Printed

end Completed

/-- Where an interrupted `matrix.sh` had got past `rm`, `report.py` has nothing to load unless every
compiler builds and verifies, it loads what this run has measured and no more, and it counts at most
one pass that is not complete. -/
theorem matrix_interrupted_report {space : Char → Bool} {conf : Text} {bench : Bench}
    {out m t : OutDir} {runs : Option ℤ} {fs : FileSystem} {root : Text} {args : List Text}
    {sections sections' : List Section} {x : Inputs}
    (hconf : loopCommands space conf = compilers conf) (hplain : PlainCommands (compilers conf))
    (hcleared : run (matrixStep space conf bench) out (untilCleared space conf out) = some m)
    (hleft : Leaves (matrixStep space conf bench) m
      (onceCleared bench (compilers conf) (passNumbers runs)) t)
    (hfs : fs root = runDirs t) (hargs : parseArgs args = .ok (sections', root))
    (hx : prepare conf fs args = .ok (sections, x)) :
    Built bench (compilers conf) ∧ ∃ done, done <+: passNumbers runs ∧
      (x.passes = done.length ∨ x.passes = done.length + 1) ∧
      LoadsPasses bench conf (passNumbers runs) done x := by
  obtain ⟨⟨-, hlocated, -⟩, hm⟩ := untilCleared_run_iff.mp hcleared
  rw [hm] at hleft
  rw [hconf] at hlocated
  obtain ⟨done, begun, h⟩ := onceCleared_leaves (passNumbers_nodup runs) hplain hlocated hleft
  obtain ⟨hlisted, hdirs⟩ := prepare_ne_nil hargs hx
  obtain ⟨-, -, hpasses, -⟩ := prepare_loads hargs hx
  have hcount := h.passCount hfs hlisted
  refine ⟨h.built ?_, done, h.upto, by omega, h.loads hfs hargs hx⟩
  by_contra hnone
  rw [not_or, not_not, not_not] at hnone
  have hnil : (runDirs (others out ++ [])).Perm _ := runDirs_perm (by simp)
  rw [List.map_nil, List.perm_nil] at hnil
  rw [hfs, h.entries, hnone.1, hnone.2] at hdirs
  exact hdirs hnil

/-! The two compilers' passes, and the Zen machine's. -/

/-- What the main machine's runs are, next to one run of the Zen machine. -/
def besideZen (out : OutDir) : FileSystem := fun root =>
  if root = "results".toList then runDirs out else measuredRuns twoCompilers hundredEach 1 1 root

theorem besideZen_results (out : OutDir) : besideZen out "results".toList = runDirs out := if_pos rfl

theorem loopCommands_eq_compilers_two : loopCommands posixSpace twoCompilers = compilers twoCompilers := by
  rw [loopCommands_two]
  decide +kernel

theorem plainCompilers_two : PlainCommands (compilers twoCompilers) :=
  loopCommands_eq_compilers_two ▸ plainCommands_two

theorem zen_beside (out : OutDir) : besideZen out "results-zen".toList ≠ [] ∧
    ∀ dir ∈ besideZen out "results-zen".toList, ∀ c ∈ columns twoCompilers,
      ∃ t, dir c.2 = some t ∧ CompleteFile t := by
  have hdata := measuredRuns_complete twoCompilers hundredEach Nat.one_pos Nat.one_pos
  have hzen : besideZen out "results-zen".toList =
      measuredRuns twoCompilers hundredEach 1 1 "results-zen".toList := if_neg (by decide)
  rw [hzen]
  exact ⟨hdata.runs .zen, hdata.files .zen⟩

theorem labels_two : "clang 22".toList ∈ (columns twoCompilers).map Prod.fst ∧
    "gcc 15".toList ∈ (columns twoCompilers).map Prod.fst := by
  decide +kernel

theorem csv_sound (k : ℕ) (cc : Text) : soundBench.csv k cc = measuredFile hundredEach := by
  obtain ⟨rest, hrest⟩ : ∃ rest, measuredFile hundredEach = csvHeader ++ rest := ⟨_, rfl⟩
  have hcsv : soundBench.csv k cc =
      csvHeader ++ ((measuredFile hundredEach).drop csvHeader.length ++ []) := rfl
  rw [hcsv, List.append_nil, hrest, List.drop_left]

theorem complete_sound (k : ℕ) (cc : Text) : CompleteFile (soundBench.csv k cc) :=
  csv_sound k cc ▸ measuredFile_complete hundredEach

theorem cutFile_header : CutFile csvHeader := ⟨0, by decide +kernel⟩

theorem get?_stoppedPass {cc : Text} (hcc : cc ∈ loopCommands posixSpace twoCompilers) :
    ∃ u, CutFile u ∧ stoppedPass.2.get? (csvName cc) = some u := by
  rw [loopCommands_two] at hcc
  rw [stoppedPass, Dict.get?_cons, Dict.get?_cons]
  rcases List.mem_pair.mp hcc with rfl | rfl
  · exact ⟨_, (complete_sound 2 "clang++-22".toList).cut, if_pos rfl⟩
  · have hne : csvName "clang++-22".toList ≠ csvName "g++-15".toList := by decide
    rw [if_neg hne, if_pos rfl]
    exact ⟨_, cutFile_header, rfl⟩

/-- The second pass has the first compiler's file, and the second one's header. -/
theorem paths_stopped {c : Text × Text} (hc : c ∈ columns twoCompilers) :
    paths (runDirs stoppedRuns) c.2 ≠ [] ∧ ∀ f ∈ paths (runDirs stoppedRuns) c.2, CutFile f := by
  obtain ⟨cc, hcc, rfl⟩ := mem_columns hc
  rw [← loopCommands_eq_compilers_two] at hcc
  obtain ⟨u, hu, hlast⟩ := get?_stoppedPass hcc
  have hruns : ∀ e ∈ [soundBench.pass (loopCommands posixSpace twoCompilers) 1, stoppedPass],
      isRunName e.1 = true :=
    List.forall_mem_cons.mpr ⟨isRunName_runName 1, List.forall_mem_singleton.mpr rfl⟩
  have hperm : (paths (runDirs stoppedRuns) (csvName cc)).Perm [soundBench.csv 1 cc, u] := by
    refine (paths_perm hruns (csvName cc)).trans (List.Perm.of_eq ?_)
    have hfirst : (soundBench.pass (loopCommands posixSpace twoCompilers) 1).2.get? (csvName cc) =
        some (soundBench.csv 1 cc) := get?_pass hcc 1
    simp only [List.filterMap_cons, hfirst, hlast, List.filterMap_nil]
  refine ⟨fun hnil => ?_, fun f hf => ?_⟩
  · rw [hnil] at hperm
    exact absurd hperm.length_eq (by simp)
  · rcases List.mem_pair.mp (hperm.mem_iff.mp hf) with rfl | rfl
    · exact (complete_sound 1 cc).cut
    · exact hu

theorem prepare_stopped :
    ∃ x, prepare twoCompilers (besideZen stoppedRuns) [] = .ok (allSections, x) := by
  have hroot : Dataset.intel.root "results".toList = "results".toList := rfl
  have hzenRoot : Dataset.zen.root "results".toList = "results-zen".toList := rfl
  have hcut : CutColumns twoCompilers (besideZen stoppedRuns) "results".toList := by
    refine ⟨fun d => ?_, fun d c hc => ?_⟩
    · cases d with
      | intel =>
        intro hnil
        rw [hroot, besideZen_results] at hnil
        obtain ⟨c, hc, -⟩ := List.mem_map.mp labels_two.1
        exact (paths_stopped hc).1 (by rw [hnil]; rfl)
      | zen => exact (zen_beside stoppedRuns).1
    · cases d with
      | intel =>
        rw [hroot, besideZen_results]
        exact paths_stopped hc
      | zen =>
        have hdata := (measuredRuns_complete twoCompilers hundredEach Nat.one_pos Nat.one_pos).cutColumns
        have hzen : besideZen stoppedRuns "results-zen".toList =
            measuredRuns twoCompilers hundredEach 1 1 "results-zen".toList := if_neg (by decide)
        rw [hzenRoot, hzen]
        exact hdata.paths .zen c hc
  exact hcut.prepare rfl labels_two.1 labels_two.2

theorem matrix_interrupted_report_two : ∃ x,
    prepare twoCompilers (besideZen stoppedRuns) [] = .ok (allSections, x) ∧
      Built soundBench (compilers twoCompilers) ∧ ∃ done, done <+: passNumbers (some 2) ∧
        (x.passes = done.length ∨ x.passes = done.length + 1) ∧
        LoadsPasses soundBench twoCompilers (passNumbers (some 2)) done x := by
  obtain ⟨x, hx⟩ := prepare_stopped
  have hleft := onceCleared_stopped
  rw [loopCommands_eq_compilers_two] at hleft
  exact ⟨x, hx, matrix_interrupted_report loopCommands_eq_compilers_two plainCompilers_two
    untilCleared_two hleft (besideZen_results stoppedRuns) rfl hx⟩

def twoPasses : OutDir := others olderRuns ++
  (passNumbers (some 2)).map (soundBench.pass (loopCommands posixSpace twoCompilers))

theorem run_two_passes : run (matrixStep posixSpace twoCompilers soundBench) olderRuns
    (matrixSteps posixSpace twoCompilers soundBench (some 2) olderRuns) = some twoPasses :=
  (matrixSteps_run_iff plainCommands_two).mpr ⟨⟨⟨by decide +kernel, rfl, removable_olderRuns⟩,
    soundBench_built, fun _ _ => ⟨rfl, fun _ _ => rfl, fun _ _ => rfl⟩⟩, rfl⟩

end OMB
