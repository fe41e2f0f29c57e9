import Mathlib
import OpenMethodBench.Proofs.LabRun
import OpenMethodBench.Proofs.MatrixReport

/-! From the programs to the tables: what `report.py` takes its medians of, after `matrix.sh` has
run the programs. -/

namespace OMB

open Steps

section Lab

variable {lab : Lab} {sqrt : ℚ → ℚ} {ks : List ℕ} {conf : Text}

/-- What a program finds in each pass. -/
def Lab.Finds (lab : Lab) (sqrt : ℚ → ℚ) (k : ℕ) (cc : Text) (st : Variant → Stats ℚ) : Prop :=
  ∃ stats, (lab.inPass k cc).Finds sqrt (measureConfig (lab.program cc).w lab.cpu lab.reps) stats ∧
    st = fun V => stats V .clflush

/-- Every pass over every compiler has the file of a session. -/
theorem exists_sessions {ccs : List Text}
    (h : ∀ k ∈ ks, ∀ cc ∈ ccs, (lab.bench sqrt).measures k cc = true) :
    ∃ m : ℕ → Text → Measured, ∀ k ∈ ks, ∀ cc ∈ ccs, (m k cc).modes = [.clflush] ∧
      lab.Finds sqrt k cc (fun V => (m k cc).st V .clflush) ∧
      (lab.bench sqrt).csv k cc = csvText sqrt .decimal (m k cc).pass := by
  have hone : ∀ k cc, ∃ m : Measured, k ∈ ks → cc ∈ ccs → m.modes = [.clflush] ∧
      lab.Finds sqrt k cc (fun V => m.st V .clflush) ∧
      (lab.bench sqrt).csv k cc = csvText sqrt .decimal m.pass := by
    intro k cc
    by_cases hmem : k ∈ ks ∧ cc ∈ ccs
    · obtain ⟨m, hmodes, hfinds, hcsv⟩ := measures_iff.2 (h k hmem.1 cc hmem.2)
      exact ⟨m, fun _ _ => ⟨hmodes, ⟨m.st, hfinds, rfl⟩, hcsv⟩⟩
    · exact ⟨⟨.unknown, 0, 0, [], List.nodup_nil, fun _ _ => ⟨0, 0, 0, 0, 0, 0⟩⟩,
        fun hk hcc => absurd ⟨hk, hcc⟩ hmem⟩
  choose m hm using hone
  exact ⟨m, fun k hk cc hcc => hm k cc hk hcc⟩

end Lab

/-- What the program of the compiler so labelled finds in the passes. -/
def FoundBy (lab : Lab) (sqrt : ℚ → ℚ) (conf : Text) (ks : List ℕ) (name : Text)
    (st : ℕ → Variant → Stats ℚ) : Prop :=
  ∃ cc ∈ compilers conf, labelOf cc = name ∧ ∀ k ∈ ks, lab.Finds sqrt k cc (st k)

/-- The median of a figure over the passes, each as it is printed. -/
def medianOf (sqrt : ℚ → ℚ) (ks : List ℕ) (st : ℕ → Variant → Stats ℚ) (F : Figure) (V : Variant) : ℚ :=
  median (ks.map fun k => F.shown (figuresOf sqrt (st k) V))

/-- The medians that a table has under the keys of the variants. -/
def HasMedians (sqrt : ℚ → ℚ) (ks : List ℕ) (st : ℕ → Variant → Stats ℚ) (t : Table) : Prop :=
  ∀ V ∈ runVariants, ∀ F : Figure, med t (V.key .clflush) F.column = .ok (medianOf sqrt ks st F V)

/-- Each table of the main machine has the medians of what one compiler's program finds. -/
def ShowsPasses (lab : Lab) (sqrt : ℚ → ℚ) (conf : Text) (ks : List ℕ) (x : Inputs) : Prop :=
  ∀ s, List.Forall₂ (fun c t => c.1 = .intel → ∃ st, FoundBy lab sqrt conf ks c.2 st ∧
    HasMedians sqrt ks st t) (sectionColumns x.build s) (sectionTables x s)

section Ran

variable {lab : Lab} {sqrt : ℚ → ℚ} {space : Char → Bool} {conf : Text} {out t : OutDir}
  {runs : Option ℤ} {fs : FileSystem} {root : Text}
  (hconf : loopCommands space conf = compilers conf) (hplain : PlainCommands (compilers conf))
  (hrun : run (matrixStep space conf (lab.bench sqrt)) out
    (matrixSteps space conf (lab.bench sqrt) runs out) = some t)
include hconf hplain hrun

theorem built_of_run : Built (lab.bench sqrt) (compilers conf) ∧
    ∀ k ∈ passNumbers runs, ∀ cc ∈ compilers conf, (lab.bench sqrt).measures k cc = true := by
  obtain ⟨⟨-, hbuilt, hmeasured⟩, -⟩ := (matrixSteps_run_iff (hconf ▸ hplain)).mp hrun
  rw [hconf] at hbuilt hmeasured
  exact ⟨hbuilt, fun k hk => (hmeasured k hk).measures⟩

variable (hfs : fs root = runDirs t)
include hfs

theorem lab_dataset (hpasses : passNumbers runs ≠ [])
    (hzen : fs "results-zen".toList ≠ [] ∧ ∀ dir ∈ fs "results-zen".toList, ∀ c ∈ columns conf,
      ∃ t, dir c.2 = some t ∧ CompleteFile t) : CompleteDataset conf fs root := by
  obtain ⟨-, hmeasured⟩ := built_of_run hconf hplain hrun
  obtain ⟨m, hm⟩ := exists_sessions hmeasured
  refine dataset_of_run hconf hplain hrun hpasses hfs (fun k hk cc hcc => ?_) hzen
  obtain ⟨hmodes, -, htext⟩ := hm k hk cc hcc
  rw [htext]
  exact complete_session sqrt (m k cc) hmodes

theorem lab_shows (hpasses : passNumbers runs ≠ []) {args : List Text}
    {sections sections' : List Section} {x : Inputs} (hargs : parseArgs args = .ok (sections', root))
    (hx : prepare conf fs args = .ok (sections, x)) :
    ShowsPasses lab sqrt conf (passNumbers runs) x := by
  obtain ⟨-, hmeasured⟩ := built_of_run hconf hplain hrun
  obtain ⟨m, hm⟩ := exists_sessions hmeasured
  refine fun s => (loads_of_run hconf hplain hrun hfs hargs hx s).imp fun c t hct hintel => ?_
  obtain ⟨cc, hcc, hname, files, hfiles, hload⟩ := hct hintel
  have hsessions : files.Perm (((passNumbers runs).map fun k => m k cc).map fun m =>
      csvText sqrt .decimal m.pass) := by
    rw [List.map_map]
    refine hfiles.trans (List.Perm.of_eq (List.map_congr_left fun k hk => ?_))
    exact (hm k hk cc hcc).2.2
  refine ⟨fun k V => (m k cc).st V .clflush, ⟨cc, hcc, hname, fun k hk => (hm k hk cc hcc).2.1⟩,
    fun V hV F => ?_⟩
  have hmode : ∀ m' ∈ (passNumbers runs).map fun k => m k cc, CacheMode.clflush ∈ m'.modes := by
    intro m' hm'
    obtain ⟨k, hk, rfl⟩ := List.mem_map.mp hm'
    rw [(hm k hk cc hcc).1]
    exact List.mem_singleton_self _
  have hne : ((passNumbers runs).map fun k => m k cc) ≠ [] := by simpa using hpasses
  rw [med_sessions hsessions hne hmode hV hload F, List.map_map]
  rfl

end Ran

def countedPasses : OutDir := others olderRuns ++ (passNumbers (some 2)).map
  ((countingLab.bench Rat.sqrt).pass (loopCommands posixSpace twoCompilers))

theorem run_counted : run (matrixStep posixSpace twoCompilers (countingLab.bench Rat.sqrt)) olderRuns
    (matrixSteps posixSpace twoCompilers (countingLab.bench Rat.sqrt) (some 2) olderRuns) =
      some countedPasses := by
  refine (matrixSteps_run_iff plainCommands_two).mpr ⟨⟨clearable_two, ⟨?_, ?_, ?_⟩, fun k _ => ?_⟩, rfl⟩
  · exact fun _ _ => rfl
  · exact fun _ _ => rfl
  · exact fun cc _ => verifies_iff.mpr countingProgram_sound
  · exact lab_measures_iff.mpr ⟨⟨rfl, fun _ _ => rfl⟩,
      fun cc _ => ⟨countingLab_accepts cc, countingProgram_sound⟩⟩

end OMB
