import Mathlib
import OpenMethodBench.Proofs.CommandLine
import OpenMethodBench.Proofs.GateCoverage
import OpenMethodBench.Proofs.MatrixRun
import OpenMethodBench.Proofs.PairedDraws
import OpenMethodBench.Proofs.SessionFile
import OpenMethodBench.Spec.Lab

/-! `matrix.sh` over the programs themselves: what its passes measure is what its gate has
verified, and the files they leave. -/

namespace OMB

open Steps

/-! ## The command lines -/

section Parse

variable {w : ℕ} {argv : List Text} {i : ℕ} {cfg cfg' : Config}

theorem parseFrom_end (h : argv.length ≤ i) : parseFrom w argv i cfg = some (cfg.checked w) := by
  rw [parseFrom, if_neg (by omega)]

theorem parseFrom_set {arg v : Text} {set : Text → Config → Except Text Config}
    (harg : argv[i]? = some arg) (hv : argv[i + 1]? = some v) (hrequest : request w arg = .value set)
    (hset : set v cfg = .ok cfg') : parseFrom w argv i cfg = parseFrom w argv (i + 2) cfg' := by
  obtain ⟨hlt, -⟩ := List.getElem?_eq_some_iff.mp harg
  obtain ⟨hlt', -⟩ := List.getElem?_eq_some_iff.mp hv
  conv_lhs => rw [parseFrom]
  rw [if_pos hlt, harg, Option.bind_eq_bind, Option.bind_some, hrequest]
  dsimp only
  rw [if_neg (by omega), hv, Option.bind_some, hset]

theorem parseFrom_turn {arg : Text} {set : Config → Config} (harg : argv[i]? = some arg)
    (hrequest : request w arg = .switch set) (hset : set cfg = cfg') :
    parseFrom w argv i cfg = parseFrom w argv (i + 1) cfg' := by
  obtain ⟨hlt, -⟩ := List.getElem?_eq_some_iff.mp harg
  conv_lhs => rw [parseFrom]
  rw [if_pos hlt, harg, Option.bind_eq_bind, Option.bind_some, hrequest]
  dsimp only
  rw [hset]

end Parse

/-- What the gate is configured as. -/
def verifyConfig : Config := { verifyOnly := true }

/-- What a pass is configured as. -/
def measureConfig (w : ℕ) (cpu reps : Text) : Config :=
  { reps := toSize w reps, cpu := Strto.atoi w cpu, csv := true, warm := false, sweep := false }

theorem parse_verifyLine {w : ℕ} (hw : w = 32 ∨ w = 64) (cc : Text) :
    parse w (verifyLine cc) = some (.ok verifyConfig) := by
  have hverify : parseFrom w (verifyLine cc) 1 {} = parseFrom w (verifyLine cc) 2 verifyConfig :=
    parseFrom_turn rfl rfl rfl
  have hchecked : verifyConfig.checked w = .ok verifyConfig := by
    rcases hw with rfl | rfl <;> rfl
  rw [parse, hverify, parseFrom_end (Nat.le_refl 2), hchecked]

theorem parse_measureLine (w : ℕ) (cpu reps cc : Text) :
    parse w (measureLine cpu reps cc) = some ((measureConfig w cpu reps).checked w) := by
  have hcpu : parseFrom w (measureLine cpu reps cc) 1 {} =
      parseFrom w (measureLine cpu reps cc) 3 { cpu := Strto.atoi w cpu } :=
    parseFrom_set rfl rfl rfl rfl
  have hreps : parseFrom w (measureLine cpu reps cc) 3 { cpu := Strto.atoi w cpu } =
      parseFrom w (measureLine cpu reps cc) 5 { cpu := Strto.atoi w cpu, reps := toSize w reps } :=
    parseFrom_set rfl rfl rfl rfl
  have hmode : parseFrom w (measureLine cpu reps cc) 5
        { cpu := Strto.atoi w cpu, reps := toSize w reps } =
      parseFrom w (measureLine cpu reps cc) 7
        { cpu := Strto.atoi w cpu, reps := toSize w reps, warm := false, sweep := false } :=
    parseFrom_set rfl rfl rfl rfl
  have hcsv : parseFrom w (measureLine cpu reps cc) 7
        { cpu := Strto.atoi w cpu, reps := toSize w reps, warm := false, sweep := false } =
      parseFrom w (measureLine cpu reps cc) 8 (measureConfig w cpu reps) :=
    parseFrom_turn rfl rfl rfl
  rw [parse, hcpu, hreps, hmode, hcsv, parseFrom_end (Nat.le_refl 8)]

/-- May `CPU` and `REPS` be these words? -/
def accepts (w : ℕ) (cpu reps : Text) : Bool := toSize w reps != 0 && !decide (Strto.atoi w cpu < 0)

theorem checked_measureConfig {w : ℕ} (hw : w = 32 ∨ w = 64) (cpu reps : Text) :
    if accepts w cpu reps then (measureConfig w cpu reps).checked w = .ok (measureConfig w cpu reps)
    else ∃ message, (measureConfig w cpu reps).checked w = .error message := by
  have hsweep : ((64 : ℕ) == 0 || decide (64 > (2 ^ w - 1) / (1024 * 1024))) = false := by
    rcases hw with rfl | rfl <;> decide
  unfold Config.checked accepts
  have hreps : (measureConfig w cpu reps).reps = toSize w reps := rfl
  have hcpu : (measureConfig w cpu reps).cpu = Strto.atoi w cpu := rfl
  have hmb : (measureConfig w cpu reps).sweepMb = 64 := rfl
  have hobjects : (measureConfig w cpu reps).objects = 4096 := rfl
  rw [hreps, hcpu, hmb, hobjects, hsweep]
  by_cases hzero : toSize w reps = 0
  · simp [hzero]
  · by_cases hneg : Strto.atoi w cpu < 0
    · simp [hzero, hneg]
    · simp [hzero, hneg]

/-! ## The program -/

namespace Program

variable (b : Program ℚ) (sqrt : ℚ → ℚ)

/-- The statistics are those of the samples of the program's runs. -/
def Finds (cfg : Config) (st : Variant → CacheMode → Stats ℚ) : Prop :=
  ∃ _ : NeZero cfg.objects, ∀ rec ∈ session b.g (b.rig cfg.objects) cfg (sessionPlan cfg.modes)
      (Stand.build b.g cfg (b.Φ cfg.objects)) b.machine,
    (summarize (exact sqrt) b.w (rec.reps.map Rep.cycles)).map Summary.toStats =
      some (st rec.variant rec.mode)

/-- Nothing is wrong with the population of the default size and seed. -/
def Sound : Prop := b.mismatches {} = []

theorem rows_spec {cfg : Config} (h : cfg.objects ≠ 0) :
    ∃ st, b.rows sqrt cfg = some (rowsWith cfg.modes st) ∧ b.Finds sqrt cfg st := by
  have hne : NeZero cfg.objects := ⟨h⟩
  obtain ⟨st, hrows, hst⟩ := sessionRows_spec b.g (b.rig cfg.objects) (exact sqrt) b.w cfg
    (Stand.build b.g cfg (b.Φ cfg.objects)) b.machine
  refine ⟨st, ?_, hne, hst⟩
  rw [rows, dif_neg h]
  exact hrows

section Main

variable {argv : List Text} {cfg : Config}

theorem main_refused {message : Text} (hparse : parse b.w argv = some (.error message)) :
    b.main sqrt .decimal argv = some ⟨2, message, []⟩ := by
  rw [main, hparse]

variable (hparse : parse b.w argv = some (.ok cfg))
include hparse

theorem main_mismatched (h : b.mismatches cfg ≠ []) :
    b.main sqrt .decimal argv = some ⟨1, (b.mismatches cfg).flatMap Mismatch.text,
      b.warning cfg ++ "verification FAILED\n".toList⟩ := by
  have hempty : (b.mismatches cfg).isEmpty = false := by rwa [List.isEmpty_eq_false_iff]
  rw [main, hparse]
  dsimp only
  rw [hempty]
  rfl

theorem main_verified (h : b.mismatches cfg = []) (honly : cfg.verifyOnly = true) :
    b.main sqrt .decimal argv = some ⟨0, "verification passed\n".toList, b.warning cfg⟩ := by
  rw [main, hparse]
  dsimp only
  rw [h, honly]
  rfl

theorem main_measured (h : b.mismatches cfg = []) (honly : cfg.verifyOnly = false)
    (hobjects : cfg.objects ≠ 0) : ∃ st, b.Finds sqrt cfg st ∧ b.main sqrt .decimal argv =
      some ⟨0, b.report sqrt .decimal cfg (rowsWith cfg.modes st), b.warning cfg⟩ := by
  obtain ⟨st, hrows, hfinds⟩ := b.rows_spec sqrt hobjects
  refine ⟨st, hfinds, ?_⟩
  rw [main, hparse]
  dsimp only
  rw [h, honly, hrows]
  rfl

end Main

/-- The gate looks at the default population. -/
theorem main_verify (cc : Text) : ∃ e, b.main sqrt .decimal (verifyLine cc) = some e ∧
    (e.status = 0 ↔ b.Sound) := by
  have hparse := parse_verifyLine b.word cc
  by_cases hsound : b.mismatches verifyConfig = []
  · exact ⟨_, b.main_verified sqrt hparse hsound rfl, iff_of_true rfl hsound⟩
  · exact ⟨_, b.main_mismatched sqrt hparse hsound, iff_of_false Nat.one_ne_zero hsound⟩

/-- A run of a pass ends well if the words are accepted and the gate is passed, and then prints what
it has found. -/
theorem main_measure (cpu reps cc : Text) :
    ∃ e, b.main sqrt .decimal (measureLine cpu reps cc) = some e ∧
      (e.status = 0 ↔ accepts b.w cpu reps = true ∧ b.Sound) ∧
      (e.status = 0 → ∃ m : Measured, m.modes = [.clflush] ∧
        b.Finds sqrt (measureConfig b.w cpu reps) m.st ∧ e.out = csvText sqrt .decimal m.pass) := by
  have hchecked := checked_measureConfig b.word cpu reps
  have hparse := parse_measureLine b.w cpu reps cc
  cases haccepts : accepts b.w cpu reps with
  | false =>
    rw [haccepts, if_neg (by decide)] at hchecked
    obtain ⟨message, hmessage⟩ := hchecked
    rw [hmessage] at hparse
    exact ⟨_, b.main_refused sqrt hparse, by simp, by simp⟩
  | true =>
    rw [haccepts, if_pos rfl] at hchecked
    rw [hchecked] at hparse
    -- the population is the one that the gate looks at: neither word has a part in it
    by_cases hsound : b.mismatches (measureConfig b.w cpu reps) = []
    · have hobjects : (measureConfig b.w cpu reps).objects ≠ 0 := Nat.succ_ne_zero 4095
      obtain ⟨st, hfinds, hmain⟩ := b.main_measured sqrt hparse hsound rfl hobjects
      refine ⟨_, hmain, iff_of_true rfl ⟨rfl, hsound⟩, fun _ => ?_⟩
      exact ⟨⟨b.compiler, b.w, b.tscHz, [.clflush], by decide, st⟩, rfl, hfinds, rfl⟩
    · exact ⟨_, b.main_mismatched sqrt hparse hsound,
        iff_of_false Nat.one_ne_zero fun h => hsound h.2, by simp⟩

end Program

/-! ## The script -/

section Lab

variable {lab : Lab} {sqrt : ℚ → ℚ} {k : ℕ} {cc : Text}

theorem verifies_iff : (lab.bench sqrt).verifies cc = true ↔ (lab.program cc).Sound := by
  obtain ⟨e, he, hstatus⟩ := (lab.program cc).main_verify sqrt cc
  have hbench : (lab.bench sqrt).verifies cc = (e.status == 0) :=
    congrArg (Option.any fun e : Exit => e.status == 0) he
  rw [hbench, beq_iff_eq, hstatus]

/-- The words of the script, for the program of a compiler. -/
def Lab.Accepts (lab : Lab) (cc : Text) : Prop :=
  lab.starts = true ∧ accepts (lab.program cc).w lab.cpu lab.reps = true

/-- What a pass has of a compiler. -/
theorem measures_iff : ((lab.bench sqrt).measures k cc = true ↔
      lab.Accepts cc ∧ (lab.program cc).Sound) ∧
    ((lab.bench sqrt).measures k cc = true → ∃ m : Measured, m.modes = [.clflush] ∧
      (lab.inPass k cc).Finds sqrt (measureConfig (lab.program cc).w lab.cpu lab.reps) m.st ∧
      (lab.bench sqrt).csv k cc = csvText sqrt .decimal m.pass) := by
  cases hstarts : lab.starts with
  | false =>
    have hbench : (lab.bench sqrt).measures k cc = false := by
      simp [Lab.bench, Lab.measurement, hstarts]
    simp [hbench, Lab.Accepts, hstarts]
  | true =>
    obtain ⟨e, he, hstatus, hout⟩ := (lab.inPass k cc).main_measure sqrt lab.cpu lab.reps cc
    have hrun : lab.measurement sqrt k cc = some e := by rw [Lab.measurement, hstarts, if_pos rfl, he]
    have hbench : (lab.bench sqrt).measures k cc = (e.status == 0) :=
      congrArg (Option.any fun e : Exit => e.status == 0) hrun
    have hprints : (lab.bench sqrt).prints k cc = lab.writes e.out :=
      congrArg (fun r : Option Exit => r.elim [] fun e => lab.writes e.out) hrun
    have hcsv : (lab.bench sqrt).csv k cc = e.out := by
      rw [Bench.csv, hprints, lab.writes_flatten]
    rw [hbench, beq_iff_eq, hcsv, Lab.Accepts, hstarts]
    refine ⟨?_, hout⟩
    rw [hstatus, eq_self, true_and]
    rfl

theorem lab_measures_iff {ccs : List Text} : Measures (lab.bench sqrt) ccs k ↔
    (lab.disk.makes k = true ∧ ∀ cc ∈ ccs, lab.disk.opens k cc = true) ∧
      ∀ cc ∈ ccs, lab.Accepts cc ∧ (lab.program cc).Sound :=
  ⟨fun h => ⟨⟨h.makes, h.opens⟩, fun cc hcc => measures_iff.1.mp (h.measures cc hcc)⟩,
    fun ⟨hdisk, h⟩ => ⟨hdisk.1, hdisk.2, fun cc hcc => measures_iff.1.mpr (h cc hcc)⟩⟩

end Lab

def countingProgram : Program ℚ where
  w := 64
  word := Or.inr rfl
  compiler := .unknown
  numClasses := 8
  paths := honest
  S := ℕ
  g := countingRng
  Φ n := plainPtr (Fin n)
  H := ℕ
  rig n := countingRig n
  machine := 0
  tscHz := 2000000000
  pinned _ := true
  table _ _ := []

def countingLab : Lab where
  cpu := "2".toList
  reps := "6000".toList
  disk := writable
  installed _ := true
  builds _ := true
  program _ := countingProgram
  state k _ := k
  tscHz _ _ := 2000000000
  starts := true
  writes t := [t]
  writes_flatten _ := List.append_nil _

theorem countingProgram_sound : countingProgram.Sound := by
  have hverify : verify honest (Env.build countingRng 8 {}) = true := by
    refine (verify_iff_honoursAt countingRng 8 {} honest).mpr fun ij _ s => ⟨fun w => ?_, fun w => ?_⟩
    · simp only [honest, Paths.fn1, derived_leaf]
    · simp only [honest, Paths.fn2, derived_leaf]
  exact List.isEmpty_iff.mp hverify

theorem countingLab_accepts (cc : Text) : countingLab.Accepts cc := by
  have hwords : accepts 64 "2".toList "6000".toList = true := by decide +kernel
  exact ⟨rfl, hwords⟩

theorem clearable_two : Clearable posixSpace twoCompilers writable olderRuns :=
  ⟨by decide +kernel, rfl, removable_olderRuns⟩

end OMB
