import Mathlib
import OpenMethodBench.Proofs.Rendering
import OpenMethodBench.Proofs.StaleRuns

/-! What `matrix.sh` leaves of the results directory, wherever its run ends. -/

namespace OMB

open Steps

/-! ## Names -/

theorem isRunName_runName (k : ℕ) : isRunName (runName k) = true :=
  List.isPrefixOf_iff_prefix.mpr ⟨_, rfl⟩

theorem runName_injective : Function.Injective runName := by
  intro j k h
  have hdigits : Nat.toDigits 10 j = Nat.toDigits 10 k := List.append_cancel_left h
  have hread := congrArg Numeral.digits? hdigits
  simpa [Numeral.digits?_toDigits] using hread

theorem csvName_injective : Function.Injective csvName := fun _ _ h => List.append_cancel_right h

theorem isRunName_of_mem_others {out : OutDir} {name : Text} (h : name ∈ (others out).map Prod.fst) :
    isRunName name = false := by
  obtain ⟨e, he, rfl⟩ := List.mem_map.mp h
  simpa using List.of_mem_filter he

section Run

variable {space : Char → Bool} {conf : Text} {bench : Bench} {base : OutDir} {files : Dict Text Text}
  {k : ℕ} {cc : Text} {t : OutDir}

/-! ## One pass -/

theorem editPass_new (hbase : runName k ∉ base.map Prod.fst) (f : Dict Text Text → Dict Text Text) :
    editPass base k f = base ++ [(runName k, f [])] := by
  have hnone : base.get? (runName k) = none :=
    Dict.get?_eq_none_iff.mpr fun v hv => hbase (List.mem_map.mpr ⟨_, hv, rfl⟩)
  rw [editPass, hnone, Dict.set_of_not_mem hbase]
  rfl

theorem editPass_last (hbase : runName k ∉ base.map Prod.fst) (f : Dict Text Text → Dict Text Text) :
    editPass (base ++ [(runName k, files)]) k f = base ++ [(runName k, f files)] := by
  rw [editPass, Dict.get?_append_of_not_mem hbase, Dict.set_append_of_not_mem hbase]
  simp [Dict.get?_cons, Dict.set]

theorem contains_slash (hslash : '/' ∉ cc) : cc.contains '/' = false := by simpa using hslash

/-- The writes of a benchmark go to the end of its file. -/
theorem loop_prints (hbase : runName k ∉ base.map Prod.fst) (hfiles : csvName cc ∉ files.map Prod.fst)
    (hslash : '/' ∉ cc) (ts : List Text) :
    Loop (matrixStep space conf bench) (fun t => [.print k cc t]) (fun _ => True)
      (fun shown => base ++ [(runName k, files ++ [(csvName cc, shown.flatten)])]) ts where
  turn pre x post _ t := by
    have hstep : matrixStep space conf bench
        (base ++ [(runName k, files ++ [(csvName cc, pre.flatten)])]) (.print k cc x) =
        some (base ++ [(runName k, files ++ [(csvName cc, (pre ++ [x]).flatten)])]) := by
      rw [matrixStep, contains_slash hslash, editPass_last hbase, Dict.get?_append_of_not_mem hfiles,
        Dict.set_append_of_not_mem hfiles]
      simp [Dict.get?_cons, Dict.set]
    rw [run_cons_iff, hstep]
    simp [eq_comm]

/-- What the run is about to write, and what it has written of a file. -/
theorem redirect_eq_some_iff (hbase : runName k ∉ base.map Prod.fst)
    (hfiles : csvName cc ∉ files.map Prod.fst) (hslash : '/' ∉ cc) :
    matrixStep space conf bench (base ++ [(runName k, files)]) (.redirect k cc) = some t ↔
      bench.disk.opens k cc = true ∧ t = base ++ [(runName k, files ++ [(csvName cc, [])])] := by
  rw [matrixStep, contains_slash hslash, if_neg Bool.false_ne_true, orEnd_eq_some_iff,
    editPass_last hbase, Dict.set_of_not_mem hfiles]

theorem prints_run_iff (hbase : runName k ∉ base.map Prod.fst)
    (hfiles : csvName cc ∉ files.map Prod.fst) (hslash : '/' ∉ cc) :
    run (matrixStep space conf bench) (base ++ [(runName k, files ++ [(csvName cc, [])])])
        ((bench.prints k cc).map (.print k cc)) = some t ↔
      t = base ++ [(runName k, files ++ [(csvName cc, bench.csv k cc)])] := by
  rw [List.map_eq_flatMap]
  refine (loop_prints hbase hfiles hslash (bench.prints k cc)).run_iff.trans ?_
  simp [Bench.csv]

theorem exit_eq_some_iff {out : OutDir} :
    matrixStep space conf bench out (.exit k cc) = some t ↔ bench.measures k cc = true ∧ t = out :=
  orEnd_eq_some_iff

/-- One compiler of a pass. -/
theorem measureSteps_run_iff (hbase : runName k ∉ base.map Prod.fst)
    (hfiles : csvName cc ∉ files.map Prod.fst) (hslash : '/' ∉ cc) :
    run (matrixStep space conf bench) (base ++ [(runName k, files)]) (measureSteps bench k cc) = some t ↔
      (bench.disk.opens k cc = true ∧ bench.measures k cc = true) ∧
        t = base ++ [(runName k, files ++ [(csvName cc, bench.csv k cc)])] := by
  rw [measureSteps, run_cons_iff]
  constructor
  · rintro ⟨m, hm, h⟩
    obtain ⟨hopens, rfl⟩ := (redirect_eq_some_iff hbase hfiles hslash).mp hm
    obtain ⟨n, hn, h⟩ := run_append_iff.mp h
    obtain rfl := (prints_run_iff hbase hfiles hslash).mp hn
    obtain ⟨u, hu, h⟩ := run_cons_iff.mp h
    obtain ⟨hmeasures, rfl⟩ := exit_eq_some_iff.mp hu
    exact ⟨⟨hopens, hmeasures⟩, (Option.some.inj h).symm⟩
  · rintro ⟨⟨hopens, hmeasures⟩, rfl⟩
    refine ⟨_, (redirect_eq_some_iff hbase hfiles hslash).mpr ⟨hopens, rfl⟩, run_append_iff.mpr ⟨_,
      (prints_run_iff hbase hfiles hslash).mpr rfl,
      run_cons_iff.mpr ⟨_, exit_eq_some_iff.mpr ⟨hmeasures, rfl⟩, rfl⟩⟩⟩

/-- A file that is not all there. -/
theorem measureSteps_leaves (hbase : runName k ∉ base.map Prod.fst)
    (hfiles : csvName cc ∉ files.map Prod.fst) (hslash : '/' ∉ cc)
    (h : Leaves (matrixStep space conf bench) (base ++ [(runName k, files)]) (measureSteps bench k cc) t) :
    t = base ++ [(runName k, files)] ∨ ∃ shown, shown <+: bench.prints k cc ∧
      t = base ++ [(runName k, files ++ [(csvName cc, shown.flatten)])] := by
  rcases leaves_cons_iff.mp h with h | ⟨m, hm, h⟩
  · exact Or.inl h
  obtain ⟨-, rfl⟩ := (redirect_eq_some_iff hbase hfiles hslash).mp hm
  right
  rcases leaves_append_iff.mp h with h | ⟨n, hn, h⟩
  · exact (loop_prints hbase hfiles hslash (bench.prints k cc)).leaves_steps h
  · obtain rfl := (prints_run_iff hbase hfiles hslash).mp hn
    have hexit : ∀ a ∈ [MatrixStep.exit k cc], ∀ u, matrixStep space conf bench
        (base ++ [(runName k, files ++ [(csvName cc, bench.csv k cc)])]) a = some u ↔
        bench.measures k cc = true ∧
          u = base ++ [(runName k, files ++ [(csvName cc, bench.csv k cc)])] := by
      intro a ha u
      rw [List.mem_singleton.mp ha]
      exact exit_eq_some_iff
    exact ⟨bench.prints k cc, List.prefix_rfl, leaves_tests hexit h⟩

/-! ## The passes -/

variable {ccs : List Text}

theorem not_mem_csvNames {pre post : List Text} (hnodup : ccs.Nodup) (hccs : ccs = pre ++ cc :: post) :
    csvName cc ∉ (bench.pass pre k).2.map Prod.fst := by
  rw [hccs] at hnodup
  intro hmem
  obtain ⟨e, he, hname⟩ := List.mem_map.mp hmem
  obtain ⟨c, hc, rfl⟩ := List.mem_map.mp he
  obtain rfl : c = cc := csvName_injective hname
  exact (List.disjoint_of_nodup_append hnodup) hc List.mem_cons_self

theorem loop_compilers (hbase : runName k ∉ base.map Prod.fst) (hplain : PlainCommands ccs) :
    Loop (matrixStep space conf bench) (measureSteps bench k)
      (fun cc => bench.disk.opens k cc = true ∧ bench.measures k cc = true)
      (fun pre => base ++ [bench.pass pre k]) ccs where
  turn pre cc post hccs t := by
    have hslash : '/' ∉ cc := hplain.noSlash cc (by simp [hccs])
    refine (measureSteps_run_iff hbase (not_mem_csvNames hplain.nodup hccs) hslash).trans ?_
    simp [Bench.pass]

/-- A pass is made, its files are opened, and its benchmarks succeed. -/
structure Measures (bench : Bench) (ccs : List Text) (k : ℕ) : Prop where
  makes : bench.disk.makes k = true
  opens : ∀ cc ∈ ccs, bench.disk.opens k cc = true
  measures : ∀ cc ∈ ccs, bench.measures k cc = true

/-- What a run may get to of a pass: the files of some compilers, and a part of the next one's. -/
def PartPass (bench : Bench) (ccs : List Text) (k : ℕ) (files : Dict Text Text) : Prop :=
  ∃ pre post cut, ccs = pre ++ post ∧ files = (bench.pass pre k).2 ++ cut ∧
    (cut = [] ∨ ∃ cc post' shown, post = cc :: post' ∧ shown <+: bench.prints k cc ∧
      cut = [(csvName cc, shown.flatten)])

theorem mkdir_eq_some_iff (hbase : runName k ∉ base.map Prod.fst) :
    matrixStep space conf bench base (.mkdir k) = some t ↔
      bench.disk.makes k = true ∧ t = base ++ [bench.pass [] k] := by
  rw [matrixStep, editPass_new hbase, orEnd_eq_some_iff]
  rfl

theorem passSteps_run_iff (hbase : runName k ∉ base.map Prod.fst) (hplain : PlainCommands ccs) :
    run (matrixStep space conf bench) base (passSteps bench ccs k) = some t ↔
      Measures bench ccs k ∧ t = base ++ [bench.pass ccs k] := by
  have hloop : ∀ t, run (matrixStep space conf bench) (base ++ [bench.pass [] k])
      (ccs.flatMap (measureSteps bench k)) = some t ↔ _ :=
    fun _ => (loop_compilers hbase hplain).run_iff
  rw [passSteps, run_cons_iff]
  constructor
  · rintro ⟨m, hm, h⟩
    obtain ⟨hmakes, rfl⟩ := (mkdir_eq_some_iff hbase).mp hm
    obtain ⟨hall, ht⟩ := (hloop t).mp h
    exact ⟨⟨hmakes, fun cc hcc => (hall cc hcc).1, fun cc hcc => (hall cc hcc).2⟩, ht⟩
  · rintro ⟨hpass, ht⟩
    refine ⟨_, (mkdir_eq_some_iff hbase).mpr ⟨hpass.makes, rfl⟩, (hloop t).mpr ⟨fun cc hcc => ?_, ht⟩⟩
    exact ⟨hpass.opens cc hcc, hpass.measures cc hcc⟩

theorem passSteps_leaves (hbase : runName k ∉ base.map Prod.fst) (hplain : PlainCommands ccs)
    (h : Leaves (matrixStep space conf bench) base (passSteps bench ccs k) t) :
    t = base ∨ ∃ files, PartPass bench ccs k files ∧ t = base ++ [(runName k, files)] := by
  rcases leaves_cons_iff.mp h with h | ⟨m, hm, h⟩
  · exact Or.inl h
  obtain ⟨-, rfl⟩ := (mkdir_eq_some_iff hbase).mp hm
  right
  rcases (loop_compilers hbase hplain).leaves h with ⟨-, h⟩ | ⟨pre, cc, post, hccs, -, h⟩
  · exact ⟨_, ⟨ccs, [], [], by simp, (List.append_nil _).symm, Or.inl rfl⟩, h⟩
  have hslash : '/' ∉ cc := hplain.noSlash cc (by simp [hccs])
  rcases measureSteps_leaves hbase (not_mem_csvNames hplain.nodup hccs) hslash h with
    h | ⟨shown, hshown, h⟩
  · exact ⟨_, ⟨pre, cc :: post, [], hccs, by simp, Or.inl rfl⟩, h⟩
  · exact ⟨_, ⟨pre, cc :: post, _, hccs, rfl, Or.inr ⟨cc, post, shown, rfl, hshown, rfl⟩⟩, h⟩

/-! ## The script -/

variable {out : OutDir}

theorem not_mem_passes {ks pre post : List ℕ} (hks : ks.Nodup) (hpre : ks = pre ++ k :: post) :
    runName k ∉ (others out ++ pre.map (bench.pass ccs)).map Prod.fst := by
  rw [List.map_append, List.mem_append, not_or]
  refine ⟨fun h => absurd (isRunName_of_mem_others h) (by simp [isRunName_runName]), fun h => ?_⟩
  obtain ⟨e, he, hname⟩ := List.mem_map.mp h
  obtain ⟨j, hj, rfl⟩ := List.mem_map.mp he
  obtain rfl : j = k := runName_injective hname
  rw [hpre] at hks
  exact (List.disjoint_of_nodup_append hks) hj List.mem_cons_self

theorem loop_passes {ks : List ℕ} (hks : ks.Nodup) (hplain : PlainCommands ccs) :
    Loop (matrixStep space conf bench) (passSteps bench ccs) (Measures bench ccs)
      (fun pre => others out ++ pre.map (bench.pass ccs)) ks where
  turn pre k post hpre t := by
    refine (passSteps_run_iff (not_mem_passes hks hpre) hplain).trans ?_
    simp

/-- What a test of the script asks for. -/
def Succeeds (bench : Bench) : MatrixStep → Prop
  | .locate cc => bench.installed cc = true
  | .build cc => bench.builds cc = true
  | .verify cc => bench.verifies cc = true
  | _ => True

theorem located_iff : ∀ a ∈ ccs.flatMap (fun cc => [MatrixStep.locate cc]), ∀ t,
    matrixStep space conf bench out a = some t ↔ Succeeds bench a ∧ t = out := by
  intro a ha t
  obtain ⟨cc, -, ha⟩ := List.mem_flatMap.mp ha
  rw [List.mem_singleton.mp ha]
  exact orEnd_eq_some_iff

theorem built_iff : ∀ a ∈ ccs.flatMap (fun cc => [MatrixStep.build cc, .verify cc]), ∀ t,
    matrixStep space conf bench out a = some t ↔ Succeeds bench a ∧ t = out := by
  intro a ha t
  obtain ⟨cc, -, ha⟩ := List.mem_flatMap.mp ha
  rcases List.mem_pair.mp ha with rfl | rfl
  · exact orEnd_eq_some_iff
  · exact orEnd_eq_some_iff

/-- The compilers are there, they build, and what they build verifies. -/
structure Built (bench : Bench) (ccs : List Text) : Prop where
  installed : ∀ cc ∈ ccs, bench.installed cc = true
  builds : ∀ cc ∈ ccs, bench.builds cc = true
  verifies : ∀ cc ∈ ccs, bench.verifies cc = true

theorem built_iff_succeeds : Built bench ccs ↔
    (∀ a ∈ ccs.flatMap (fun cc => [MatrixStep.locate cc]), Succeeds bench a) ∧
      ∀ a ∈ ccs.flatMap (fun cc => [MatrixStep.build cc, .verify cc]), Succeeds bench a := by
  simp only [List.forall_mem_flatMap, List.forall_mem_cons, Succeeds]
  refine ⟨fun h => ⟨fun cc hcc => ⟨h.installed cc hcc, by simp⟩, fun cc hcc =>
    ⟨h.builds cc hcc, h.verifies cc hcc, by simp⟩⟩, fun h => ⟨fun cc hcc => (h.1 cc hcc).1,
    fun cc hcc => (h.2 cc hcc).1, fun cc hcc => (h.2 cc hcc).2.1⟩⟩

theorem passNumbers_nodup (runs : Option ℤ) : (passNumbers runs).Nodup := List.nodup_range'

/-- What may stand next to the passes that are done: nothing, or a part of the next one. -/
def Begun (bench : Bench) (ccs : List Text) (ks done : List ℕ) (begun : OutDir) : Prop :=
  begun = [] ∨ ∃ k files, done ++ [k] <+: ks ∧ PartPass bench ccs k files ∧ begun = [(runName k, files)]

/-- What a run leaves that has cleared the directory: no run from before it, the passes that it
has done, and what it has begun; it gets to the passes only if all of the compilers build and
verify. -/
structure Cleared (bench : Bench) (ccs : List Text) (ks : List ℕ) (out t : OutDir) (done : List ℕ)
    (begun : OutDir) : Prop where
  upto : done <+: ks
  entries : t = others out ++ (done.map (bench.pass ccs) ++ begun)
  next : Begun bench ccs ks done begun
  built : done ≠ [] ∨ begun ≠ [] → Built bench ccs

section Passes

variable {ks : List ℕ} (hks : ks.Nodup) (hplain : PlainCommands ccs)
include hks hplain

theorem passes_run_iff :
    run (matrixStep space conf bench) (others out) (ks.flatMap (passSteps bench ccs)) = some t ↔
      (∀ k ∈ ks, Measures bench ccs k) ∧ t = others out ++ ks.map (bench.pass ccs) := by
  have h : run (matrixStep space conf bench) (others out ++ [].map (bench.pass ccs))
      (ks.flatMap (passSteps bench ccs)) = some t ↔ _ := (loop_passes hks hplain).run_iff
  rwa [List.map_nil, List.append_nil] at h

theorem passes_leaves
    (h : Leaves (matrixStep space conf bench) (others out) (ks.flatMap (passSteps bench ccs)) t) :
    ∃ done begun, done <+: ks ∧ t = others out ++ (done.map (bench.pass ccs) ++ begun) ∧
      Begun bench ccs ks done begun := by
  have hloop : Leaves (matrixStep space conf bench) (others out ++ [].map (bench.pass ccs))
      (ks.flatMap (passSteps bench ccs)) t := by rwa [List.map_nil, List.append_nil]
  rcases (loop_passes hks hplain).leaves hloop with ⟨-, h⟩ | ⟨done, k, rest, hsplit, -, h⟩
  · exact ⟨ks, [], List.prefix_rfl, by simpa using h, Or.inl rfl⟩
  have hdone : done <+: ks := ⟨k :: rest, hsplit.symm⟩
  have hnext : done ++ [k] <+: ks := ⟨rest, by rw [hsplit, List.append_assoc, List.singleton_append]⟩
  rcases passSteps_leaves (not_mem_passes hks hsplit) hplain h with h | ⟨files, hfiles, h⟩
  · exact ⟨done, [], hdone, by simpa using h, Or.inl rfl⟩
  · exact ⟨done, _, hdone, by simpa using h, Or.inr ⟨k, files, hnext, hfiles, rfl⟩⟩

theorem onceCleared_run_iff :
    run (matrixStep space conf bench) (others out) (onceCleared bench ccs ks) = some t ↔
      (∀ a ∈ ccs.flatMap (fun cc => [MatrixStep.build cc, .verify cc]), Succeeds bench a) ∧
        (∀ k ∈ ks, Measures bench ccs k) ∧ t = others out ++ ks.map (bench.pass ccs) := by
  rw [onceCleared, ← passes_run_iff hks hplain, run_append_iff]
  constructor
  · rintro ⟨m, hm, h⟩
    obtain ⟨hbuilt, rfl⟩ := (run_tests_iff built_iff).mp hm
    exact ⟨hbuilt, h⟩
  · rintro ⟨hbuilt, h⟩
    exact ⟨others out, (run_tests_iff built_iff).mpr ⟨hbuilt, rfl⟩, h⟩

theorem onceCleared_leaves (hlocated : ∀ a ∈ ccs.flatMap (fun cc => [MatrixStep.locate cc]), Succeeds bench a)
    (h : Leaves (matrixStep space conf bench) (others out) (onceCleared bench ccs ks) t) :
    ∃ done begun, Cleared bench ccs ks out t done begun := by
  rcases leaves_append_iff.mp h with h | ⟨b, hb, h⟩
  · exact ⟨[], [], List.nil_prefix, by simpa using leaves_tests built_iff h, Or.inl rfl, by simp⟩
  · obtain ⟨hbuilt, hb⟩ := (run_tests_iff built_iff).mp hb
    rw [hb] at h
    obtain ⟨done, begun, hdone, ht, hbegun⟩ := passes_leaves hks hplain h
    exact ⟨done, begun, hdone, ht, hbegun, fun _ => built_iff_succeeds.mpr ⟨hlocated, hbuilt⟩⟩

end Passes

/-! ## The script -/

theorem list_eq_some_iff : matrixStep space conf bench out .list = some t ↔
    anyListed space conf = true ∧ t = out := orEnd_eq_some_iff

theorem outdir_eq_some_iff : matrixStep space conf bench out .outdir = some t ↔
    bench.disk.outdir = true ∧ t = out := orEnd_eq_some_iff

/-- The script gets past `rm`. -/
theorem untilCleared_run_iff :
    run (matrixStep space conf bench) out (untilCleared space conf out) = some t ↔
      (anyListed space conf = true ∧ (∀ a ∈ (loopCommands space conf).flatMap
        (fun cc => [MatrixStep.locate cc]), Succeeds bench a) ∧ bench.disk.outdir = true ∧
        Removable bench.disk out) ∧ t = others out := by
  rw [untilCleared, run_cons_iff]
  constructor
  · rintro ⟨l, hl, h⟩
    obtain ⟨hlisted, hl⟩ := list_eq_some_iff.mp hl
    rw [hl] at h
    obtain ⟨m, hm, h⟩ := run_append_iff.mp h
    obtain ⟨hlocated, hm⟩ := (run_tests_iff located_iff).mp hm
    rw [hm] at h
    obtain ⟨d, hd, h⟩ := run_cons_iff.mp h
    obtain ⟨houtdir, hd⟩ := outdir_eq_some_iff.mp hd
    rw [hd] at h
    obtain ⟨hremovable, ht⟩ := clearSteps_run_iff.mp h
    exact ⟨⟨hlisted, hlocated, houtdir, hremovable⟩, ht⟩
  · rintro ⟨⟨hlisted, hlocated, houtdir, hremovable⟩, ht⟩
    refine ⟨out, list_eq_some_iff.mpr ⟨hlisted, rfl⟩, run_append_iff.mpr ⟨out,
      (run_tests_iff located_iff).mpr ⟨hlocated, rfl⟩, ?_⟩⟩
    exact run_cons_iff.mpr ⟨out, outdir_eq_some_iff.mpr ⟨houtdir, rfl⟩,
      clearSteps_run_iff.mpr ⟨hremovable, ht⟩⟩

/-- Until then there is nothing of its own. -/
theorem untilCleared_leaves
    (h : Leaves (matrixStep space conf bench) out (untilCleared space conf out) t) : Removing out t := by
  rcases leaves_cons_iff.mp h with rfl | ⟨l, hl, h⟩
  · exact removing_refl t
  rw [(list_eq_some_iff.mp hl).2] at h
  rcases leaves_append_iff.mp h with h | ⟨m, hm, h⟩
  · rw [leaves_tests located_iff h]
    exact removing_refl out
  rw [((run_tests_iff located_iff).mp hm).2] at h
  rcases leaves_cons_iff.mp h with rfl | ⟨d, hd, h⟩
  · exact removing_refl t
  · rw [(outdir_eq_some_iff.mp hd).2] at h
    exact clearSteps_leaves h

end Run

/-- What the script needs until `rm` has ended, but for its compilers. -/
structure Clearable (space : Char → Bool) (conf : Text) (disk : Storage) (out : OutDir) : Prop where
  listed : anyListed space conf = true
  outdir : disk.outdir = true
  removable : Removable disk out

theorem matrixSteps_run_iff {space : Char → Bool} {conf : Text} {bench : Bench} {out t : OutDir}
    {runs : Option ℤ} (hplain : PlainCommands (loopCommands space conf)) :
    run (matrixStep space conf bench) out (matrixSteps space conf bench runs out) = some t ↔
      (Clearable space conf bench.disk out ∧ Built bench (loopCommands space conf) ∧
        ∀ k ∈ passNumbers runs, Measures bench (loopCommands space conf) k) ∧
      t = others out ++ (passNumbers runs).map (bench.pass (loopCommands space conf)) := by
  rw [matrixSteps, run_append_iff, built_iff_succeeds]
  have honce : run (matrixStep space conf bench) (others out)
      (onceCleared bench (loopCommands space conf) (passNumbers runs)) = some t ↔ _ :=
    onceCleared_run_iff (passNumbers_nodup runs) hplain
  constructor
  · rintro ⟨m, hm, h⟩
    obtain ⟨⟨hlisted, hlocated, houtdir, hremovable⟩, rfl⟩ := untilCleared_run_iff.mp hm
    obtain ⟨hbuilt, hmeasures, ht⟩ := honce.mp h
    exact ⟨⟨⟨hlisted, houtdir, hremovable⟩, ⟨hlocated, hbuilt⟩, hmeasures⟩, ht⟩
  · rintro ⟨⟨hclear, ⟨hlocated, hbuilt⟩, hmeasures⟩, ht⟩
    exact ⟨others out, untilCleared_run_iff.mpr
      ⟨⟨hclear.listed, hlocated, hclear.outdir, hclear.removable⟩, rfl⟩, honce.mpr ⟨hbuilt, hmeasures, ht⟩⟩

/-- The script ends well exactly when no step of it fails, and then leaves the passes it was asked
for in place of what runs before it had left. -/
theorem matrix_completes_iff {space : Char → Bool} {conf : Text} {bench : Bench} {out t : OutDir}
    {runs : Option ℤ} (hplain : PlainCommands (loopCommands space conf)) :
    run (matrixStep space conf bench) out (matrixSteps space conf bench runs out) = some t ↔
      anyListed space conf = true ∧ bench.disk.outdir = true ∧ Removable bench.disk out ∧
        Built bench (loopCommands space conf) ∧
        (∀ k ∈ passNumbers runs, Measures bench (loopCommands space conf) k) ∧
        t = others out ++ (passNumbers runs).map (bench.pass (loopCommands space conf)) := by
  rw [matrixSteps_run_iff hplain]
  constructor
  · rintro ⟨⟨hclear, hbuilt, hmeasures⟩, ht⟩
    exact ⟨hclear.listed, hclear.outdir, hclear.removable, hbuilt, hmeasures, ht⟩
  · rintro ⟨hlisted, houtdir, hremovable, hbuilt, hmeasures, ht⟩
    exact ⟨⟨⟨hlisted, houtdir, hremovable⟩, hbuilt, hmeasures⟩, ht⟩

/-! Two compilers, over the runs of another time. -/

/-- A disk that refuses nothing. -/
def writable : Storage := ⟨true, fun _ _ => true, fun _ => true, fun _ => true, fun _ _ => true, fun _ => some⟩

/-- A machine on which all goes well; the header goes out on its own. -/
def soundBench : Bench :=
  ⟨writable, fun _ => true, fun _ => true, fun _ => true,
    fun _ _ => [csvHeader, (measuredFile hundredEach).drop csvHeader.length], fun _ _ => true⟩

def olderRuns : OutDir :=
  [("run1".toList, []), ("notes".toList, []), ("run7".toList, [("g++-15.csv".toList, [])])]

theorem loopCommands_two :
    loopCommands posixSpace twoCompilers = ["clang++-22".toList, "g++-15".toList] := by
  decide +kernel

theorem plainCommands_two : PlainCommands (loopCommands posixSpace twoCompilers) := by
  rw [loopCommands_two]
  exact ⟨by decide, by decide⟩

theorem removable_olderRuns : Removable writable olderRuns := fun _ _ _ => ⟨rfl, fun _ _ => rfl⟩

theorem soundBench_built : Built soundBench (loopCommands posixSpace twoCompilers) :=
  ⟨fun _ _ => rfl, fun _ _ => rfl, fun _ _ => rfl⟩

theorem matrix_completes_two :
    run (matrixStep posixSpace twoCompilers soundBench) olderRuns
        (matrixSteps posixSpace twoCompilers soundBench (some 2) olderRuns) =
      some (others olderRuns ++
        (passNumbers (some 2)).map (soundBench.pass (loopCommands posixSpace twoCompilers))) :=
  (matrix_completes_iff plainCommands_two).mpr ⟨by decide +kernel, rfl, removable_olderRuns,
    soundBench_built, fun _ _ => ⟨rfl, fun _ _ => rfl, fun _ _ => rfl⟩, rfl⟩

theorem matrix_left {space : Char → Bool} {conf : Text} {bench : Bench} {out t : OutDir}
    {runs : Option ℤ} (hplain : PlainCommands (loopCommands space conf))
    (h : Leaves (matrixStep space conf bench) out (matrixSteps space conf bench runs out) t) :
    Removing out t ∨ ∃ done begun,
      Cleared bench (loopCommands space conf) (passNumbers runs) out t done begun := by
  rcases leaves_append_iff.mp h with h | ⟨m, hm, h⟩
  · exact Or.inl (untilCleared_leaves h)
  · obtain ⟨⟨-, hlocated, -⟩, hm⟩ := untilCleared_run_iff.mp hm
    rw [hm] at h
    exact Or.inr (onceCleared_leaves (passNumbers_nodup runs) hplain hlocated h)

section Entries

variable {bench : Bench} {ccs : List Text} {ks done : List ℕ} {out t : OutDir} {begun : OutDir}

/-- The files of a pass, all there or not. -/
theorem PartPass.files {k : ℕ} {files : Dict Text Text} (h : PartPass bench ccs k files) :
    ∀ f ∈ files, ∃ cc ∈ ccs, f.1 = csvName cc ∧ f.2 <+: bench.csv k cc := by
  obtain ⟨pre, post, cut, rfl, rfl, hcut⟩ := h
  intro f hf
  rcases List.mem_append.mp hf with hf | hf
  · obtain ⟨cc, hcc, rfl⟩ := List.mem_map.mp hf
    exact ⟨cc, List.mem_append_left post hcc, rfl, List.prefix_rfl⟩
  · rcases hcut with rfl | ⟨cc, post', shown, rfl, ⟨rest, hrest⟩, rfl⟩
    · exact absurd hf List.not_mem_nil
    · rw [List.mem_singleton.mp hf]
      refine ⟨cc, by simp, rfl, rest.flatten, ?_⟩
      rw [Bench.csv, ← hrest, List.flatten_append]

theorem partPass_pass (k : ℕ) : PartPass bench ccs k (bench.pass ccs k).2 :=
  ⟨ccs, [], [], by simp, by simp, Or.inl rfl⟩

theorem Cleared.entry (h : Cleared bench ccs ks out t done begun) :
    ∀ e ∈ t, isRunName e.1 = true → Built bench ccs ∧ ∃ k, e.1 = runName k ∧
      PartPass bench ccs k e.2 ∧ ∃ before, before ++ [k] <+: ks ∧ before <+: done := by
  intro e he hrun
  rw [h.entries] at he
  rcases List.mem_append.mp he with he | he
  · rw [isRunName_of_mem_others (List.mem_map_of_mem he)] at hrun
    exact absurd hrun (by decide)
  rcases List.mem_append.mp he with he | he
  · obtain ⟨k, hk, rfl⟩ := List.mem_map.mp he
    obtain ⟨before, after, rfl⟩ := List.append_of_mem hk
    refine ⟨h.built (Or.inl (by simp)), k, rfl, partPass_pass k, before, ?_, List.prefix_append _ _⟩
    refine List.IsPrefix.trans ⟨after, ?_⟩ h.upto
    rw [List.append_assoc, List.singleton_append]
  · rcases h.next with rfl | ⟨k, files, hk, hfiles, rfl⟩
    · exact absurd he List.not_mem_nil
    · rw [List.mem_singleton.mp he]
      exact ⟨h.built (Or.inr (by simp)), k, rfl, hfiles, done, hk, List.prefix_rfl⟩

theorem get?_of_others_eq (h : others t = others out) {name : Text} (hname : isRunName name = false) :
    t.get? name = out.get? name := by
  have hget : ∀ d : OutDir, (others d).get? name = d.get? name := by
    intro d
    rw [others, Dict.get?_filter fun n => !isRunName n, hname]
    cases d.get? name <;> rfl
  rw [← hget t, ← hget out, h]

theorem Cleared.get?_others (h : Cleared bench ccs ks out t done begun) {name : Text}
    (hname : isRunName name = false) : t.get? name = out.get? name := by
  have hnot : name ∉ (done.map (bench.pass ccs) ++ begun).map Prod.fst := by
    intro hmem
    obtain ⟨e, he, rfl⟩ := List.mem_map.mp hmem
    rcases List.mem_append.mp he with he | he
    · obtain ⟨k, -, rfl⟩ := List.mem_map.mp he
      exact absurd hname (by simp [Bench.pass, isRunName_runName])
    · rcases h.next with rfl | ⟨k, files, -, -, rfl⟩
      · exact absurd he List.not_mem_nil
      · rw [List.mem_singleton.mp he, isRunName_runName] at hname
        exact absurd hname (by decide)
  have hnone : Dict.get? (done.map (bench.pass ccs) ++ begun) name = none :=
    Dict.get?_eq_none_iff.mpr fun v hv => hnot (List.mem_map.mpr ⟨_, hv, rfl⟩)
  rw [h.entries, Dict.get?_append, hnone, others, Dict.get?_filter fun n => !isRunName n, hname]
  cases out.get? name <;> rfl

/-- The passes before one that is begun are complete. -/
theorem Cleared.get?_done (h : Cleared bench ccs ks out t done begun) {k : ℕ} (hk : k ∈ done) :
    t.get? (runName k) = some (bench.pass ccs k).2 := by
  have hpass : Dict.get? (done.map (bench.pass ccs)) (runName k) = some (bench.pass ccs k).2 :=
    Dict.get?_map runName_injective (fun j => (bench.pass ccs j).2) hk
  have hnot : runName k ∉ (others out).map Prod.fst := fun hmem =>
    absurd (isRunName_of_mem_others hmem) (by simp [isRunName_runName])
  rw [h.entries, Dict.get?_append_of_not_mem hnot, Dict.get?_append, hpass]
  rfl

end Entries

theorem mem_of_before {runs : Option ℤ} {before : List ℕ} {j k : ℕ}
    (h : before ++ [k] <+: passNumbers runs) (hj : j ∈ passNumbers runs) (hjk : j < k) : j ∈ before := by
  obtain ⟨rest, hrest⟩ := h
  have hsorted : (passNumbers runs).Pairwise (· < ·) := List.pairwise_lt_range'
  rw [← hrest] at hj hsorted
  rw [List.append_assoc] at hj hsorted
  rcases List.mem_append.mp hj with hj | hj
  · exact hj
  · have hk := (List.pairwise_append.mp hsorted).2.1
    rw [List.singleton_append, List.pairwise_cons] at hk
    rcases List.mem_cons.mp hj with rfl | hj
    · exact absurd hjk (lt_irrefl j)
    · exact absurd (hk.1 j hj) (by omega)

/-- Wherever the script ends, whatever is no run is as it was. The runs are what is left of those
from before it, or they are its own and come from compilers that build and verify; of a run that is
begun, every file is what its benchmark had printed so far, and the runs before it are complete. -/
theorem matrix_interrupted {space : Char → Bool} {conf : Text} {bench : Bench} {out t : OutDir}
    {runs : Option ℤ} (hplain : PlainCommands (loopCommands space conf))
    (h : Leaves (matrixStep space conf bench) out (matrixSteps space conf bench runs out) t) :
    (∀ name, isRunName name = false → t.get? name = out.get? name) ∧
      (Remnant out t ∨ ∀ e ∈ t, isRunName e.1 = true →
        Built bench (loopCommands space conf) ∧ ∃ k ∈ passNumbers runs, e.1 = runName k ∧
          (∀ f ∈ e.2, ∃ cc ∈ loopCommands space conf, f.1 = csvName cc ∧ f.2 <+: bench.csv k cc) ∧
          ∀ j ∈ passNumbers runs, j < k →
            t.get? (runName j) = some (bench.pass (loopCommands space conf) j).2) := by
  rcases matrix_left hplain h with hremoving | ⟨done, begun, hcleared⟩
  · exact ⟨fun _ hname => get?_of_others_eq hremoving.others_eq hname, Or.inl hremoving.remnant⟩
  refine ⟨fun name hname => hcleared.get?_others hname, Or.inr fun e he hrun => ?_⟩
  obtain ⟨hbuilt, k, hname, hpart, before, hbefore, hdone⟩ := hcleared.entry e he hrun
  refine ⟨hbuilt, k, hbefore.subset (by simp), hname, hpart.files, fun j hj hjk => ?_⟩
  exact hcleared.get?_done (hdone.subset (mem_of_before hbefore hj hjk))

/-! The two compilers again: the second pass has come to the second one's header. -/

def stoppedPass : Text × Dict Text Text :=
  ("run2".toList, [(csvName "clang++-22".toList, soundBench.csv 2 "clang++-22".toList),
    (csvName "g++-15".toList, csvHeader)])

def stoppedRuns : OutDir :=
  others olderRuns ++ [soundBench.pass (loopCommands posixSpace twoCompilers) 1, stoppedPass]

theorem untilCleared_two : run (matrixStep posixSpace twoCompilers soundBench) olderRuns
    (untilCleared posixSpace twoCompilers olderRuns) = some (others olderRuns) :=
  untilCleared_run_iff.mpr ⟨⟨by decide +kernel, (built_iff_succeeds.mp soundBench_built).1, rfl,
    removable_olderRuns⟩, rfl⟩

theorem onceCleared_stopped : Leaves (matrixStep posixSpace twoCompilers soundBench) (others olderRuns)
    (onceCleared soundBench (loopCommands posixSpace twoCompilers) (passNumbers (some 2))) stoppedRuns := by
  have hplain := plainCommands_two
  have hfirst : runName 1 ∉ (others olderRuns).map Prod.fst := by decide
  have hdone : runName 2 ∉ (others olderRuns ++
      [1].map (soundBench.pass (loopCommands posixSpace twoCompilers))).map Prod.fst :=
    not_mem_passes (passNumbers_nodup (some 2)) rfl
  have hsecond : runName 2 ∉ (others olderRuns ++
      [soundBench.pass (loopCommands posixSpace twoCompilers) 1]).map Prod.fst := hdone
  refine leaves_append_iff.mpr (Or.inr ⟨others olderRuns,
    (run_tests_iff built_iff).mpr ⟨(built_iff_succeeds.mp soundBench_built).2, rfl⟩, ?_⟩)
  refine leaves_append_iff.mpr (Or.inr ⟨_, (passSteps_run_iff hfirst hplain).mpr
    ⟨⟨rfl, fun _ _ => rfl, fun _ _ => rfl⟩, rfl⟩, ?_⟩)
  refine leaves_append_iff.mpr (Or.inl (.next ((mkdir_eq_some_iff hsecond).mpr ⟨rfl, rfl⟩) ?_))
  rw [loopCommands_two] at hsecond hplain ⊢
  have hclang : '/' ∉ "clang++-22".toList := hplain.noSlash _ (by simp)
  have hgcc : '/' ∉ "g++-15".toList := hplain.noSlash _ (by simp)
  refine leaves_append_iff.mpr (Or.inr ⟨_, (measureSteps_run_iff hsecond (by decide) hclang).mpr
    ⟨⟨rfl, rfl⟩, rfl⟩, leaves_append_iff.mpr (Or.inl ?_)⟩)
  refine .next ((redirect_eq_some_iff hsecond (by decide) hgcc).mpr ⟨rfl, rfl⟩) ?_
  have hnew : csvName "g++-15".toList ∉ ([(csvName "clang++-22".toList,
      soundBench.csv 2 "clang++-22".toList)] : Dict Text Text).map Prod.fst := by decide
  have hprints : Loop (matrixStep posixSpace twoCompilers soundBench) _ _ _
      (soundBench.prints 2 "g++-15".toList) := loop_prints hsecond hnew hgcc _
  have hheader := (hprints.turn [] csvHeader _ rfl _).mpr ⟨trivial, rfl⟩
  exact leaves_append_iff.mpr (Or.inl (leaves_append_iff.mpr (Or.inl (leaves_of_run hheader))))

theorem matrix_interrupted_two :
    Leaves (matrixStep posixSpace twoCompilers soundBench) olderRuns
        (matrixSteps posixSpace twoCompilers soundBench (some 2) olderRuns) stoppedRuns ∧
      ((∀ name, isRunName name = false → stoppedRuns.get? name = olderRuns.get? name) ∧
        (Remnant olderRuns stoppedRuns ∨ ∀ e ∈ stoppedRuns, isRunName e.1 = true →
          Built soundBench (loopCommands posixSpace twoCompilers) ∧ ∃ k ∈ passNumbers (some 2),
            e.1 = runName k ∧ (∀ f ∈ e.2, ∃ cc ∈ loopCommands posixSpace twoCompilers,
              f.1 = csvName cc ∧ f.2 <+: soundBench.csv k cc) ∧
            ∀ j ∈ passNumbers (some 2), j < k → stoppedRuns.get? (runName j) =
              some (soundBench.pass (loopCommands posixSpace twoCompilers) j).2)) := by
  have hleft := leaves_append_iff.mpr (Or.inr ⟨_, untilCleared_two, onceCleared_stopped⟩)
  exact ⟨hleft, matrix_interrupted plainCommands_two hleft⟩

end OMB
