import OpenMethodBench.Proofs.Rendering

/-! The built-in control: what `control` writes, and what a run of the generator writes. -/

namespace OMB

open Outcome Script

/-! ## The control itself -/

/-- The three direct registries of a table and an arity have positive medians. -/
structure Nets (t : Table) (arity : ℤ) (nets : List ℚ) : Prop where
  medians : controlNets t arity = .ok nets
  positive : ∀ n ∈ nets, 0 < n

theorem Nets.median_pos {t : Table} {arity : ℤ} {nets : List ℚ} (h : Nets t arity nets) :
    0 < median nets := by
  have hlength : nets.length = 3 := (mapM_eq_ok_iff.mp h.medians).length_eq.symm
  have hsorted : (nets.mergeSort fun a b => decide (a ≤ b)).length = 3 := by
    rw [List.length_mergeSort, hlength]
  obtain ⟨a, b, c, habc⟩ := List.length_eq_three.mp hsorted
  have hb : b ∈ nets := by
    apply List.mem_mergeSort.mp
    rw [habc]
    simp
  have hmedian : median nets = b := by
    simp [median, habc]
  rw [hmedian]
  exact h.positive b hb

/-- They differ by more than a quarter of their median. -/
def Diverge (nets : List ℚ) : Prop := 25 < spreadOf nets (median nets)

instance (nets : List ℚ) : Decidable (Diverge nets) :=
  inferInstanceAs (Decidable (25 < spreadOf nets (median nets)))

/-- What `control` writes about one column and arity. -/
def warnings (loaded : Dict Text Table) (turn : Text × ℤ) : List Text :=
  match (tableOf loaded turn.1).bind fun t => controlNets t turn.2 with
  | .ok nets => if Diverge nets then
      [controlWarning turn.1 turn.2 (spreadOf nets (median nets)) nets] else []
  | .error _ => []

theorem warnings_eq {loaded : Dict Text Table} {turn : Text × ℤ} {t : Table} {nets : List ℚ}
    (ht : loaded.get? turn.1 = some t) (hnets : Nets t turn.2 nets) :
    warnings loaded turn = if Diverge nets then
      [controlWarning turn.1 turn.2 (spreadOf nets (median nets)) nets] else [] := by
  rw [warnings, tableOf_ok_iff.mpr ht]
  simp only [Except.bind, hnets.medians]

/-- One look of `control` writes its warning, if any, and goes on. -/
theorem controlStep_spec {loaded : Dict Text Table} {turn : Text × ℤ} {t : Table}
    {nets : List ℚ} (ht : loaded.get? turn.1 = some t) (hnets : Nets t turn.2 nets) (worst : ℚ) :
    (controlStep loaded worst turn).res = .ok (max worst (spreadOf nets (median nets))) ∧
      (controlStep loaded worst turn).err = warnings loaded turn := by
  have htable : tableOf loaded turn.1 = .ok t := tableOf_ok_iff.mpr ht
  have hbase : median nets ≠ 0 := hnets.median_pos.ne'
  rw [warnings_eq ht hnets, controlStep]
  by_cases hwide : Diverge nets
  · have hcond : 25 < spreadOf nets (median nets) := hwide
    simp only [liftM, monadLift, MonadLift.monadLift, htable, hnets.medians, ofExcept_ok_bind,
      if_neg hbase, if_pos hcond, if_pos hwide]
    exact ⟨rfl, rfl⟩
  · have hcond : ¬ 25 < spreadOf nets (median nets) := hwide
    simp only [liftM, monadLift, MonadLift.monadLift, htable, hnets.medians, ofExcept_ok_bind,
      if_neg hbase, if_neg hcond, if_neg hwide]
    exact ⟨rfl, rfl⟩

/-- Over tables with positive medians, `control` writes the warning of every column and
arity that diverges, and nothing else. -/
theorem control_writes {cols : List (Text × Text)} {loaded : Dict Text Table}
    (h : ∀ turn ∈ controlTurns cols, ∃ t nets, loaded.get? turn.1 = some t ∧ Nets t turn.2 nets) :
    (control cols loaded).err = (controlTurns cols).flatMap (warnings loaded) := by
  refine (foldlM_writes (fun worst turn hturn => ?_) 0).2
  obtain ⟨t, nets, ht, hnets⟩ := h turn hturn
  obtain ⟨hres, herr⟩ := controlStep_spec ht hnets worst
  exact ⟨⟨_, hres⟩, herr⟩

/-! ## The run -/

/-- Nothing on the way from the arguments to the sections writes to stderr. -/
theorem main_quiet (conf : Text) (fs : FileSystem) (args : List Text) :
    (main conf fs args).Quiet :=
  (quiet_ofExcept _).bind fun _ => quiet_ofExcept _

section Run

variable (conf : Text) (fs : FileSystem) (args : List Text)

/-- The direct registries of a listed compiler diverge in what a run loads, which then goes
on to its sections; every one of them shows `om vptr` rows. -/
def Diverges (name : Text) (arity : ℤ) : Prop :=
  ∃ sections root x t nets, parseArgs args = .ok (sections, root) ∧
    prepare conf fs args = .ok (sections, x) ∧ (name, arity) ∈ controlTurns (columns conf) ∧
    load (columnFiles conf fs root (.intel, name)) = .ok t ∧ Nets t arity nets ∧ Diverge nets

/-- What `control` would write, given the tables of the run: a warning for each compiler and
arity that diverges. -/
theorem warnings_ne_nil_iff {sections : List Section} {root : Text} {x : Inputs}
    {loaded : Dict Text Table} {counts : List ℕ}
    (hargs : parseArgs args = .ok (sections, root))
    (hx : prepare conf fs args = .ok (sections, x))
    (hloaded : loadColumns (fs root) (columns conf) (missingIntel root) = .ok (loaded, counts))
    {turn : Text × ℤ} (hturn : turn ∈ controlTurns (columns conf)) {t : Table} {nets : List ℚ}
    (ht : loaded.get? turn.1 = some t) (hnets : Nets t turn.2 nets) :
    warnings loaded turn ≠ [] ↔ Diverges conf fs args turn.1 turn.2 := by
  have hfiles : load (columnFiles conf fs root (.intel, turn.1)) = .ok t :=
    ((loadColumns_ok hloaded).2.2 _ _ ht).2
  rw [warnings_eq ht hnets]
  refine ⟨fun h => ?_, ?_⟩
  · refine ⟨sections, root, x, t, nets, hargs, hx, hturn, hfiles, hnets, ?_⟩
    by_contra hagree
    exact h (if_neg hagree)
  · rintro ⟨sections', root', -, t', nets', hargs', -, -, hfiles', hnets', hdiverge⟩
    rw [hargs] at hargs'
    obtain ⟨-, rfl⟩ := Prod.mk.inj (Except.ok.inj hargs')
    obtain rfl := Except.ok.inj (hfiles.symm.trans hfiles')
    obtain rfl := Except.ok.inj (hnets.medians.symm.trans hnets'.medians)
    rw [if_pos hdiverge]
    simp

/-- The run warns of every compiler and arity that diverges, and of none if none does. -/
def ControlEffective : Prop :=
  (∀ name arity, Diverges conf fs args name arity →
    ∃ line ∈ (main conf fs args).err, warningHead name arity <+: line) ∧
  ((∀ name arity, ¬ Diverges conf fs args name arity) →
    ∀ line ∈ (main conf fs args).err, ¬ "warning: ".toList <+: line)

/-- The control is effective on the runs it has nothing to say about. -/
theorem control_effective_iff :
    ControlEffective conf fs args ↔ ∀ name arity, ¬ Diverges conf fs args name arity := by
  have hquiet : (main conf fs args).err = [] := main_quiet conf fs args
  rw [ControlEffective, hquiet]
  refine ⟨fun h name arity hdiverges => ?_, fun h => ⟨fun name arity hdiverges => ?_, ?_⟩⟩
  · obtain ⟨line, hline, -⟩ := h.1 name arity hdiverges
    simp at hline
  · exact absurd hdiverges (h name arity)
  · intro _ line hline
    simp at hline

end Run

/-- One direct registry takes twice as long as the other two. -/
def flatMapDoubled (k : Key) : ℚ :=
  if k = probeKey then 0 else if k.group = "flat_map".toList then 200 else 100

theorem nets_flatMapDoubled {t : Table} (ht : load [measuredFile flatMapDoubled] = .ok t) :
    Nets t 1 [100, 100, 200] := by
  have hprobe : flatMapDoubled probeKey = 0 := by decide +kernel
  have hnet : ∀ registry ∈ directRegistries, med t (controlKey registry 1) "net" =
      .ok (Numeral.rounded 2 (flatMapDoubled (controlKey registry 1))) := by
    intro registry hregistry
    have hmeasured : ∀ r ∈ directRegistries, controlKey r 1 ∈ matrixOrder := by decide +kernel
    rw [med_measured ht (hmeasured registry hregistry), hprobe, sub_zero]
  have hvalues : directRegistries.map (fun r => Numeral.rounded 2 (flatMapDoubled
      (controlKey r 1))) = [100, 100, 200] := by decide +kernel
  refine ⟨?_, by decide +kernel⟩
  rw [controlNets, ← hvalues, mapM_eq_ok_iff, List.forall₂_map_right_iff, List.forall₂_same]
  exact hnet

theorem diverge_flatMapDoubled : Diverge [100, 100, 200] := by
  have hsorted : List.Pairwise (fun a b : ℚ => decide (a ≤ b) = true) [100, 100, 200] := by
    decide +kernel
  have hmedian : median [100, 100, 200] = 100 := by
    rw [median, List.mergeSort_of_pairwise hsorted]
    rfl
  rw [Diverge, hmedian]
  decide +kernel

/-- The matrix is printed over it, and nothing is written to stderr. -/
theorem divergence_unreported : ∃ out,
    (main twoCompilers (measuredRuns twoCompilers flatMapDoubled 1 1) ["matrix".toList]).res =
      .ok out ∧
    Diverges twoCompilers (measuredRuns twoCompilers flatMapDoubled 1 1) ["matrix".toList]
      "clang 22".toList 1 ∧
    ¬ ControlEffective twoCompilers (measuredRuns twoCompilers flatMapDoubled 1 1)
      ["matrix".toList] := by
  obtain ⟨out, hout⟩ := measured_matrix_printed flatMapDoubled Nat.one_pos Nat.one_pos
  obtain ⟨x, hx, -⟩ := main_sections parseArgs_matrix hout
  have hfiles : columnFiles twoCompilers (measuredRuns twoCompilers flatMapDoubled 1 1)
      "results".toList (.intel, "clang 22".toList) = [measuredFile flatMapDoubled] :=
    columnFiles_measured (by simp [columns_twoCompilers])
  obtain ⟨t, ht, -⟩ : ∃ t, load [measuredFile flatMapDoubled] = .ok t ∧ Complete t :=
    load_complete (by simp) (by simp [measuredFile_complete])
  have hdiverges : Diverges twoCompilers (measuredRuns twoCompilers flatMapDoubled 1 1)
      ["matrix".toList] "clang 22".toList 1 := by
    refine ⟨_, _, x, t, _, parseArgs_matrix, hx, ?_, ?_, nets_flatMapDoubled ht,
      diverge_flatMapDoubled⟩
    · rw [columns_twoCompilers]
      simp [controlTurns]
    · rw [hfiles]
      exact ht
  refine ⟨out, hout, hdiverges, fun h => ?_⟩
  obtain ⟨line, hline, -⟩ := h.1 _ _ hdiverges
  have hquiet : (main twoCompilers (measuredRuns twoCompilers flatMapDoubled 1 1)
      ["matrix".toList]).err = [] := main_quiet _ _ _
  rw [hquiet] at hline
  simp at hline

end OMB
