import OpenMethodBench.Proofs.Rendering

/-! The `median of N passes` of a caption against the rows behind the cells of its table. -/

namespace OMB

open Outcome

/-- No caption claims more passes than any cell of its section has rows. -/
def CountsHonest (out : List (Section × List Block)) : Prop :=
  ∀ sb ∈ out, ∀ n ∈ sb.2.flatMap Block.claims, ∀ rs ∈ sb.2.flatMap Block.uses, n ≤ rs.length

section PassCount

variable (conf : Text) (fs : FileSystem) (root : Text)

/-- Every file was written by a pass of `matrix.sh`, interrupted or not. -/
def CutDataset : Prop :=
  ∀ d : Dataset, ∀ dir ∈ fs (d.root root), ∀ c ∈ columns conf, ∀ t, dir c.2 = some t → CutFile t

/-- As many files of a column got to the last row of its section as some listed compiler
has files on the main machine. -/
def Suffices (s : Section) (c : Dataset × Text) : Prop :=
  ∃ col ∈ columns conf, (paths (fs root) col.2).length ≤
    (columnFiles conf fs root c).countP (reaches (lastRow s))

/-- Every column of the sections has files enough. -/
def RowsSuffice (sections : List Section) : Prop :=
  ∀ s ∈ sections, ∀ build, buildName (columns conf) = .ok build →
    ∀ c ∈ sectionColumns build s, Suffices conf fs root s c

variable {conf fs root}

theorem CutDataset.columnFiles (h : CutDataset conf fs root) (c : Dataset × Text) :
    ∀ f ∈ OMB.columnFiles conf fs root c, CutFile f := by
  intro f hf
  rw [OMB.columnFiles, filesOf] at hf
  split at hf
  · rename_i col hcol
    obtain ⟨dir, hdir, hf⟩ := List.mem_filterMap.mp hf
    exact h c.1 dir hdir col (List.mem_reverse.mp (List.mem_of_find?_eq_some hcol)) f hf
  · simp at hf

theorem CompleteDataset.cut (h : CompleteDataset conf fs root) : CutDataset conf fs root := by
  intro d dir hdir c hc t ht
  obtain ⟨t', ht', hcomplete⟩ := h.files d dir hdir c hc
  obtain rfl := Option.some.inj (ht.symm.trans ht')
  exact hcomplete.cut

theorem passCount_le_iff (hlisted : columns conf ≠ []) {n : ℕ} :
    passCount conf fs root ≤ n ↔ ∃ col ∈ columns conf, (paths (fs root) col.2).length ≤ n := by
  have hsome : (((columns conf).map fun c => (paths (fs root) c.2).length).min?).isSome := by
    rw [List.isSome_min?_iff]
    simpa using hlisted
  obtain ⟨m, hm⟩ := Option.isSome_iff_exists.mp hsome
  obtain ⟨hmem, hleast⟩ := List.min?_eq_some_iff.mp hm
  rw [passCount, hm, Option.getD_some]
  refine ⟨fun h => ?_, ?_⟩
  · obtain ⟨col, hcol, rfl⟩ := List.mem_map.mp hmem
    exact ⟨col, hcol, h⟩
  · rintro ⟨col, hcol, h⟩
    exact (hleast _ (List.mem_map_of_mem hcol)).trans h

/-- The row of a section with the fewest files behind it is its last. -/
theorem countP_lastRow_le {files : List Text} (hcut : ∀ f ∈ files, CutFile f) {s : Section}
    {k : Key} (hk : k ∈ sectionKeys s) :
    files.countP (reaches (lastRow s)) ≤ files.countP (reaches k) := by
  apply List.countP_mono_left
  intro f hf
  obtain ⟨hmeasured, hbefore⟩ := sectionKeys_measured s k hk
  exact (hcut f hf).reaches_of_before hmeasured hbefore

/-- The caption of one section against the cells of its table. -/
theorem section_honest_iff (hcut : CutDataset conf fs root) {args : List Text}
    {sections : List Section} {x : Inputs} (hargs : parseArgs args = .ok (sections, root))
    (hx : prepare conf fs args = .ok (sections, x)) {s : Section} {bs : List Block}
    (hbs : emitSection x s = .ok bs) :
    (∀ n ∈ bs.flatMap Block.claims, ∀ rs ∈ bs.flatMap Block.uses, n ≤ rs.length) ↔
      ∀ c ∈ sectionColumns x.build s, Suffices conf fs root s c := by
  obtain ⟨-, hbuild, hpasses, hload⟩ := prepare_loads hargs hx
  have hlisted : columns conf ≠ [] := by
    rintro hnil
    obtain ⟨c, hc, -⟩ := buildName_ok_iff.mp hbuild
    rw [hnil] at hc
    simp at hc
  obtain ⟨huses, hclaims⟩ := emitSection_uses hbs
  have hlength : ∀ c t k, load (columnFiles conf fs root c) = .ok t →
      (t.entries k).length = (columnFiles conf fs root c).countP (reaches k) :=
    fun c t k ht => length_entries ht (hcut.columnFiles c) k
  rw [huses, hclaims, hpasses]
  refine ⟨fun h c hc => ?_, fun h n hn rs hrs => ?_⟩
  · obtain ⟨t, ht, hct⟩ := exists_of_mem_left (hload s) hc
    apply (passCount_le_iff hlisted).mp
    rw [← hlength c t _ hct]
    apply h _ (List.mem_singleton_self _)
    exact List.mem_map_of_mem (f := Read.entries) (a := (t, lastRow s))
      (mem_sectionReads.mpr ⟨ht, lastRow_mem s⟩)
  · obtain ⟨⟨t, k⟩, hread, rfl⟩ := List.mem_map.mp hrs
    obtain ⟨ht, hk⟩ := mem_sectionReads.mp hread
    obtain ⟨c, hc, hct⟩ := exists_of_mem_right (hload s) ht
    rw [List.mem_singleton.mp hn, Read.entries, hlength c t k hct]
    exact ((passCount_le_iff hlisted).mpr (h c hc)).trans (countP_lastRow_le (hcut.columnFiles c) hk)

end PassCount

/-! ## Runs on measured datasets -/

theorem CompleteFile.reaches {t : Text} (h : CompleteFile t) {k : Key} (hk : k ∈ matrixOrder) :
    OMB.reaches k t = true := by
  rw [reaches_iff, h.keys, ok_mem_map_ok]
  exact hk

section Measured

variable {mean : Key → ℚ} {intelRuns zenRuns : ℕ}

theorem length_paths_measured {col : Text × Text} (hcol : col ∈ columns twoCompilers) :
    (paths (measuredRuns twoCompilers mean intelRuns zenRuns "results".toList) col.2).length =
      intelRuns := by
  rw [measuredRuns, if_pos rfl, paths,
    List.filterMap_replicate_of_some (f := fun dir : RunDir => dir col.2) (measuredDir_listed hcol),
    List.length_replicate]

theorem countP_measured {c : Dataset × Text} (hc : c ∈ sectionColumns "clang 22".toList .matrix) :
    (columnFiles twoCompilers (measuredRuns twoCompilers mean intelRuns zenRuns)
        "results".toList c).countP (reaches (lastRow .matrix)) = c.1.runs intelRuns zenRuns := by
  have hlisted : c.2 ∈ (columns twoCompilers).map (·.1) := by
    rw [columns_twoCompilers]
    rcases sectionColumns_listed hc with h | h | h <;> simp [h]
  have hreaches : reaches (lastRow .matrix) (measuredFile mean) = true :=
    (measuredFile_complete mean).reaches (sectionKeys_measured _ _ (lastRow_mem _)).1
  rw [columnFiles_measured hlisted, List.countP_replicate, if_pos hreaches]

end Measured

/-! ## The count -/

/-- When an accepted run's captions never overstate the rows behind a cell. -/
theorem pass_count_iff {conf : Text} {fs : FileSystem} {root : Text} {args : List Text} {sections : List Section}
    {out : List (Section × List Block)} (hargs : parseArgs args = .ok (sections, root))
    (hcut : CutDataset conf fs root) (hrun : (main conf fs args).res = .ok out) :
    CountsHonest out ↔ RowsSuffice conf fs root sections := by
  obtain ⟨x, hx, hout⟩ := main_sections hargs hrun
  obtain ⟨-, hbuild, -, -⟩ := prepare_loads hargs hx
  refine ⟨fun h s hs build hbuild' => ?_, fun h sb hsb => ?_⟩
  · obtain rfl := Except.ok.inj (hbuild'.symm.trans hbuild)
    obtain ⟨sb, hsb, -, hbs⟩ := exists_of_mem_left hout hs
    exact (section_honest_iff hcut hargs hx hbs).mp (h sb hsb)
  · obtain ⟨s, hs, -, hbs⟩ := exists_of_mem_right hout hsb
    exact (section_honest_iff hcut hargs hx hbs).mpr (h s hs x.build hbuild)

/-- One run on each machine: the caption's one pass is in every cell. -/
theorem pass_count_one_run : ∃ out,
    (main twoCompilers (measuredRuns twoCompilers hundredEach 1 1) ["matrix".toList]).res =
      .ok out ∧ CountsHonest out := by
  obtain ⟨out, hout⟩ := measured_matrix_printed hundredEach Nat.one_pos Nat.one_pos
  have hcut := (measuredRuns_complete twoCompilers hundredEach Nat.one_pos
    Nat.one_pos).cut
  refine ⟨out, hout, (pass_count_iff parseArgs_matrix hcut hout).mpr ?_⟩
  intro s hs build _ c hc
  rw [List.mem_singleton.mp hs] at hc ⊢
  have hcol : ("clang 22".toList, "clang++-22.csv".toList) ∈ columns twoCompilers := by
    rw [columns_twoCompilers]
    exact List.mem_cons_self
  refine ⟨_, hcol, ?_⟩
  rw [length_paths_measured hcol, countP_measured hc]
  rcases c with ⟨- | -, name⟩ <;> exact le_refl 1

/-- Two runs on the main machine and one on the other: the caption claims two passes, and
every cell of the other machine has one row. -/
theorem zen_count_overstated : ∃ out,
    CompleteDataset twoCompilers (measuredRuns twoCompilers hundredEach 2 1) "results".toList ∧
    (main twoCompilers (measuredRuns twoCompilers hundredEach 2 1) ["matrix".toList]).res =
      .ok out ∧ ¬ CountsHonest out := by
  have hdata := measuredRuns_complete twoCompilers hundredEach Nat.two_pos Nat.one_pos
  obtain ⟨out, hout⟩ := measured_matrix_printed hundredEach Nat.two_pos Nat.one_pos
  refine ⟨out, hdata, hout, fun h => ?_⟩
  obtain ⟨x, hx, hemit⟩ := main_sections parseArgs_matrix hout
  obtain ⟨sb, hsb, -, hbs⟩ := exists_of_mem_left hemit (List.mem_singleton_self Section.matrix)
  have hcounts := (section_honest_iff hdata.cut parseArgs_matrix hx hbs).mp (h sb hsb)
  obtain ⟨col, hcol, hzen⟩ := hcounts (.zen, "gcc 15".toList) (by simp [sectionColumns])
  rw [length_paths_measured hcol, countP_measured (by simp [sectionColumns])] at hzen
  exact absurd hzen (by decide)

end OMB
