import Mathlib
import OpenMethodBench.Proofs.ExtractRun

/-! The oracle check as a gate: what a slice that passes it still has of the standalone
dispatch, and that nothing else depends on it. -/

namespace OMB

/-- How often a shape is among the dispatch instructions of a listing. -/
def shapeCount (listing : List Text) (s : Text) : ℕ :=
  listing.countP fun t => dispatches t && decide (shape t = s)

theorem count_dispatchOps (listing : List Text) (s : Text) :
    (dispatchOps listing).count s = shapeCount listing s := by
  induction listing with
  | nil => rfl
  | cons t listing ih =>
    rw [shapeCount, List.countP_cons, ← shapeCount, ← ih, dispatchOps, List.filter_cons]
    by_cases ht : dispatches t = true
    · rw [if_pos ht, List.map_cons, ← Multiset.cons_coe, Multiset.count_cons, ht, Bool.true_and]
      by_cases hs : shape t = s
      · simp [hs, dispatchOps]
      · have hs' : ¬ s = shape t := fun h => hs h.symm
        simp [hs, hs', dispatchOps]
    · simp [ht, dispatchOps]

/-- Nothing is missing where no shape has become rarer. -/
theorem oracleMissing_eq_zero_iff {probe window : List Text} :
    oracleMissing probe window = 0 ↔ ∀ s, shapeCount probe s ≤ shapeCount window s := by
  rw [oracleMissing, tsub_eq_zero_iff_le, Multiset.le_iff_count]
  simp only [count_dispatchOps]

/-! ## A run that passes -/

theorem checkSlice_eq_ok_iff {bin : Binary} {name : Text} {word : ℕ} {e : VariantRow × SlicedCell} :
    checkSlice (disassemble bin.code) (symbols bin.table) name word e = .ok () ↔
      ∃ fn registry probe, probes.get? (e.1.struct, e.1.tag) = some (fn, registry) ∧
        probeWindow (disassemble bin.code) (symbols bin.table) fn registry name word = .ok probe ∧
        ∀ s, shapeCount (render probe.win probe.named []) s ≤ shapeCount e.2.listing s := by
  rw [checkSlice]
  constructor
  · intro h
    rcases hprobe : probes.get? (e.1.struct, e.1.tag) with - | ⟨fn, registry⟩
    · rw [hprobe] at h
      exact nomatch h
    · rw [hprobe] at h
      obtain ⟨probe, hwin, hmissing⟩ := Outcome.bind_eq_ok_iff.mp h
      have hzero : oracleMissing (render probe.win probe.named []) e.2.listing = 0 := by
        by_contra hne
        exact nomatch (if_neg hne).symm.trans hmissing
      exact ⟨fn, registry, probe, rfl, hwin, oracleMissing_eq_zero_iff.mp hzero⟩
  · rintro ⟨fn, registry, probe, hprobe, hwin, hcounts⟩
    rw [hprobe]
    exact Outcome.bind_ok hwin (if_pos (oracleMissing_eq_zero_iff.mpr hcounts))

theorem forM_eq_ok_iff {α : Type*} {f : α → Except Stop Unit} {xs : List α} :
    xs.forM f = .ok () ↔ ∀ x ∈ xs, f x = .ok () := by
  induction xs with
  | nil => exact iff_of_true rfl (fun x hx => absurd hx List.not_mem_nil)
  | cons x xs ih =>
    rw [List.forall_mem_cons, ← ih]
    constructor
    · intro h
      obtain ⟨⟨⟩, hx, hxs⟩ := Outcome.bind_eq_ok_iff.mp h
      exact ⟨hx, hxs⟩
    · rintro ⟨hx, hxs⟩
      exact Outcome.bind_ok hx hxs

/-- With a probe binary at hand, no published listing has lost an instruction of its dispatch:
every shape is there at least as often as in the standalone one. -/
theorem extract_covers {name path probePath : Text} {bin probe : Binary}
    {rows : List (VariantRow × PublishedRow)}
    (h : (extract name path probePath bin (some probe)).res = .ok rows) :
    rows.map Prod.fst = variants ∧
      ∀ e ∈ rows, ∃ fn registry alone, probes.get? (e.1.struct, e.1.tag) = some (fn, registry) ∧
        probeWindow (disassemble probe.code) (symbols probe.table) fn registry name
          (wordOf name) = .ok alone ∧
        ∀ s, shapeCount (render alone.win alone.named []) s ≤ shapeCount e.2.lines s := by
  refine ⟨map_fst_extract h, fun e he => ?_⟩
  obtain ⟨cells, -, hcheck, rfl⟩ := extract_eq_ok_iff.mp h
  obtain ⟨s, hs, rfl⟩ := List.mem_map.mp he
  exact checkSlice_eq_ok_iff.mp (forM_eq_ok_iff.mp hcheck s hs)

theorem extract_covers_sample : ∃ rows : List (VariantRow × PublishedRow),
    rows.map Prod.fst = variants ∧
      ∀ e ∈ rows, ∃ fn registry alone, probes.get? (e.1.struct, e.1.tag) = some (fn, registry) ∧
        probeWindow (disassemble sampleProbe.code) (symbols sampleProbe.table) fn registry
          "gcc 15".toList (wordOf "gcc 15".toList) = .ok alone ∧
        ∀ s, shapeCount (render alone.win alone.named []) s ≤ shapeCount e.2.lines s := by
  obtain ⟨rows, h⟩ := exists_extract_sample
  exact ⟨rows, extract_covers h⟩

/-- The oracle is a gate and nothing else: with a probe binary at hand a build is published just
where it would be without one and no listing has lost an instruction of its dispatch, and then
as it would be without one. -/
theorem extract_gated_iff (name path probePath : Text) (bin probe : Binary)
    (rows : List (VariantRow × PublishedRow)) :
    (extract name path probePath bin (some probe)).res = .ok rows ↔
      (extract name path probePath bin none).res = .ok rows ∧
        ∀ e ∈ rows, ∃ fn registry alone, probes.get? (e.1.struct, e.1.tag) = some (fn, registry) ∧
          probeWindow (disassemble probe.code) (symbols probe.table) fn registry name
            (wordOf name) = .ok alone ∧
          ∀ s, shapeCount (render alone.win alone.named []) s ≤ shapeCount e.2.lines s := by
  rw [extract_eq_ok_iff, extract_eq_ok_iff]
  constructor
  · rintro ⟨cells, hcells, hcheck, rfl⟩
    refine ⟨⟨cells, hcells, rfl, rfl⟩, fun e he => ?_⟩
    obtain ⟨s, hs, rfl⟩ := List.mem_map.mp he
    exact checkSlice_eq_ok_iff.mp (forM_eq_ok_iff.mp hcheck s hs)
  · rintro ⟨⟨cells, hcells, -, rfl⟩, hcovers⟩
    refine ⟨cells, hcells, forM_eq_ok_iff.mpr fun s hs => ?_, rfl⟩
    exact checkSlice_eq_ok_iff.mpr (hcovers _ (List.mem_map_of_mem hs))

end OMB
