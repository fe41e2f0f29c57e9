import Mathlib
import OpenMethodBench.Proofs.Datasets
import OpenMethodBench.Proofs.SessionFigures

/-! The file of a session, as `report.py` reads it: with flushed caches it has every row that the
tables ask for, and what is measured in other modes besides does not show. -/

namespace OMB

open Outcome

/-- What a session has to print. -/
structure Measured where
  compiler : CompilerId
  bits : ℕ
  tscHz : ℚ
  modes : List CacheMode
  /-- no mode is measured twice -/
  nodup : modes.Nodup
  st : Variant → CacheMode → Stats ℚ

/-- What `report` is given. -/
def Measured.pass (m : Measured) : Pass ℚ := ⟨m.compiler, m.bits, m.tscHz, rowsWith m.modes m.st⟩

/-- The figures that the tables are made of. -/
inductive Figure | net | disp | xNet
  deriving DecidableEq, Repr

namespace Figure

/-- Its column of the file. -/
def column : Figure → String
  | net => "net"
  | disp => "disp"
  | xNet => "x_net"

/-- The value, as its column shows it. -/
def shown : Figure → Figures ℚ → ℚ
  | net, f => Numeral.rounded 2 f.net
  | disp, f => Numeral.rounded 2 f.disp
  | xNet, f => Numeral.rounded 3 f.xNet

end Figure

/-! ## The rows of a file -/

theorem row_chars : ∀ V ∈ runVariants, ∀ t ∈ [V.name, V.group, V.hier.name, V.body], ∀ c ∈ t,
    isFieldChar c = true := by
  decide +kernel

theorem clean_rowsWith {K : Type*} (modes : List CacheMode) (st : Variant → CacheMode → Stats K) :
    ∀ r ∈ rowsWith modes st, r.Clean := by
  intro r hr
  obtain ⟨mode, -, hr⟩ := List.mem_flatMap.mp hr
  obtain ⟨V, hV, rfl⟩ := List.mem_map.mp hr
  exact row_chars V hV

theorem mode_name_injective : Function.Injective CacheMode.name := by
  intro m m' h
  cases m <;> cases m' <;> first | rfl | exact absurd h (by decide)

/-- A session has one row under a key. -/
theorem filter_rowsWith {K : Type*} {modes : List CacheMode} (hnodup : modes.Nodup)
    (st : Variant → CacheMode → Stats K) {mode : CacheMode} (hmode : mode ∈ modes) {V : Variant}
    (hV : V ∈ runVariants) :
    (rowsWith modes st).filter (fun r => r.key = V.key mode) = [V.row mode (st V mode)] := by
  have hkey : ∀ Um ∈ sessionPlan modes, decide ((Um.1.row Um.2 (st Um.1 Um.2)).key = V.key mode) =
      decide (Um = (V, mode)) := by
    rintro ⟨U, m⟩ hU
    have hUV := (mem_sessionPlan.mp hU).2
    rw [decide_eq_decide, Prod.mk.injEq]
    refine ⟨fun h => ?_, fun h => by rw [h.1, h.2]; rfl⟩
    obtain rfl : m = mode := mode_name_injective (congrArg Key.mode h)
    exact ⟨List.inj_on_of_nodup_map (runVariants_keys_nodup m) hUV hV h, rfl⟩
  have hmem : (V, mode) ∈ sessionPlan modes := mem_sessionPlan.mpr ⟨hmode, hV⟩
  rw [rowsWith_eq_map, List.filter_map, Function.comp_def, List.filter_congr hkey, List.filter_eq,
    List.count_eq_one_of_mem (sessionPlan_nodup hnodup) hmem]
  rfl

section File

variable (sqrt : ℚ → ℚ)

theorem floatField_record (p : Pass ℚ) (r : Row ℚ) (F : Figure) :
    floatField F.column (Row.record sqrt .decimal p r) = .ok (F.shown (figures sqrt p.rows r)) := by
  have hfields := field_record sqrt .decimal p r
  simp only [Row.printed, List.forall_mem_cons] at hfields
  obtain ⟨-, -, -, -, -, -, hnet, -, hdisp, -, -, hxnet, -, -⟩ := hfields
  cases F with
  | net => exact floatField_of_fixed hnet
  | disp => exact floatField_of_fixed hdisp
  | xNet => exact floatField_of_fixed hxnet

theorem legible_record (p : Pass ℚ) (r : Row ℚ) : Legible (Row.record sqrt .decimal p r) := by
  intro name hname
  simp only [List.mem_cons, List.not_mem_nil, or_false] at hname
  rcases hname with rfl | rfl | rfl
  · exact ⟨_, floatField_record sqrt p r .net⟩
  · exact ⟨_, floatField_record sqrt p r .disp⟩
  · exact ⟨_, floatField_record sqrt p r .xNet⟩

/-- The file of a session in flushed caches. -/
theorem complete_session (m : Measured) (hmodes : m.modes = [.clflush]) :
    CompleteFile (csvText sqrt .decimal m.pass) := by
  have hrecords := dictReader_csvText sqrt .decimal m.pass (clean_rowsWith m.modes m.st)
  refine ⟨?_, fun r hr => ?_⟩
  · have hrows : m.pass.rows = runVariants.map fun V => V.row .clflush (m.st V .clflush) := by
      rw [Measured.pass, hmodes, rowsWith, List.flatMap_cons, List.flatMap_nil, List.append_nil]
    have hkeys : matrixOrder = runVariants.map fun V => V.key .clflush := (runVariants_keys .clflush).symm
    rw [fileKeys, hrecords, List.map_map, hrows, List.map_map, hkeys, List.map_map]
    exact List.map_congr_left fun V _ => keyOf_record sqrt .decimal m.pass _
  · rw [hrecords] at hr
    obtain ⟨x, -, rfl⟩ := List.mem_map.mp hr
    exact legible_record sqrt m.pass x

/-! ## The files of some sessions -/

theorem median_perm {xs ys : List ℚ} (h : xs.Perm ys) : median xs = median ys := by
  have hsorted : ∀ zs : List ℚ, (zs.mergeSort fun a b => decide (a ≤ b)).Pairwise (· ≤ ·) := by
    intro zs
    refine (List.pairwise_mergeSort (fun a b c hab hbc => ?_) (fun a b => ?_) zs).imp of_decide_eq_true
    · simp only [decide_eq_true_eq] at *
      exact hab.trans hbc
    · simpa using le_total a b
  have hperm : (xs.mergeSort fun a b => decide (a ≤ b)).Perm (ys.mergeSort fun a b => decide (a ≤ b)) :=
    (List.mergeSort_perm xs _).trans (h.trans (List.mergeSort_perm ys _).symm)
  rw [median, median, hperm.eq_of_pairwise (fun a b _ _ => le_antisymm) (hsorted xs) (hsorted ys)]

variable {sqrt} {ms : List Measured} {files : List Text}

theorem records_sessions (hfiles : files.Perm (ms.map fun m => csvText sqrt .decimal m.pass)) :
    (records files).Perm (ms.flatMap fun m => m.pass.rows.map (Row.record sqrt .decimal m.pass)) := by
  refine (hfiles.flatMap_right dictReader).trans (List.Perm.of_eq ?_)
  rw [List.flatMap_map]
  exact List.flatMap_congr fun m _ => dictReader_csvText sqrt .decimal m.pass (clean_rowsWith m.modes m.st)

variable {mode : CacheMode} {V : Variant} {t : Table}

/-- Each session adds the row of a variant in a mode to the entry under its key, and no other. -/
theorem entries_sessions (hfiles : files.Perm (ms.map fun m => csvText sqrt .decimal m.pass))
    (hmode : ∀ m ∈ ms, mode ∈ m.modes) (hV : V ∈ runVariants) (ht : load files = .ok t) :
    (t.entries (V.key mode)).Perm
      (ms.map fun m => Row.record sqrt .decimal m.pass (V.row mode (m.st V mode))) := by
  rw [load_entries ht]
  refine ((records_sessions hfiles).filter _).trans (List.Perm.of_eq ?_)
  rw [List.filter_flatMap, List.map_eq_flatMap]
  refine List.flatMap_congr fun m hm => ?_
  have hrow : ∀ r ∈ m.pass.rows, (decide (keyOf (Row.record sqrt .decimal m.pass r) = .ok (V.key mode))) =
      decide (r.key = V.key mode) := by
    intro r _
    rw [keyOf_record, decide_eq_decide, Except.ok.injEq]
  rw [List.filter_map, Function.comp_def, List.filter_congr hrow, Measured.pass,
    filter_rowsWith m.nodup m.st (hmode m hm) hV, List.map_singleton]

/-- The median of a figure, over the sessions that the files are of. -/
theorem med_sessions (hfiles : files.Perm (ms.map fun m => csvText sqrt .decimal m.pass))
    (hne : ms ≠ []) (hmode : ∀ m ∈ ms, mode ∈ m.modes) (hV : V ∈ runVariants)
    (ht : load files = .ok t) (F : Figure) : med t (V.key mode) F.column =
      .ok (median (ms.map fun m => F.shown (figuresOf sqrt (fun U => m.st U mode) V))) := by
  have hentries := entries_sessions hfiles hmode hV ht
  have hfield : List.Forall₂ (fun r q => floatField F.column r = .ok q)
      (ms.map fun m => Row.record sqrt .decimal m.pass (V.row mode (m.st V mode)))
      (ms.map fun m => F.shown (figuresOf sqrt (fun U => m.st U mode) V)) := by
    rw [List.forall₂_map_left_iff, List.forall₂_map_right_iff]
    refine List.forall₂_same.mpr fun m hm => ?_
    rw [floatField_record, Measured.pass, figures_rowsWith sqrt (hmode m hm) hV]
  obtain ⟨qs, hqs, hperm⟩ := List.perm_comp_forall₂ hentries hfield
  have hrows : rowsOf t (V.key mode) [] = .ok (t.entries (V.key mode)) := by
    have hpresent : t.get? (V.key mode) = some (t.entries (V.key mode)) := by
      refine (load_filled ht).get?_eq_some_iff.mpr ⟨fun hnil => hne ?_, rfl⟩
      rw [hnil, List.nil_perm, List.map_eq_nil_iff] at hentries
      exact hentries
    rw [rowsOf, hpresent]
  rw [med, ← median_perm hperm]
  exact bind_ok hrows (bind_ok (mapM_eq_ok_iff.mpr hqs) rfl)

end File

end OMB
