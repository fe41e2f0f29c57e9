import Mathlib.Data.List.Nodup
import OpenMethodBench.Lib.Outcome
import OpenMethodBench.Proofs.CsvRoundTrip
import OpenMethodBench.Spec.Tables
import OpenMethodBench.Spec.Variants

/-! The files `matrix.sh` leaves behind: complete ones, and ones an interrupted pass cut
short after some row. -/

namespace OMB

open Outcome

/-- The keys of the rows of a file, in order. -/
def fileKeys (t : Text) : List (Except Stop Key) := (dictReader t).map keyOf

/-! ## Files cut short -/

/-- A file cut after some row of the run. -/
def CutFile (t : Text) : Prop := ∃ n, fileKeys t = (matrixOrder.take n).map .ok

/-- The file got as far as the row of the key. -/
def reaches (k : Key) (t : Text) : Bool := decide (.ok k ∈ fileKeys t)

theorem reaches_iff {k : Key} {t : Text} : reaches k t = true ↔ .ok k ∈ fileKeys t := by
  rw [reaches, decide_eq_true_iff]

theorem ok_mem_map_ok {k : Key} {ks : List Key} :
    (Except.ok k : Except Stop Key) ∈ ks.map .ok ↔ k ∈ ks :=
  List.mem_map_of_injective fun _ _ h => Except.ok.inj h

namespace CutFile

variable {t : Text}

theorem nodup (h : CutFile t) : (fileKeys t).Nodup := by
  obtain ⟨n, hn⟩ := h
  rw [hn]
  exact List.Nodup.map (fun _ _ h => Except.ok.inj h)
    ((List.take_sublist n matrixOrder).nodup matrixOrder_nodup)

/-- A file that got as far as a row holds every row before it. -/
theorem reaches_of_before (h : CutFile t) {k k' : Key} (hk : k ∈ matrixOrder)
    (hbefore : matrixOrder.idxOf k ≤ matrixOrder.idxOf k') (hk' : reaches k' t = true) :
    reaches k t = true := by
  obtain ⟨n, hn⟩ := h
  rw [reaches_iff, hn, ok_mem_map_ok] at hk' ⊢
  rw [List.mem_take_iff_idxOf_lt (List.mem_of_mem_take hk')] at hk'
  rw [List.mem_take_iff_idxOf_lt hk]
  omega

/-- A file holds a row under a key once or not at all. -/
theorem countP_key (h : CutFile t) (k : Key) :
    (dictReader t).countP (fun r => keyOf r = .ok k) = if reaches k t = true then 1 else 0 := by
  have hcount : (dictReader t).countP (fun r => keyOf r = .ok k) = (fileKeys t).count (.ok k) := by
    rw [fileKeys, List.count, List.countP_map]
    refine List.countP_congr fun r _ => ?_
    simp
  rw [hcount, h.nodup.count]
  simp only [reaches_iff]

end CutFile

theorem countP_flatMap_of_single {α β : Type*} {p : β → Bool} {q : α → Bool} {g : α → List β}
    {xs : List α} (h : ∀ x ∈ xs, (g x).countP p = if q x = true then 1 else 0) :
    (xs.flatMap g).countP p = xs.countP q := by
  induction xs with
  | nil => rfl
  | cons x xs ih =>
    rw [List.flatMap_cons, List.countP_append, h x List.mem_cons_self,
      ih fun y hy => h y (List.mem_cons_of_mem x hy), List.countP_cons, Nat.add_comm]

/-- A table loaded from cut files holds under a key one row per file that got there. -/
theorem length_entries {files : List Text} {t : Table} (ht : load files = .ok t)
    (hcut : ∀ f ∈ files, CutFile f) (k : Key) :
    (t.entries k).length = files.countP (reaches k) := by
  rw [load_entries ht, ← List.countP_eq_length_filter, records]
  exact countP_flatMap_of_single fun f hf => (hcut f hf).countP_key k

theorem load_cut {files : List Text} (h : ∀ f ∈ files, CutFile f) : ∃ t, load files = .ok t := by
  refine (load_ok_iff files).mpr fun r hr => ?_
  obtain ⟨f, hf, hr⟩ := List.mem_flatMap.mp hr
  obtain ⟨n, hn⟩ := h f hf
  have hmem : keyOf r ∈ fileKeys f := List.mem_map_of_mem hr
  rw [hn] at hmem
  obtain ⟨k, -, hk⟩ := List.mem_map.mp hmem
  exact ⟨k, hk.symm⟩

/-! ## Complete files -/

/-- The figures the tables are made of can be read. -/
def Legible (r : Record) : Prop :=
  ∀ name ∈ ["net", "disp", "x_net"], ∃ q, floatField name r = .ok q

/-- Every row of the run is there. -/
structure CompleteFile (t : Text) : Prop where
  keys : fileKeys t = matrixOrder.map .ok
  legible : ∀ r ∈ dictReader t, Legible r

theorem CompleteFile.cut {t : Text} (h : CompleteFile t) : CutFile t :=
  ⟨matrixOrder.length, by rw [List.take_length, h.keys]⟩

/-- A table that has every row of the run under its key, in figures. -/
def Complete (t : Table) : Prop :=
  ∀ k ∈ matrixOrder, ∃ rs, t.get? k = some rs ∧ ∀ r ∈ rs, Legible r

theorem load_complete {files : List Text} (hne : files ≠ [])
    (h : ∀ f ∈ files, CompleteFile f) : ∃ t, load files = .ok t ∧ Complete t := by
  obtain ⟨t, ht⟩ := load_cut fun f hf => (h f hf).cut
  refine ⟨t, ht, fun k hk => ⟨t.entries k, ?_, fun r hr => ?_⟩⟩
  · rw [(load_filled ht).get?_eq_some_iff]
    refine ⟨fun hnil => ?_, rfl⟩
    obtain ⟨f, fs, rfl⟩ := List.exists_cons_of_ne_nil hne
    have hlen := length_entries ht (fun f hf => (h f hf).cut) k
    have hreach : reaches k f = true := by
      rw [reaches_iff, (h f List.mem_cons_self).keys, ok_mem_map_ok]
      exact hk
    rw [hnil, List.countP_cons_of_pos hreach] at hlen
    simp at hlen
  · rw [load_entries ht] at hr
    obtain ⟨f, hf, hr⟩ := List.mem_flatMap.mp (List.mem_of_mem_filter hr)
    exact (h f hf).legible r hr

/-! ## A measured file -/

/-- A row of the run with a mean of its own. -/
def measuredRow (mean : Key → ℚ) (k : Key) : Row ℚ where
  name := k.dispatch
  group := k.group
  hier := k.hier
  arity := k.arity
  touchesReceiver := k.dispatch != "om vptr".toList
  body := k.body
  mode := .clflush
  st := { min := 90, median := 110, p90 := 150, mean := mean k, stddev := 12, se := 0 }

def measuredPass (mean : Key → ℚ) : Pass ℚ :=
  ⟨.clang 22 1, 64, 2000000000, matrixOrder.map (measuredRow mean)⟩

/-- What a whole run prints. -/
def measuredFile (mean : Key → ℚ) : Text := csvText Rat.sqrt .decimal (measuredPass mean)

theorem measuredRow_clean {mean : Key → ℚ} {k : Key} (hk : k ∈ matrixOrder) :
    (measuredRow mean k).Clean := by
  have hall : ∀ k ∈ matrixOrder, ∀ t ∈ [k.dispatch, k.group, k.hier, k.body], ∀ c ∈ t,
      isFieldChar c = true := by
    decide +kernel
  exact hall k hk

theorem measuredRow_key {mean : Key → ℚ} {k : Key} (hk : k ∈ matrixOrder) :
    (measuredRow mean k).key = k := by
  have hmode : ∀ k ∈ matrixOrder, k.mode = clflush := by decide +kernel
  have h := hmode k hk
  obtain ⟨mode, hier, body, group, dispatch, arity⟩ := k
  subst h
  rfl

/-- The record of a row of the run. -/
def measuredRecord (mean : Key → ℚ) (k : Key) : Record :=
  Row.record Rat.sqrt .decimal (measuredPass mean) (measuredRow mean k)

theorem dictReader_measuredFile (mean : Key → ℚ) :
    dictReader (measuredFile mean) = matrixOrder.map (measuredRecord mean) := by
  rw [measuredFile, dictReader_csvText, measuredPass, List.map_map]
  · rfl
  · intro r hr
    obtain ⟨k, hk, rfl⟩ := List.mem_map.mp hr
    exact measuredRow_clean hk

theorem keyOf_measuredRecord {mean : Key → ℚ} {k : Key} (hk : k ∈ matrixOrder) :
    keyOf (measuredRecord mean k) = .ok k := by
  rw [measuredRecord, keyOf_record, measuredRow_key hk]

/-- The figures of a row of the run, as printed. -/
theorem field_measuredRecord (mean : Key → ℚ) (k : Key) :
    field (measuredRecord mean k) "net" = .ok
        (Numeral.fixed 2 (netOf Rat.sqrt (measuredPass mean).rows (measuredRow mean k)).1) ∧
      field (measuredRecord mean k) "disp" = .ok
        (Numeral.fixed 2 (dispOf Rat.sqrt (measuredPass mean).rows (measuredRow mean k)).1) ∧
      field (measuredRecord mean k) "x_net" = .ok
        (Numeral.fixed 3 (ratioOf Rat.sqrt (measuredPass mean).rows (measuredRow mean k) false)) := by
  have hfields := field_record Rat.sqrt .decimal (measuredPass mean) (measuredRow mean k)
  simp only [Row.printed, List.forall_mem_cons] at hfields
  obtain ⟨-, -, -, -, -, -, hnet, -, hdisp, -, -, hxnet, -, -⟩ := hfields
  exact ⟨hnet, hdisp, hxnet⟩

theorem floatField_of_fixed {r : Record} {name : String} {d : ℕ} {q : ℚ}
    (h : field r name = .ok (Numeral.fixed d q)) :
    floatField name r = .ok (Numeral.rounded d q) := by
  rw [floatField, h]
  simp only [bind, Except.bind, Numeral.decimal?_fixed]
  rfl

theorem measuredFile_complete (mean : Key → ℚ) : CompleteFile (measuredFile mean) where
  keys := by
    rw [fileKeys, dictReader_measuredFile, List.map_map]
    exact List.map_congr_left fun k hk => keyOf_measuredRecord hk
  legible := by
    rw [dictReader_measuredFile]
    intro r hr
    obtain ⟨k, -, rfl⟩ := List.mem_map.mp hr
    obtain ⟨hnet, hdisp, hxnet⟩ := field_measuredRecord mean k
    intro name hname
    simp only [List.mem_cons, List.not_mem_nil, or_false] at hname
    rcases hname with rfl | rfl | rfl
    · exact ⟨_, floatField_of_fixed hnet⟩
    · exact ⟨_, floatField_of_fixed hdisp⟩
    · exact ⟨_, floatField_of_fixed hxnet⟩

def probeKey : Key := variantKey clflush "main" "-" "baseline" "probe" 0

/-- `net` takes the empty window off the mean. -/
theorem netOf_measured (mean : Key → ℚ) (k : Key) :
    (netOf Rat.sqrt (measuredPass mean).rows (measuredRow mean k)).1 = mean k - mean probeKey :=
  rfl

theorem median_singleton (q : ℚ) : median [q] = q := by
  simp [median]

/-- The median over the one pass is the figure the pass printed. -/
theorem med_measured {mean : Key → ℚ} {t : Table} (ht : load [measuredFile mean] = .ok t)
    {k : Key} (hk : k ∈ matrixOrder) :
    med t k "net" = .ok (Numeral.rounded 2 (mean k - mean probeKey)) := by
  have hrecords : t.entries k = [measuredRecord mean k] := by
    have hrows : records [measuredFile mean] = matrixOrder.map (measuredRecord mean) := by
      rw [records, List.flatMap_cons, List.flatMap_nil, List.append_nil, dictReader_measuredFile]
    have honly : matrixOrder.filter (fun k' => keyOf (measuredRecord mean k') = .ok k) = [k] := by
      rw [List.filter_congr (q := fun k' => decide (k' = k)) fun k' hk' => by
        simp [keyOf_measuredRecord hk'], List.filter_eq,
        List.count_eq_one_of_mem matrixOrder_nodup hk, List.replicate_one]
    rw [load_entries ht, hrows, List.filter_map]
    exact congrArg (List.map (measuredRecord mean)) honly
  have hpresent : t.get? k = some [measuredRecord mean k] :=
    (load_filled ht).get?_eq_some_iff.mpr ⟨by simp, hrecords⟩
  have hnet := floatField_of_fixed (field_measuredRecord mean k).1
  rw [netOf_measured] at hnet
  have hrows : rowsOf t k [] = .ok [measuredRecord mean k] := by rw [rowsOf, hpresent]
  rw [med, hrows]
  refine bind_ok rfl (bind_ok (mapM_eq_ok_iff.mpr (.cons hnet .nil)) ?_)
  rw [median_singleton]
  rfl

/-- Every call takes a hundred cycles more than the empty window. -/
def hundredEach (k : Key) : ℚ := if k = probeKey then 0 else 100

theorem rounded_hundred : Numeral.rounded 2 100 = 100 := by
  decide +kernel

end OMB
