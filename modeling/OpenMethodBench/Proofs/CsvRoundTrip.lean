import Mathlib
import OpenMethodBench.Spec.Load
import OpenMethodBench.Spec.Report

/-! The CSV text `report` prints and the loader of `report.py` are inverse: a table
loaded from any number of passes holds their rows under their keys, each figure under
its column's name. -/

namespace OMB

/-! ## Reading a file of lines -/

theorem fieldChar_ne {c : Char} (h : isFieldChar c = true) : c ≠ ',' ∧ c ≠ '\n' := by
  simp only [isFieldChar, Bool.and_eq_true, bne_iff_ne] at h
  exact ⟨h.1.1.1, h.2⟩

/-- Rows of two fields or more that hold no delimiter read back as they were joined. -/
theorem csvRows_lines {rows : List (List Text)} (hlen : ∀ r ∈ rows, 1 < r.length)
    (hchars : ∀ r ∈ rows, ∀ f ∈ r, ∀ c ∈ f, isFieldChar c = true) :
    csvRows ((rows.map (Text.join ',')).flatMap fun l => l ++ ['\n']) = rows := by
  have hline : ∀ r ∈ rows, Text.join ',' r ≠ [] ∧ '\n' ∉ Text.join ',' r ∧
      (Text.join ',' r).splitOn ',' = r := by
    intro r hr
    have hr' := hlen r hr
    obtain ⟨f, g, fs, rfl⟩ : ∃ f g fs, r = f :: g :: fs := by
      rcases r with - | ⟨f, - | ⟨g, fs⟩⟩
      · simp at hr'
      · simp at hr'
      · exact ⟨f, g, fs, rfl⟩
    refine ⟨by rw [Text.join_cons_cons]; simp, fun hc => ?_, Text.splitOn_join (by simp) ?_⟩
    · rcases Text.mem_join hc with h | ⟨p, hp, hc⟩
      · exact absurd h (by decide)
      · exact (fieldChar_ne (hchars _ hr p hp _ hc)).2 rfl
    · exact fun p hp hc => (fieldChar_ne (hchars _ hr p hp _ hc)).1 rfl
  have hsplit : ((rows.map (Text.join ',')).flatMap fun l => l ++ ['\n']).splitOn '\n' =
      rows.map (Text.join ',') ++ [[]] := by
    refine Text.splitOn_terminated fun l hl => ?_
    obtain ⟨r, hr, rfl⟩ := List.mem_map.mp hl
    exact (hline r hr).2.1
  have hfilter : (rows.map (Text.join ',')).filter (fun l => !l.isEmpty) =
      rows.map (Text.join ',') := by
    refine List.filter_eq_self.mpr fun l hl => ?_
    obtain ⟨r, hr, rfl⟩ := List.mem_map.mp hl
    simpa using (hline r hr).1
  have hlast : [([] : Text)].filter (fun l => !l.isEmpty) = [] := rfl
  rw [csvRows, hsplit, List.filter_append, hfilter, hlast, List.append_nil, List.map_map]
  exact (List.map_congr_left fun r hr => (hline r hr).2.2).trans (List.map_id' rows)

/-! ## What one pass prints -/

/-- No string of the row needs quoting. -/
def Row.Clean {K : Type*} (r : Row K) : Prop :=
  ∀ t ∈ [r.name, r.group, r.hier, r.body], ∀ c ∈ t, isFieldChar c = true

/-- The key a row is filed under. -/
def Row.key {K : Type*} (r : Row K) : Key :=
  ⟨r.mode.name, r.hier, r.body, r.group, r.name, r.arity⟩

section Pass

variable {K : Type*} [Field K] [LinearOrder K] (sqrt : K → K) (fmt : Printf K) (p : Pass K)

/-- What the loader makes of a row's line. -/
def Row.record (r : Row K) : Record := (csvNames.zip (csvFields sqrt fmt p r)).reverse

/-- The named fields, and what is printed of the row under each. -/
def Row.printed (r : Row K) : List (String × Text) :=
  [("min", Nat.toDigits 10 r.st.min), ("median", Nat.toDigits 10 r.st.median),
    ("p90", Nat.toDigits 10 r.st.p90), ("mean", fmt.fixed 2 r.st.mean),
    ("stddev", fmt.fixed 1 r.st.stddev), ("se", fmt.fixed 2 r.st.se),
    ("net", fmt.fixed 2 (netOf sqrt p.rows r).1), ("net_se", fmt.fixed 2 (netOf sqrt p.rows r).2),
    ("disp", fmt.fixed 2 (dispOf sqrt p.rows r).1),
    ("disp_se", fmt.fixed 2 (dispOf sqrt p.rows r).2),
    ("disp_ns", fmt.fixed 3 (nanoseconds (dispOf sqrt p.rows r).1 p.tscHz)),
    ("x_net", fmt.fixed 3 (ratioOf sqrt p.rows r false)),
    ("x_disp", fmt.fixed 3 (ratioOf sqrt p.rows r true))]

theorem toDigits_chars {n : ℕ} : ∀ c ∈ Nat.toDigits 10 n, isFieldChar c = true :=
  fun c hc => isFieldChar_of_digit (Numeral.toDigits_digit c hc)

theorem compiler_chars (c : CompilerId) : ∀ x ∈ c.text, isFieldChar x = true := by
  have hclang : ∀ x ∈ "clang++ ".toList, isFieldChar x = true := by decide
  have hgnu : ∀ x ∈ "g++ ".toList, isFieldChar x = true := by decide
  have hunknown : ∀ x ∈ "unknown".toList, isFieldChar x = true := by decide
  have hversion : ∀ major minor : ℕ, ∀ x ∈ versionText major minor, isFieldChar x = true := by
    intro major minor x hx
    rcases List.mem_append.mp hx with hx | hx
    · exact toDigits_chars x hx
    · rcases List.mem_cons.mp hx with rfl | hx
      · decide
      · exact toDigits_chars x hx
  rcases c with ⟨major, minor⟩ | ⟨major, minor⟩ | -
  · exact List.forall_mem_append.mpr ⟨hclang, hversion major minor⟩
  · exact List.forall_mem_append.mpr ⟨hgnu, hversion major minor⟩
  · exact hunknown

theorem intText_chars (n : ℤ) : ∀ c ∈ Numeral.intText n, isFieldChar c = true := by
  intro c hc
  rw [Numeral.intText] at hc
  split_ifs at hc
  · rcases List.mem_cons.mp hc with rfl | hc
    · decide
    · exact toDigits_chars c hc
  · exact toDigits_chars c hc

theorem mode_chars (m : CacheMode) : ∀ c ∈ m.name, isFieldChar c = true := by
  cases m <;> decide

/-- No printed field holds a delimiter. -/
theorem csvFields_chars {r : Row K} (hr : r.Clean) :
    ∀ f ∈ csvFields sqrt fmt p r, ∀ c ∈ f, isFieldChar c = true := by
  intro f hf
  simp only [csvFields, List.mem_cons, List.not_mem_nil, or_false] at hf
  rcases hf with rfl | rfl | rfl | rfl | rfl | rfl | rfl | rfl | rfl | rfl | rfl | rfl | rfl | rfl |
    rfl | rfl | rfl | rfl | rfl | rfl | rfl
  · exact compiler_chars _
  · exact toDigits_chars
  · exact mode_chars _
  · exact hr _ (by simp)
  · exact hr _ (by simp)
  · exact hr _ (by simp)
  · exact hr _ (by simp)
  · exact intText_chars _
  · exact toDigits_chars
  · exact toDigits_chars
  · exact toDigits_chars
  all_goals exact fmt.fixed_chars _ _

/-- The lines of a pass read back as its rows. -/
theorem dictReader_csvText (hp : ∀ r ∈ p.rows, r.Clean) :
    dictReader (csvText sqrt fmt p) = p.rows.map (Row.record sqrt fmt p) := by
  have htext : csvText sqrt fmt p =
      ((csvNames :: p.rows.map (csvFields sqrt fmt p)).map (Text.join ',')).flatMap
        fun l => l ++ ['\n'] := by
    rw [csvText, List.map_cons, List.flatMap_cons, ← csvHeader_eq, List.map_map, List.flatMap_map,
      List.append_assoc]
    rfl
  have hrows : csvRows (csvText sqrt fmt p) = csvNames :: p.rows.map (csvFields sqrt fmt p) := by
    rw [htext, csvRows_lines]
    · intro r hr
      rcases List.mem_cons.mp hr with rfl | hr
      · decide
      · obtain ⟨x, -, rfl⟩ := List.mem_map.mp hr
        simp [csvFields]
    · intro r hr
      rcases List.mem_cons.mp hr with rfl | hr
      · decide
      · obtain ⟨x, hx, rfl⟩ := List.mem_map.mp hr
        exact csvFields_chars sqrt fmt p (hp x hx)
  rw [dictReader, hrows]
  simp only [List.map_map]
  rfl

/-- Every named field carries what was printed for it. -/
theorem field_record (r : Row K) :
    ∀ nt ∈ r.printed sqrt fmt p, field (r.record sqrt fmt p) nt.1 = .ok nt.2 := by
  simp only [Row.printed, List.forall_mem_cons]
  exact ⟨rfl, rfl, rfl, rfl, rfl, rfl, rfl, rfl, rfl, rfl, rfl, rfl, rfl, by simp⟩

/-- A printed row is filed under its own key. -/
theorem keyOf_record (r : Row K) : keyOf (r.record sqrt fmt p) = .ok r.key := by
  have hmode : field (r.record sqrt fmt p) "mode" = .ok r.mode.name := rfl
  have hhier : field (r.record sqrt fmt p) "hier" = .ok r.hier := rfl
  have hbody : field (r.record sqrt fmt p) "body" = .ok r.body := rfl
  have hgroup : field (r.record sqrt fmt p) "group" = .ok r.group := rfl
  have hdispatch : field (r.record sqrt fmt p) "dispatch" = .ok r.name := rfl
  have harity : field (r.record sqrt fmt p) "arity" = .ok (Numeral.intText r.arity) := rfl
  rw [keyOf, hmode, hhier, hbody, hgroup, hdispatch, harity]
  simp only [bind, Except.bind, Numeral.int?_intText]
  rfl

end Pass

/-! ## All passes -/

section Passes

variable {K : Type*} [Field K] [LinearOrder K] (sqrt : K → K) (fmt : Printf K)

theorem records_csvText {passes : List (Pass K)} (hclean : ∀ p ∈ passes, ∀ r ∈ p.rows, r.Clean) :
    records (passes.map (csvText sqrt fmt)) =
      passes.flatMap fun p => p.rows.map (Row.record sqrt fmt p) := by
  rw [records, List.flatMap_map]
  exact List.flatMap_congr fun p hp => dictReader_csvText sqrt fmt p (hclean p hp)

/-- Loading what the passes printed succeeds and files every row of every pass under its
own key, in pass and then row order, with each named field as printed. -/
theorem csv_round_trip (passes : List (Pass K)) (hclean : ∀ p ∈ passes, ∀ r ∈ p.rows, r.Clean) :
    ∃ table, load (passes.map (csvText sqrt fmt)) = .ok table ∧
      (∀ k, table.entries k = passes.flatMap fun p =>
        (p.rows.filter fun r => r.key = k).map (Row.record sqrt fmt p)) ∧
      (∀ k, table.get? k ≠ none ↔ ∃ p ∈ passes, ∃ r ∈ p.rows, r.key = k) ∧
      ∀ p r, ∀ nt ∈ r.printed sqrt fmt p, field (Row.record sqrt fmt p r) nt.1 = .ok nt.2 := by
  have hkeyed : ∀ r ∈ records (passes.map (csvText sqrt fmt)), ∃ k, keyOf r = .ok k := by
    rw [records_csvText sqrt fmt hclean]
    intro x hx
    obtain ⟨p, -, hx⟩ := List.mem_flatMap.mp hx
    obtain ⟨r, -, rfl⟩ := List.mem_map.mp hx
    exact ⟨r.key, keyOf_record sqrt fmt p r⟩
  obtain ⟨table, htable⟩ := (load_ok_iff _).mpr hkeyed
  have hentries : ∀ k, table.entries k = passes.flatMap fun p =>
      (p.rows.filter fun r => r.key = k).map (Row.record sqrt fmt p) := by
    intro k
    rw [load_entries htable, records_csvText sqrt fmt hclean, List.filter_flatMap]
    refine List.flatMap_congr fun p _ => ?_
    rw [List.filter_map]
    congr 1
    refine List.filter_congr fun r _ => ?_
    simp [keyOf_record]
  refine ⟨table, htable, hentries, fun k => ?_, fun p r => field_record sqrt fmt p r⟩
  rw [(load_filled htable).get?_ne_none_iff, hentries k]
  simp only [ne_eq, List.flatMap_eq_nil_iff, List.map_eq_nil_iff, List.filter_eq_nil_iff,
    decide_eq_true_eq, not_forall, not_not, exists_prop]

end Passes

/-- The virtual call, measured in flushed caches. -/
def vfRow (mean : ℚ) : Row ℚ where
  name := "vf".toList
  group := "yardstick".toList
  hier := "main".toList
  arity := 1
  touchesReceiver := true
  body := "const".toList
  mode := .clflush
  st := { min := 90, median := 110, p90 := 150, mean := mean, stddev := 12, se := 0 }

def vfPass (mean : ℚ) : Pass ℚ := ⟨.clang 22 1, 64, 2000000000, [vfRow mean]⟩

theorem vfRow_clean (mean : ℚ) : (vfRow mean).Clean := by
  simp only [Row.Clean, vfRow]
  decide

/-- Two passes of one row give the loader an entry of two records. -/
theorem csv_round_trip_two_passes :
    ∃ table, load ([vfPass 112, vfPass 115].map (csvText Rat.sqrt .decimal)) = .ok table ∧
      (table.entries (vfRow 112).key).map (fun r => field r "mean") =
        [.ok (Numeral.fixed 2 112), .ok (Numeral.fixed 2 115)] := by
  have hclean : ∀ p ∈ [vfPass 112, vfPass 115], ∀ r ∈ p.rows, r.Clean := by
    intro p hp r hr
    simp only [List.mem_cons, List.not_mem_nil, or_false] at hp
    rcases hp with rfl | rfl <;> rw [List.mem_singleton.mp hr] <;> exact vfRow_clean _
  obtain ⟨table, htable, hentries, -⟩ :=
    csv_round_trip Rat.sqrt .decimal [vfPass 112, vfPass 115] hclean
  have hkey : (vfRow 115).key = (vfRow 112).key := rfl
  refine ⟨table, htable, ?_⟩
  rw [hentries]
  simp only [List.flatMap_cons, List.flatMap_nil, vfPass, List.filter_cons, List.filter_nil, hkey,
    decide_true, if_true]
  rfl

end OMB
