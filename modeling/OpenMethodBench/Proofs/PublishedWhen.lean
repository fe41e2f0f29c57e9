import Mathlib
import OpenMethodBench.Proofs.Document

/-! When a run of `asmtab.py` prints the whole document: every build is extracted, and the
depths that its prose states are those of every build. -/

namespace OMB

/-! ## Depths -/

theorem dedup_eq_singleton_iff {α : Type*} [DecidableEq α] {xs : List α} {d : α} :
    xs.dedup = [d] ↔ xs ≠ [] ∧ ∀ x ∈ xs, x = d := by
  refine ⟨fun h => ⟨?_, fun x hx => ?_⟩, fun ⟨hne, h⟩ => ?_⟩
  · rintro rfl
    exact absurd h (by simp)
  · exact List.mem_singleton.mp (h ▸ List.mem_dedup.mpr hx)
  · obtain ⟨x, xs', rfl⟩ := List.exists_cons_of_ne_nil hne
    have hrep : x :: xs' = List.replicate (xs'.length + 1) d :=
      List.eq_replicate_of_mem h
    rw [hrep, List.replicate_dedup (Nat.succ_ne_zero _)]

section Uniform

variable {data : Published} {builds : List Text} {label form : Text} {arity : ℕ}

theorem uniform_eq_ok_iff {d : Option ℕ} :
    uniform data builds label form arity = .ok d ↔
      ∃ rows, builds.mapM (cellOf data (label, form, arity)) = .ok rows ∧ rows ≠ [] ∧
        ∀ row ∈ rows, row.depth = d := by
  rw [uniform, Outcome.bind_eq_ok_iff]
  refine exists_congr fun rows => and_congr_right fun _ => ?_
  have hdepths : rows ≠ [] ∧ (∀ row ∈ rows, row.depth = d) ↔
      (rows.map PublishedRow.depth).dedup = [d] := by
    rw [dedup_eq_singleton_iff, List.forall_mem_map, Ne, Ne, List.map_eq_nil_iff]
  rw [hdepths]
  rcases (rows.map PublishedRow.depth).dedup with - | ⟨e, - | ⟨e', es⟩⟩
  · exact ⟨fun h => absurd h (by simp [bind, Except.bind, throw, throwThe, MonadExceptOf.throw, sortedText]),
      fun h => absurd h (by simp)⟩
  · exact ⟨fun h => by rw [Except.ok.inj h], fun h => by rw [List.singleton_inj.mp h]; rfl⟩
  · refine ⟨fun h => ?_, fun h => absurd h (by simp)⟩
    obtain ⟨t, -, h⟩ := Outcome.bind_eq_ok_iff.mp h
    exact absurd h (by simp [throw, throwThe, MonadExceptOf.throw])

end Uniform

/-! ## Rows -/

section Rows

variable {disk : Disk} {bindir : Text} {builds : List (Text × Text)} {data : Published}

theorem RowIn.unique {b : Text × Text} {v : VariantRow} {row row' : PublishedRow}
    (h : RowIn disk bindir b v row) (h' : RowIn disk bindir b v row') : row = row' := by
  obtain ⟨rows, hrows, hmem⟩ := h
  obtain ⟨rows', hrows', hmem'⟩ := h'
  obtain rfl : rows = rows' := Except.ok.inj (hrows.symm.trans hrows')
  obtain ⟨bin, probePath, -, hextract⟩ := extractBuild_eq_ok hrows
  have hnodup : (rows.map Prod.fst).Nodup := by
    rw [map_fst_extract hextract]
    exact List.Nodup.of_map _ variants_nodup
  exact congrArg Prod.snd (List.inj_on_of_nodup_map hnodup hmem hmem' rfl)

theorem cellOf_ok (hnodup : (builds.map Prod.fst).Nodup)
    (hdata : (gather disk bindir builds).res = .ok data) {b : Text × Text} (hb : b ∈ builds)
    {v : VariantRow} (hv : v ∈ variants) : ∃ row, cellOf data v.key b.1 = .ok row := by
  obtain ⟨rows, hrows, hget⟩ := gather_eq_ok hnodup hdata b hb
  obtain ⟨bin, probePath, -, hextract⟩ := extractBuild_eq_ok hrows
  have hmem : v ∈ rows.map Prod.fst := by rwa [map_fst_extract hextract]
  obtain ⟨e, he, rfl⟩ := List.mem_map.mp hmem
  rw [cellOf, hget, Option.bind_some]
  rcases hcell : (keyed rows).get? e.1.key with - | row
  · exact absurd (List.mem_map_of_mem he) (Dict.get?_eq_none_iff.mp hcell e.2)
  · exact ⟨row, rfl⟩

theorem mapM_cellOf_ok (hnodup : (builds.map Prod.fst).Nodup)
    (hdata : (gather disk bindir builds).res = .ok data) {v : VariantRow} (hv : v ∈ variants) :
    ∃ rows, (builds.map Prod.fst).mapM (cellOf data v.key) = .ok rows := by
  refine Outcome.exists_mapM fun n hn => ?_
  obtain ⟨b, hb, rfl⟩ := List.mem_map.mp hn
  exact cellOf_ok hnodup hdata hb hv

/-- What the rows of a dispatch have in common, build by build. -/
theorem forall_rows_iff (hnodup : (builds.map Prod.fst).Nodup)
    (hdata : (gather disk bindir builds).res = .ok data) {v : VariantRow} (hv : v ∈ variants)
    {rows : List PublishedRow} (h : (builds.map Prod.fst).mapM (cellOf data v.key) = .ok rows)
    (P : PublishedRow → Prop) :
    (∀ row ∈ rows, P row) ↔ ∀ b ∈ builds, ∀ row, RowIn disk bindir b v row → P row := by
  have hrows := rowsIn_of_mapM hnodup hdata hv h
  refine ⟨fun hall b hb row hrow => ?_, fun hall row hrow => ?_⟩
  · obtain ⟨row', hmem, hrow'⟩ := Outcome.exists_of_mem_left hrows hb
    exact hrow.unique hrow' ▸ hall row' hmem
  · obtain ⟨b, hb, hin⟩ := Outcome.exists_of_mem_right hrows hrow
    exact hall b hb row hin

theorem gather_ok_iff (hnodup : (builds.map Prod.fst).Nodup) :
    (∃ data, (gather disk bindir builds).res = .ok data) ↔
      ∀ b ∈ builds, ∃ rows, (extractBuild disk bindir b).res = .ok rows := by
  refine ⟨fun ⟨data, hdata⟩ b hb => ?_, fun hall => ?_⟩
  · obtain ⟨rows, hrows, -⟩ := gather_eq_ok hnodup hdata b hb
    exact ⟨rows, hrows⟩
  · have hstep : ∀ data : Published, ∀ b ∈ builds,
        (∃ data', (extractBuild disk bindir b >>= fun rows =>
          pure (data.set b.1 (keyed rows)) : Script Stop Published).res = .ok data') ∧
        (extractBuild disk bindir b >>= fun rows =>
          pure (data.set b.1 (keyed rows)) : Script Stop Published).err =
          (extractBuild disk bindir b).err := by
      intro data b hb
      obtain ⟨rows, hrows⟩ := hall b hb
      rw [Script.res_bind, hrows, Script.err_bind_ok hrows]
      exact ⟨⟨_, rfl⟩, List.append_nil _⟩
    exact (Script.foldlM_writes hstep []).1

theorem uniform_ok_iff (hne : builds ≠ []) (hnodup : (builds.map Prod.fst).Nodup)
    (hdata : (gather disk bindir builds).res = .ok data) {v : VariantRow} (hv : v ∈ variants)
    {d : Option ℕ} :
    uniform data (builds.map Prod.fst) v.label v.form v.arity = .ok d ↔
      ∀ b ∈ builds, ∀ row, RowIn disk bindir b v row → row.depth = d := by
  obtain ⟨rows, hmap⟩ := mapM_cellOf_ok hnodup hdata hv
  have hrows : rows ≠ [] := by
    rintro rfl
    have hlen := (Outcome.mapM_eq_ok_iff.mp hmap).length_eq
    rw [List.length_map, List.length_nil] at hlen
    exact hne (List.length_eq_zero_iff.mp hlen)
  rw [uniform_eq_ok_iff, ← forall_rows_iff hnodup hdata hv hmap fun row => row.depth = d]
  refine ⟨fun h => ?_, fun hall => ⟨rows, hmap, hrows, hall⟩⟩
  obtain ⟨rows', hmap', -, hall⟩ := h
  obtain rfl : rows = rows' := Except.ok.inj (hmap.symm.trans hmap')
  exact hall

end Rows

/-! ## The whole document -/

/-- The dispatches whose one depth the prose states. -/
def statedRows : List VariantRow :=
  [variantRow "vptr_vector" "ref" 1 "v_om_ref1" "group_vector",
    variantRow "indirect" "ref" 1 "v_om_ref1" "group_indirect",
    variantRow "vf (yardstick)" "" 1 "v_vf1" none, variantRow "vptr" "" 1 "v_om_vp1" "group_vector",
    variantRow "inplace" "ref" 1 "v_ip_ref1" "group_inplace",
    variantRow "inplace_ind" "ref" 1 "v_ip_ref1" "group_inplace_ind",
    variantRow "vptr" "" 2 "v_om_vp2" "group_vector",
    variantRow "vptr / indirect" "" 2 "v_om_vp2" "group_indirect"]

/-- The dispatch that the sentence about arity 1 splits the builds by, and its base. -/
def splitRow : VariantRow := variantRow "vptr / indirect" "" 1 "v_om_vp1" "group_indirect"

def baseRow : VariantRow := variantRow "vptr" "" 1 "v_om_vp1" "group_vector"

theorem length_filter_add {α : Type*} {p q : α → Bool} (hpq : ∀ x, p x = true → q x = false)
    (xs : List α) : (xs.filter p).length + (xs.filter q).length =
      (xs.filter fun x => p x || q x).length := by
  induction xs with
  | nil => rfl
  | cons x xs ih =>
    rw [List.filter_cons, List.filter_cons, List.filter_cons]
    cases hp : p x with
    | true =>
      rw [hpq x hp, Bool.true_or, if_pos rfl, if_neg (by decide), if_pos rfl, List.length_cons,
        List.length_cons, ← ih]
      omega
    | false =>
      cases q x with
      | true =>
        rw [Bool.false_or, if_neg (by decide), if_pos rfl, if_pos rfl, List.length_cons,
          List.length_cons, ← ih]
        omega
      | false =>
        rw [Bool.false_or, if_neg (by decide), if_neg (by decide), if_neg (by decide)]
        exact ih

section Shows

variable {data : Published} {names : List Text}

/-- Every build is told to deepen the chain, or to hide the load. -/
theorem split_iff {vpi : List PublishedRow} (hlen : names.length = vpi.length) (base : ℕ) :
    ((names.zip (vpi.map PublishedRow.depth)).filter fun e => e.2 == some base).length +
      ((names.zip (vpi.map PublishedRow.depth)).filter fun e => e.2 == some (base + 1)).length =
      names.length ↔ ∀ row ∈ vpi, row.depth = some base ∨ row.depth = some (base + 1) := by
  have hlenZip : (names.zip (vpi.map PublishedRow.depth)).length = names.length := by
    rw [List.length_zip, List.length_map, hlen, Nat.min_self]
  have hsnd : (names.zip (vpi.map PublishedRow.depth)).map Prod.snd = vpi.map PublishedRow.depth :=
    List.map_snd_zip (by rw [List.length_map, hlen])
  rw [length_filter_add (by simp), ← hlenZip, List.length_filter_eq_length_iff]
  have hiff : (∀ e ∈ names.zip (vpi.map PublishedRow.depth),
      (e.2 == some base || e.2 == some (base + 1)) = true) ↔
      ∀ d ∈ (names.zip (vpi.map PublishedRow.depth)).map Prod.snd,
        d = some base ∨ d = some (base + 1) := by
    simp only [List.forall_mem_map, Bool.or_eq_true, beq_iff_eq]
  rw [hiff, hsnd, List.forall_mem_map]

/-- What `section_shows` asks of the data. -/
theorem sectionShows_ok_iff {fat vpi : List PublishedRow}
    (hfat : names.mapM (cellOf data baseRow.key) = .ok fat)
    (hvpi : names.mapM (cellOf data splitRow.key) = .ok vpi) :
    (∃ t, sectionShows data names = .ok t) ↔
      (∀ v ∈ statedRows, ∃ d, uniform data names v.label v.form v.arity = .ok d) ∧
        ∃ base, uniform data names baseRow.label baseRow.form baseRow.arity = .ok (some base) ∧
          ∀ row ∈ vpi, row.depth = some base ∨ row.depth = some (base + 1) := by
  have hlen := (Outcome.mapM_eq_ok_iff.mp hvpi).length_eq
  rw [statedRows]
  simp only [List.forall_mem_cons]
  refine ⟨?_, ?_⟩
  · rintro ⟨t, h⟩
    obtain ⟨ref1, href1, h⟩ := Outcome.bind_eq_ok_iff.mp h
    obtain ⟨ind1, hind1, h⟩ := Outcome.bind_eq_ok_iff.mp h
    obtain ⟨vf1, hvf1, h⟩ := Outcome.bind_eq_ok_iff.mp h
    obtain ⟨vp1, hvp1, h⟩ := Outcome.bind_eq_ok_iff.mp h
    obtain ⟨ip1, hip1, h⟩ := Outcome.bind_eq_ok_iff.mp h
    obtain ⟨ipi1, hipi1, h⟩ := Outcome.bind_eq_ok_iff.mp h
    obtain ⟨vp2, hvp2, h⟩ := Outcome.bind_eq_ok_iff.mp h
    obtain ⟨vpi2, hvpi2, h⟩ := Outcome.bind_eq_ok_iff.mp h
    obtain ⟨fat', -, h⟩ := Outcome.bind_eq_ok_iff.mp h
    obtain ⟨vpi', hvpi', h⟩ := Outcome.bind_eq_ok_iff.mp h
    obtain rfl : vpi = vpi' := Except.ok.inj (hvpi.symm.trans hvpi')
    refine ⟨⟨⟨ref1, href1⟩, ⟨ind1, hind1⟩, ⟨vf1, hvf1⟩, ⟨vp1, hvp1⟩, ⟨ip1, hip1⟩, ⟨ipi1, hipi1⟩,
      ⟨vp2, hvp2⟩, ⟨vpi2, hvpi2⟩, by simp⟩, ?_⟩
    rcases vp1 with - | base
    · exact absurd h (by simp [throw, throwThe, MonadExceptOf.throw])
    · simp only at h
      split_ifs at h with hcount
      exact ⟨base, hvp1, (split_iff hlen base).mp (not_not.mp hcount)⟩
  · rintro ⟨⟨⟨ref1, href1⟩, ⟨ind1, hind1⟩, ⟨vf1, hvf1⟩, -, ⟨ip1, hip1⟩, ⟨ipi1, hipi1⟩,
      ⟨vp2, hvp2⟩, ⟨vpi2, hvpi2⟩, -⟩, base, hvp1, hsplit⟩
    have hcount := (split_iff hlen base).mpr hsplit
    refine Outcome.exists_bind href1 (Outcome.exists_bind hind1 (Outcome.exists_bind hvf1
      (Outcome.exists_bind hvp1 (Outcome.exists_bind hip1 (Outcome.exists_bind hipi1
      (Outcome.exists_bind hvp2 (Outcome.exists_bind hvpi2 (Outcome.exists_bind hfat
      (Outcome.exists_bind hvpi ?_)))))))))
    simp only
    rw [if_neg (not_not.mpr hcount)]
    exact ⟨_, rfl⟩

end Shows

section Printed

variable {disk : Disk} {bindir : Text} {builds : List (Text × Text)} {data : Published}

theorem exists_sectionSummary (hnodup : (builds.map Prod.fst).Nodup)
    (hdata : (gather disk bindir builds).res = .ok data) :
    ∃ ls, sectionSummary data (builds.map Prod.fst) = .ok ls := by
  have hrows : ∃ rows, byArity.mapM (summaryRow data (builds.map Prod.fst)) = .ok rows := by
    refine Outcome.exists_mapM fun v hv => ?_
    obtain ⟨rows, hmap⟩ := mapM_cellOf_ok hnodup hdata (mem_variants_of_byArity v hv)
    exact Outcome.exists_bind hmap ⟨_, rfl⟩
  obtain ⟨rows, hrows⟩ := hrows
  exact Outcome.exists_bind hrows ⟨_, rfl⟩

theorem exists_sectionListings (hne : builds ≠ []) (hnodup : (builds.map Prod.fst).Nodup)
    (hdata : (gather disk bindir builds).res = .ok data) :
    ∃ ls, sectionListings data (builds.map Prod.fst) = .ok ls := by
  have hlss : ∃ lss, byArity.mapM (listingLines data (builds.map Prod.fst)) = .ok lss := by
    refine Outcome.exists_mapM fun v hv => ?_
    have hvariant := mem_variants_of_byArity v hv
    obtain ⟨rows, hmap⟩ := mapM_cellOf_ok hnodup hdata hvariant
    refine Outcome.exists_bind hmap ?_
    -- a row has lines, for the slice keeps the call
    obtain ⟨b, hb⟩ := List.exists_mem_of_ne_nil builds hne
    obtain ⟨row, hrow, brows, hbrows, hmem⟩ :=
      Outcome.exists_of_mem_left (rowsIn_of_mapM hnodup hdata hvariant hmap) hb
    obtain ⟨bin, probePath, -, hextract⟩ := extractBuild_eq_ok hbrows
    obtain ⟨l, hl⟩ := List.exists_mem_of_ne_nil row.lines (published_ne_nil hextract hmem)
    have hlen : l.length ∈ (rows.flatMap PublishedRow.lines).map List.length :=
      List.mem_map_of_mem (List.mem_flatMap.mpr ⟨row, hrow, hl⟩)
    obtain ⟨longest, hmax⟩ := Option.isSome_iff_exists.mp (List.isSome_max?_of_mem hlen)
    rw [hmax]
    exact ⟨_, rfl⟩
  obtain ⟨lss, hlss⟩ := hlss
  exact Outcome.exists_bind hlss ⟨_, rfl⟩

/-- The depths that the prose states are those of every build. -/
structure DepthsAsStated (disk : Disk) (bindir : Text) (builds : List (Text × Text)) : Prop where
  uniform : ∀ v ∈ statedRows, ∃ d, ∀ b ∈ builds, ∀ row, RowIn disk bindir b v row → row.depth = d
  split : ∃ base, ∀ b ∈ builds,
    (∀ row, RowIn disk bindir b baseRow row → row.depth = some base) ∧
      ∀ row, RowIn disk bindir b splitRow row →
        row.depth = some base ∨ row.depth = some (base + 1)

theorem sectionShows_published_iff (hne : builds ≠ []) (hnodup : (builds.map Prod.fst).Nodup)
    (hdata : (gather disk bindir builds).res = .ok data) :
    (∃ t, sectionShows data (builds.map Prod.fst) = .ok t) ↔ DepthsAsStated disk bindir builds := by
  have hbase : baseRow ∈ variants := by decide
  have hsplit : splitRow ∈ variants := by decide
  have hstated : ∀ v ∈ statedRows, v ∈ variants := by decide
  obtain ⟨fat, hfat⟩ := mapM_cellOf_ok hnodup hdata hbase
  obtain ⟨vpi, hvpi⟩ := mapM_cellOf_ok hnodup hdata hsplit
  rw [sectionShows_ok_iff hfat hvpi]
  refine ⟨fun ⟨hall, base, hone, hrows⟩ => ⟨fun v hv => ?_, base, fun b hb => ⟨?_, ?_⟩⟩, fun h => ⟨fun v hv => ?_, ?_⟩⟩
  · obtain ⟨d, hd⟩ := hall v hv
    exact ⟨d, (uniform_ok_iff hne hnodup hdata (hstated v hv)).mp hd⟩
  · exact (uniform_ok_iff hne hnodup hdata hbase).mp hone b hb
  · exact (forall_rows_iff hnodup hdata hsplit hvpi _).mp hrows b hb
  · obtain ⟨d, hd⟩ := h.uniform v hv
    exact ⟨d, (uniform_ok_iff hne hnodup hdata (hstated v hv)).mpr hd⟩
  · obtain ⟨base, hall⟩ := h.split
    exact ⟨base, (uniform_ok_iff hne hnodup hdata hbase).mpr fun b hb => (hall b hb).1,
      (forall_rows_iff hnodup hdata hsplit hvpi _).mpr fun b hb => (hall b hb).2⟩

theorem printedSections_ok_iff (hne : builds ≠ []) (hnodup : (builds.map Prod.fst).Nodup)
    (hdata : (gather disk bindir builds).res = .ok data) (which : AsmSection) :
    (∃ printed, printedSections data (builds.map Prod.fst) which = .ok printed) ↔
      (which = .all → DepthsAsStated disk bindir builds) := by
  obtain ⟨summary, hsummary⟩ := exists_sectionSummary hnodup hdata
  obtain ⟨listings, hlistings⟩ := exists_sectionListings hne hnodup hdata
  cases which with
  | summary =>
    refine ⟨fun _ h => absurd h (by decide), fun _ => ?_⟩
    exact Outcome.exists_bind hsummary ⟨_, rfl⟩
  | listings => exact ⟨fun _ h => absurd h (by decide), fun _ => ⟨listings, hlistings⟩⟩
  | all =>
    rw [← sectionShows_published_iff hne hnodup hdata]
    refine ⟨fun ⟨printed, h⟩ _ => ?_, fun h => ?_⟩
    · obtain ⟨_, _, shows, -, -, hshows, -⟩ := printedAll_eq_ok h
      exact ⟨shows, hshows⟩
    · obtain ⟨shows, hshows⟩ := h rfl
      exact Outcome.exists_bind hsummary
        (Outcome.exists_bind hlistings (Outcome.exists_bind hshows ⟨_, rfl⟩))

end Printed

/-- A run prints what it is asked for exactly when it extracts every build and, if the prose is
asked for, the depths that it states are those of every build. -/
theorem asmtab_prints_iff {disk : Disk} {builds : List (Text × Text)} {args : List Text}
    {which : AsmSection} {bindir : Text} (hargs : parseArguments args = .ok (which, bindir))
    (hne : builds ≠ []) (hnodup : (builds.map Prod.fst).Nodup) :
    (∃ out, (asmtab disk builds args).res = .ok out) ↔
      (∀ b ∈ builds, ∃ rows, (extractBuild disk bindir b).res = .ok rows) ∧
        (which = .all → DepthsAsStated disk bindir builds) := by
  rw [← gather_ok_iff hnodup]
  refine ⟨fun ⟨out, h⟩ => ?_, fun ⟨⟨data, hdata⟩, hdepths⟩ => ?_⟩
  · obtain ⟨data, printed, hdata, hprinted, -⟩ := asmtab_eq_ok h hargs
    exact ⟨⟨data, hdata⟩, (printedSections_ok_iff hne hnodup hdata which).mp ⟨printed, hprinted⟩⟩
  · obtain ⟨printed, hprinted⟩ := (printedSections_ok_iff hne hnodup hdata which).mpr hdepths
    have hwarn : (warnStale disk bindir builds).res = .ok () := by
      unfold warnStale
      dsimp only
      split_ifs <;> rfl
    exact ⟨_, res_bind_ok hargs (res_bind_ok hwarn (res_bind_ok hdata (res_bind_ok hprinted rfl)))⟩

theorem asmtab_prints_sample : DepthsAsStated sampleDisk "bin".toList sampleBuilds := by
  have hargs : parseArguments [] = .ok (.all, "bin".toList) := rfl
  have hne : sampleBuilds ≠ [] := by decide
  exact ((asmtab_prints_iff hargs hne (by decide)).mp exists_asmtab_sample).2 rfl

end OMB
