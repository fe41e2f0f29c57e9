import Mathlib
import OpenMethodBench.Proofs.ShownProse

/-! What a run of `asmtab.py` prints, read back: the listings show the rows of every build, and
the summary counts them. -/

namespace OMB

/-! ## Rows of a run -/

section Extracted

variable {name path probePath : Text} {bin : Binary} {probe : Option Binary}
  {rows : List (VariantRow × PublishedRow)} {e : VariantRow × PublishedRow}
  (h : (extract name path probePath bin probe).res = .ok rows) (he : e ∈ rows)
include h he

theorem published_ne_nil : e.2.lines ≠ [] := by
  obtain ⟨v, -, -, body, start, last, c, hf, hall, hrow⟩ :=
    Outcome.exists_of_mem_right (published_found h) he
  have hwin : c.win ≠ [] := by
    rw [hf.win]
    exact hf.bracketed.win_ne_nil
  have hrowOf := rowOf_published _ hwin hf.named
    (fun i hi hread => hall i (by rwa [hf.reads i hi])) (wordOf name)
  obtain ⟨named, kept, -, hlast, -, hlines⟩ := hrowOf.lines
  rw [hrow]
  intro hnil
  rw [hnil, List.forall₂_nil_right_iff] at hlines
  rw [hlines] at hlast
  exact absurd hlast List.not_mem_nil

theorem printable_published (hmark : ∀ f ∈ disassemble bin.code, ∀ x ∈ f.2, Unmarked x) :
    ∀ l ∈ e.2.lines, Printable l := by
  intro l hl
  obtain ⟨v, -, -, body, start, last, c, hf, -, hrow⟩ :=
    Outcome.exists_of_mem_right (published_found h) he
  obtain ⟨symbol, hbody⟩ := hf.times
  have hmem : (symbol, body) ∈ disassemble bin.code :=
    (List.mem_filter.mp (hbody ▸ List.mem_singleton_self (symbol, body))).1
  rw [hrow] at hl
  obtain ⟨⟨x, i⟩, hx, rfl⟩ := List.mem_map.mp hl
  have hxwin : x ∈ c.win := List.fst_mem_of_mem_zipIdx (List.mem_of_mem_filter hx)
  have hxbody : x ∈ body := List.mem_of_mem_take (List.mem_of_mem_drop (hf.win ▸ hxwin))
  have htext := (disassemble_sound bin.code).texts (symbol, body) hmem x hxbody
  exact printable_renderLine (hf.named i) htext.1 htext.2 (hmark (symbol, body) hmem x hxbody)

end Extracted

section Gather

variable {disk : Disk} {bindir : Text}

/-- What the rows of a build are filed as. -/
def keyed (rows : List (VariantRow × PublishedRow)) : Dict (Text × Text × ℕ) PublishedRow :=
  rows.map fun e => (e.1.key, e.2)

theorem gather_from {builds : List (Text × Text)} {data data' : Published}
    (hnodup : (builds.map Prod.fst).Nodup)
    (h : (builds.foldlM (fun data b => do
      let rows ← extractBuild disk bindir b
      return data.set b.1 (keyed rows)) data : Script Stop Published).res = .ok data') :
    (∀ b ∈ builds, ∃ rows, (extractBuild disk bindir b).res = .ok rows ∧
      data'.get? b.1 = some (keyed rows)) ∧
      ∀ n, n ∉ builds.map Prod.fst → data'.get? n = data.get? n := by
  induction builds generalizing data with
  | nil =>
    obtain rfl := Except.ok.inj h
    exact ⟨by simp, fun _ _ => rfl⟩
  | cons b builds ih =>
    rw [List.map_cons, List.nodup_cons] at hnodup
    rw [List.foldlM_cons] at h
    obtain ⟨next, hnext, h⟩ := ok_of_bind_res h
    obtain ⟨rows, hrows, hset⟩ := ok_of_bind_res hnext
    obtain rfl : data.set b.1 (keyed rows) = next := Except.ok.inj hset
    obtain ⟨hall, hother⟩ := ih hnodup.2 h
    refine ⟨fun b' hb' => ?_, fun n hn => ?_⟩
    · rcases List.mem_cons.mp hb' with rfl | hb'
      · exact ⟨rows, hrows, by rw [hother _ hnodup.1, Dict.get?_set, if_pos rfl]⟩
      · exact hall b' hb'
    · rw [List.map_cons, List.mem_cons, not_or] at hn
      rw [hother n hn.2, Dict.get?_set, if_neg (Ne.symm hn.1)]

theorem gather_eq_ok {builds : List (Text × Text)} {data : Published}
    (hnodup : (builds.map Prod.fst).Nodup) (h : (gather disk bindir builds).res = .ok data) :
    ∀ b ∈ builds, ∃ rows, (extractBuild disk bindir b).res = .ok rows ∧
      data.get? b.1 = some (keyed rows) := (gather_from hnodup h).1

/-- The row of a dispatch in a build. -/
def RowIn (disk : Disk) (bindir : Text) (b : Text × Text) (v : VariantRow) (row : PublishedRow) : Prop :=
  ∃ rows, (extractBuild disk bindir b).res = .ok rows ∧ (v, row) ∈ rows

theorem extractBuild_eq_ok {b : Text × Text} {rows : List (VariantRow × PublishedRow)}
    (h : (extractBuild disk bindir b).res = .ok rows) :
    ∃ bin probePath, disk.objdump (pathIn bindir b.2) = .ok bin ∧
      (extract b.1 (pathIn bindir b.2) probePath bin (disk.probe probePath)).res = .ok rows := by
  obtain ⟨bin, hbin, h⟩ := ok_of_bind_res h
  exact ⟨bin, _, hbin, h⟩

theorem key_injective {v w : VariantRow} (hv : v ∈ variants) (hw : w ∈ variants)
    (h : v.key = w.key) : v = w := List.inj_on_of_nodup_map variants_nodup hv hw h

theorem rowIn_of_cellOf {builds : List (Text × Text)} {data : Published}
    (hnodup : (builds.map Prod.fst).Nodup) (h : (gather disk bindir builds).res = .ok data)
    {b : Text × Text} (hb : b ∈ builds) {v : VariantRow} (hv : v ∈ variants) {row : PublishedRow}
    (hrow : cellOf data v.key b.1 = .ok row) : RowIn disk bindir b v row := by
  obtain ⟨rows, hrows, hget⟩ := gather_eq_ok hnodup h b hb
  refine ⟨rows, hrows, ?_⟩
  rw [cellOf, hget, Option.bind_some] at hrow
  rcases hcell : (keyed rows).get? v.key with - | found
  · rw [hcell] at hrow
    exact absurd hrow (by simp)
  · rw [hcell] at hrow
    obtain rfl := Except.ok.inj hrow
    obtain ⟨e, he, heq⟩ := List.mem_map.mp (Dict.mem_of_get? hcell)
    obtain ⟨hkey, rfl⟩ := Prod.mk.inj heq
    obtain ⟨bin, probePath, -, hextract⟩ := extractBuild_eq_ok hrows
    have hmem : e.1 ∈ variants := by
      rw [← map_fst_extract hextract]
      exact List.mem_map_of_mem he
    rw [← key_injective hmem hv hkey]
    exact he

end Gather

/-! ## The run -/

/-- What a reader relies on: the builds are told apart by names that are not taken for markup,
and no instruction of theirs is taken for it. -/
structure Readable (disk : Disk) (bindir : Text) (builds : List (Text × Text)) : Prop where
  some_build : builds ≠ []
  distinct : (builds.map Prod.fst).Nodup
  names : ∀ b ∈ builds, PlainName b.1
  insns : ∀ b ∈ builds, ∀ bin, disk.objdump (pathIn bindir b.2) = .ok bin →
    ∀ f ∈ disassemble bin.code, ∀ x ∈ f.2, Unmarked x

section Run

variable {disk : Disk} {bindir : Text} {builds : List (Text × Text)} {args : List Text} {out : Text}
  {which : AsmSection}

theorem asmtab_eq_ok (h : (asmtab disk builds args).res = .ok out)
    (hargs : parseArguments args = .ok (which, bindir)) :
    ∃ data printed, (gather disk bindir builds).res = .ok data ∧
      printedSections data (builds.map Prod.fst) which = .ok printed ∧
      linesOf out = alignLines (printed.flatMap linesOf ++ [[]]) := by
  obtain ⟨parsed, hparsed, h⟩ := ok_of_bind_res h
  obtain rfl : parsed = (which, bindir) := Except.ok.inj (hparsed.symm.trans hargs)
  obtain ⟨-, -, h⟩ := ok_of_bind_res h
  obtain ⟨data, hdata, h⟩ := ok_of_bind_res h
  obtain ⟨printed, hprinted, h⟩ := ok_of_bind_res h
  obtain rfl := Except.ok.inj h
  refine ⟨data, printed, hdata, hprinted, ?_⟩
  rw [← linesOf_buffered]
  exact splitOn_alignTables (buffered printed)

theorem mem_variants_of_byArity : ∀ v ∈ byArity, v ∈ variants := by
  decide

theorem rowsIn_of_mapM {data : Published} (hnodup : (builds.map Prod.fst).Nodup)
    (hdata : (gather disk bindir builds).res = .ok data) {v : VariantRow} (hv : v ∈ variants)
    {rows : List PublishedRow} (h : (builds.map Prod.fst).mapM (cellOf data v.key) = .ok rows) :
    List.Forall₂ (fun b row => RowIn disk bindir b v row) builds rows := by
  have hrows := Outcome.mapM_eq_ok_iff.mp h
  rw [List.forall₂_map_left_iff] at hrows
  refine List.forall₂_iff_get.mpr ⟨hrows.length_eq, fun i hi hj => ?_⟩
  exact rowIn_of_cellOf hnodup hdata (List.get_mem builds ⟨i, hi⟩) hv
    ((List.forall₂_iff_get.mp hrows).2 i hi hj)

theorem Readable.plainNames (hread : Readable disk bindir builds) :
    ∀ n ∈ builds.map Prod.fst, PlainName n := by
  intro n hn
  obtain ⟨b, hb, rfl⟩ := List.mem_map.mp hn
  exact hread.names b hb

variable {data : Published} (hread : Readable disk bindir builds)
  (hdata : (gather disk bindir builds).res = .ok data)
include hread hdata

theorem printable_of_mapM {v : VariantRow} (hv : v ∈ variants) {rows : List PublishedRow}
    (h : (builds.map Prod.fst).mapM (cellOf data v.key) = .ok rows) :
    ∀ row ∈ rows, ∀ l ∈ row.lines, Printable l := by
  intro row hrow
  obtain ⟨b, hb, brows, hbrows, hmem⟩ :=
    Outcome.exists_of_mem_right (rowsIn_of_mapM hread.distinct hdata hv h) hrow
  obtain ⟨bin, probePath, hbin, hextract⟩ := extractBuild_eq_ok hbrows
  exact printable_published hextract hmem (hread.insns b hb bin hbin)

/-- The listings of a run, as lines that are read back. -/
theorem sectionListings_spec {ls : List Text}
    (h : sectionListings data (builds.map Prod.fst) = .ok ls) :
    (∀ l ∈ ls, Plain l) ∧ ∃ lss shown, ls = lss.flatten ∧ List.Forall₂ Shows lss shown ∧
      List.Forall₂ (fun v s => s.title = listingTitle v ∧
        List.Forall₂ (fun b col => ∃ row, RowIn disk bindir b v row ∧
          col = row.lines.map Text.rstrip) builds s.columns) byArity shown := by
  obtain ⟨lss, hlss, h⟩ := Outcome.bind_eq_ok_iff.mp h
  obtain rfl := Except.ok.inj h
  obtain ⟨shown, hshown, hplain, hrows⟩ := shows_listings hread.plainNames
    (fun v hv rows hmap => printable_of_mapM hread hdata hv hmap) mem_variants_of_byArity
    (Outcome.mapM_eq_ok_iff.mp hlss)
  refine ⟨hplain, lss, shown, rfl, hshown, List.forall₂_iff_get.mpr ⟨hrows.length_eq, fun i hi hj => ?_⟩⟩
  obtain ⟨rows, hmap, hs⟩ := (List.forall₂_iff_get.mp hrows).2 i hi hj
  rw [hs]
  refine ⟨rfl, ?_⟩
  rw [List.forall₂_map_right_iff]
  exact (rowsIn_of_mapM hread.distinct hdata (mem_variants_of_byArity _ (List.get_mem byArity ⟨i, hi⟩)) hmap).imp
    fun b row hrow => ⟨row, hrow, rfl⟩

theorem sectionSummary_rows {ls : List Text}
    (h : sectionSummary data (builds.map Prod.fst) = .ok ls) :
    (∀ l ∈ ls, isRow l = true ∧ '\n' ∉ l) ∧ ls ≠ [] ∧
      List.Forall₂ (fun v cells => ∃ counts, cells = rowLabel v.label v.form :: decimal v.arity :: counts ∧
        List.Forall₂ (fun b c => ∃ row, RowIn disk bindir b v row ∧ c = countCell row) builds counts)
        byArity (((alignBlock ls).map cellsOf).drop 2) := by
  have hne : builds.map Prod.fst ≠ [] := by simpa using hread.some_build
  obtain ⟨hlines, hls, hrows⟩ := sectionSummary_spec hne hread.plainNames h
  refine ⟨hlines, hls, List.forall₂_iff_get.mpr ⟨hrows.length_eq, fun i hi hj => ?_⟩⟩
  obtain ⟨rows, hmap, hcells⟩ := (List.forall₂_iff_get.mp hrows).2 i hi hj
  refine ⟨rows.map countCell, hcells, ?_⟩
  rw [List.forall₂_map_right_iff]
  exact (rowsIn_of_mapM hread.distinct hdata (mem_variants_of_byArity _ (List.get_mem byArity ⟨i, hi⟩)) hmap).imp
    fun b row hrow => ⟨row, hrow, rfl⟩

end Run

/-- Text, a table, and text: only the table is aligned. -/
theorem alignLines_around {before block after : List Text} (hbefore : ∀ l ∈ before, isRow l = false)
    (hblock : ∀ l ∈ block, isRow l = true) (hne : block ≠ []) (hafter : ∀ l ∈ after, isRow l = false) :
    alignLines (before ++ (block ++ after)) = before ++ (alignBlock block ++ after) := by
  have hhead : ∀ l ∈ after.head?, isRow l = false := fun l hl => hafter l (List.mem_of_head? hl)
  rw [alignLines_append hbefore, alignLines_block hne hblock hhead, alignLines_of_not_isRow hafter]

theorem readRows_around {before block after : List Text} (hbefore : ∀ l ∈ before, isRow l = false)
    (hafter : ∀ l ∈ after, isRow l = false) :
    readRows (before ++ (alignBlock block ++ after)) = (alignBlock block).map cellsOf := by
  have hother : ∀ ls : List Text, (∀ l ∈ ls, isRow l = false) → ls.filter isRow = [] :=
    fun ls h => List.filter_eq_nil_iff.mpr fun l hl => by simp [h l hl]
  rw [readRows, List.filter_append, List.filter_append, hother before hbefore, hother after hafter,
    List.filter_eq_self.mpr (alignBlock_isRow block), List.nil_append, List.append_nil]

section Sections

variable {disk : Disk} {bindir : Text} {builds : List (Text × Text)} {data : Published}

/-- The lines of the whole document: prose, the summary, the listings, and prose. -/
theorem printedAll_eq_ok {printed : List Text} {names : List Text}
    (h : printedSections data names .all = .ok printed) :
    ∃ summary listings shows, sectionSummary data names = .ok summary ∧
      sectionListings data names = .ok listings ∧ sectionShows data names = .ok shows ∧
      printed = prose introText ::
        (summary ++ ([] :: "### The listings".toList :: [] :: (listings ++ [shows]))) := by
  obtain ⟨summary, hsummary, h⟩ := Outcome.bind_eq_ok_iff.mp h
  obtain ⟨listings, hlistings, h⟩ := Outcome.bind_eq_ok_iff.mp h
  obtain ⟨shows, hshows, h⟩ := Outcome.bind_eq_ok_iff.mp h
  exact ⟨summary, listings, shows, hsummary, hlistings, hshows, (Except.ok.inj h).symm⟩

/-- The whole document: what stands before the listings, with the summary aligned, the listings,
and what stands after them. -/
theorem linesOf_all (hread : Readable disk bindir builds)
    (hdata : (gather disk bindir builds).res = .ok data) {printed : List Text}
    (h : printedSections data (builds.map Prod.fst) .all = .ok printed) :
    ∃ summary listings before after, sectionSummary data (builds.map Prod.fst) = .ok summary ∧
      sectionListings data (builds.map Prod.fst) = .ok listings ∧
      alignLines (printed.flatMap linesOf ++ [[]]) = before ++ (alignBlock summary ++
        ([[], "### The listings".toList, []] ++ (listings ++ after))) ∧
      (∀ l ∈ before, isRow l = false) ∧ (∀ l ∈ after, isRow l = false) ∧
      openFence ∉ before ∧ openFence ∉ after := by
  obtain ⟨summary, listings, shows, hsummary, hlistings, hshows, rfl⟩ := printedAll_eq_ok h
  have hnames := hread.plainNames
  obtain ⟨hrows, hne, -⟩ := sectionSummary_rows hread hdata hsummary
  obtain ⟨hplain, -⟩ := sectionListings_spec hread hdata hlistings
  have hshown := plain_shows hnames hshows
  refine ⟨summary, listings, linesOf (prose introText), linesOf shows ++ [[]], hsummary, hlistings,
    ?_, plain_intro.1, ?_, plain_intro.2, ?_⟩
  · have hheading : linesOf "### The listings".toList = ["### The listings".toList] := by decide
    have hlines : (prose introText :: (summary ++ ([] :: "### The listings".toList :: [] ::
        (listings ++ [shows])))).flatMap linesOf ++ [[]] = linesOf (prose introText) ++ (summary ++
        ([[], "### The listings".toList, []] ++ (listings ++ (linesOf shows ++ [[]])))) := by
      rw [List.flatMap_cons, List.flatMap_append, flatMap_linesOf fun l hl => (hrows l hl).2,
        List.flatMap_cons, List.flatMap_cons, List.flatMap_cons, List.flatMap_append,
        flatMap_linesOf fun l hl => (hplain l hl).2, List.flatMap_singleton, hheading]
      simp [linesOf]
    rw [hlines, alignLines_around plain_intro.1 (fun l hl => (hrows l hl).1) hne]
    intro l hl
    rcases List.mem_append.mp hl with hl | hl
    · have hfixed : ∀ l ∈ [[], "### The listings".toList, []], isRow l = false := by decide
      exact hfixed l hl
    rcases List.mem_append.mp hl with hl | hl
    · exact (hplain l hl).1
    rcases List.mem_append.mp hl with hl | hl
    · exact hshown.1 l hl
    · rw [List.mem_singleton.mp hl]
      rfl
  · intro l hl
    rcases List.mem_append.mp hl with hl | hl
    · exact hshown.1 l hl
    · rw [List.mem_singleton.mp hl]
      rfl
  · intro hl
    rcases List.mem_append.mp hl with hl | hl
    · exact hshown.2 hl
    · exact absurd hl (by decide)

end Sections

/-- The listings that a run prints show, dispatch by dispatch and build by build, the lines that
`extract` has published. -/
theorem asmtab_listings {disk : Disk} {builds : List (Text × Text)} {args : List Text}
    {which : AsmSection} {bindir out : Text} (hargs : parseArguments args = .ok (which, bindir))
    (hwhich : which ≠ .summary) (hread : Readable disk bindir builds)
    (h : (asmtab disk builds args).res = .ok out) :
    List.Forall₂ (fun v s => s.title = listingTitle v ∧
      List.Forall₂ (fun b col => ∃ row, RowIn disk bindir b v row ∧
        col = row.lines.map Text.rstrip) builds s.columns)
      byArity (readListings [] [] (linesOf out)) := by
  obtain ⟨data, printed, hdata, hprinted, hout⟩ := asmtab_eq_ok h hargs
  rw [hout]
  cases which with
  | summary => exact absurd rfl hwhich
  | listings =>
    obtain ⟨hplain, lss, shown, hlss, hshown, hrows⟩ := sectionListings_spec hread hdata hprinted
    have hlines : ∀ l ∈ printed ++ [[]], isRow l = false := by
      intro l hl
      rcases List.mem_append.mp hl with hl | hl
      · exact (hplain l hl).1
      · rw [List.mem_singleton.mp hl]
        rfl
    rw [flatMap_linesOf fun l hl => (hplain l hl).2, alignLines_of_not_isRow hlines, hlss]
    have hfront : openFence ∉ ([] : List Text) := List.not_mem_nil
    have hblank : openFence ∉ [([] : Text)] := by decide
    have hall := readListings_flatten hshown hfront hblank [] []
    rw [List.nil_append] at hall
    rwa [hall]
  | all =>
    obtain ⟨summary, listings, before, after, -, hlistings, hlines, -, -, hbefore, hafter⟩ :=
      linesOf_all hread hdata hprinted
    obtain ⟨-, lss, shown, hlss, hshown, hrows⟩ := sectionListings_spec hread hdata hlistings
    have hfront : openFence ∉ before ++ (alignBlock summary ++ [[], "### The listings".toList, []]) := by
      simp only [List.mem_append, not_or]
      exact ⟨hbefore, fun hmem => absurd (alignBlock_isRow summary _ hmem) (by decide), by decide⟩
    have hshape : before ++ (alignBlock summary ++
        ([[], "### The listings".toList, []] ++ (listings ++ after))) =
        (before ++ (alignBlock summary ++ [[], "### The listings".toList, []])) ++
          (lss.flatten ++ after) := by
      rw [hlss]
      simp only [List.append_assoc]
    rw [hlines, hshape, readListings_flatten hshown hfront hafter]
    exact hrows

/-- The summary that a run prints counts, dispatch by dispatch and build by build, the lines
that `extract` has published, and gives their depth. -/
theorem asmtab_summary {disk : Disk} {builds : List (Text × Text)} {args : List Text}
    {which : AsmSection} {bindir out : Text} (hargs : parseArguments args = .ok (which, bindir))
    (hwhich : which ≠ .listings) (hread : Readable disk bindir builds)
    (h : (asmtab disk builds args).res = .ok out) :
    List.Forall₂ (fun v cells => ∃ counts,
      cells = rowLabel v.label v.form :: decimal v.arity :: counts ∧
        List.Forall₂ (fun b c => ∃ row, RowIn disk bindir b v row ∧ c = countCell row) builds counts)
      byArity ((readRows (linesOf out)).drop 2) := by
  obtain ⟨data, printed, hdata, hprinted, hout⟩ := asmtab_eq_ok h hargs
  rw [hout]
  cases which with
  | listings => exact absurd rfl hwhich
  | summary =>
    obtain ⟨summary, hsummary, hend⟩ := Outcome.bind_eq_ok_iff.mp hprinted
    obtain rfl := Except.ok.inj hend
    obtain ⟨hrows, hne, hcells⟩ := sectionSummary_rows hread hdata hsummary
    have hblank : ∀ l ∈ [([] : Text), []], isRow l = false := by decide
    have hlines : (summary ++ [[]]).flatMap linesOf ++ [[]] = [] ++ (summary ++ [[], []]) := by
      rw [List.flatMap_append, flatMap_linesOf fun l hl => (hrows l hl).2]
      simp [linesOf]
    rw [hlines, alignLines_around (by simp) (fun l hl => (hrows l hl).1) hne hblank,
      readRows_around (by simp) hblank]
    exact hcells
  | all =>
    obtain ⟨summary, listings, before, after, hsummary, hlistings, hlines, hbefore, hafter, -, -⟩ :=
      linesOf_all hread hdata hprinted
    obtain ⟨-, -, hcells⟩ := sectionSummary_rows hread hdata hsummary
    obtain ⟨hplain, -⟩ := sectionListings_spec hread hdata hlistings
    have hrest : ∀ l ∈ [[], "### The listings".toList, []] ++ (listings ++ after), isRow l = false := by
      intro l hl
      rcases List.mem_append.mp hl with hl | hl
      · have hfixed : ∀ l ∈ [[], "### The listings".toList, []], isRow l = false := by decide
        exact hfixed l hl
      rcases List.mem_append.mp hl with hl | hl
      · exact (hplain l hl).1
      · exact hafter l hl
    rw [hlines, readRows_around hbefore hrest]
    exact hcells

/-! Two builds of one binary. -/

def sampleDisk : Disk where
  objdump _ := .ok sampleBinary
  probe _ := some sampleProbe
  stale _ := false

def sampleBuilds : List (Text × Text) :=
  [("gcc 15".toList, "benchmark-g++-15".toList), ("clang 22".toList, "benchmark-clang++-22".toList)]

theorem readable_sample : Readable sampleDisk "bin".toList sampleBuilds where
  some_build := by decide
  distinct := by decide
  names b hb := by
    have hall : ∀ b ∈ sampleBuilds, '`' ∉ b.1 ∧ '|' ∉ b.1 ∧ '\n' ∉ b.1 := by decide
    obtain ⟨hquote, hpipe, hline⟩ := hall b hb
    exact ⟨hquote, hpipe, hline⟩
  insns b _ bin hbin := by
    obtain rfl : sampleBinary = bin := Except.ok.inj hbin
    unfold Unmarked
    decide +kernel

theorem asmtab_sample : (asmtab sampleDisk sampleBuilds []).res.isOk = true := by
  decide +kernel

theorem exists_asmtab_sample : ∃ out, (asmtab sampleDisk sampleBuilds []).res = .ok out := by
  have hok := asmtab_sample
  rcases h : (asmtab sampleDisk sampleBuilds []).res with e | out
  · rw [h] at hok
    exact absurd hok (by simp [Except.isOk, Except.toBool])
  · exact ⟨out, rfl⟩

theorem asmtab_listings_sample : ∃ out, (asmtab sampleDisk sampleBuilds []).res = .ok out ∧
    List.Forall₂ (fun v s => s.title = listingTitle v ∧
      List.Forall₂ (fun b col => ∃ row, RowIn sampleDisk "bin".toList b v row ∧
        col = row.lines.map Text.rstrip) sampleBuilds s.columns)
      byArity (readListings [] [] (linesOf out)) := by
  obtain ⟨out, h⟩ := exists_asmtab_sample
  have hargs : parseArguments [] = .ok (.all, "bin".toList) := rfl
  exact ⟨out, h, asmtab_listings hargs (by decide) readable_sample h⟩

theorem asmtab_summary_sample : ∃ out, (asmtab sampleDisk sampleBuilds []).res = .ok out ∧
    List.Forall₂ (fun v cells => ∃ counts,
      cells = rowLabel v.label v.form :: decimal v.arity :: counts ∧
        List.Forall₂ (fun b c => ∃ row, RowIn sampleDisk "bin".toList b v row ∧ c = countCell row)
          sampleBuilds counts)
      byArity ((readRows (linesOf out)).drop 2) := by
  obtain ⟨out, h⟩ := exists_asmtab_sample
  have hargs : parseArguments [] = .ok (.all, "bin".toList) := rfl
  exact ⟨out, h, asmtab_summary hargs (by decide) readable_sample h⟩

end OMB
