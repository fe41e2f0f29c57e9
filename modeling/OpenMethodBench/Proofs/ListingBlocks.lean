import Mathlib
import OpenMethodBench.Proofs.Aligning
import OpenMethodBench.Proofs.ReadBack

/-! Lines that `align_tables` leaves alone, and the listings among them, as they are read. -/

namespace OMB

/-! ## Lines of the buffer -/

theorem linesOf_of_not_mem {l : Text} (h : '\n' ∉ l) : linesOf l = [l] := List.splitOn_eq_singleton h

theorem linesOf_buffered (printed : List Text) :
    linesOf (buffered printed) = printed.flatMap linesOf ++ [[]] := by
  induction printed with
  | nil => rfl
  | cons t printed ih =>
    change linesOf (t ++ ['\n'] ++ buffered printed) = _
    rw [List.append_assoc, List.singleton_append, linesOf_append_cons, ih, List.flatMap_cons,
      List.append_assoc]

theorem flatMap_linesOf {ls : List Text} (h : ∀ l ∈ ls, '\n' ∉ l) : ls.flatMap linesOf = ls := by
  induction ls with
  | nil => rfl
  | cons l ls ih =>
    rw [List.flatMap_cons, linesOf_of_not_mem (h l List.mem_cons_self),
      ih fun m hm => h m (List.mem_cons_of_mem l hm), List.singleton_append]

theorem alignLines_append {ls : List Text} (h : ∀ l ∈ ls, isRow l = false) (rest : List Text) :
    alignLines (ls ++ rest) = ls ++ alignLines rest := by
  induction ls with
  | nil => rfl
  | cons l ls ih =>
    rw [List.cons_append, alignLines_other (h l List.mem_cons_self),
      ih fun m hm => h m (List.mem_cons_of_mem l hm), List.cons_append]

/-- Lines that are no table rows are left as they are. -/
theorem alignLines_of_not_isRow {ls : List Text} (h : ∀ l ∈ ls, isRow l = false) :
    alignLines ls = ls := by
  have happend := alignLines_append h []
  rwa [List.append_nil, alignLines, List.append_nil] at happend

theorem isRow_of_not_mem {l : Text} (h : '|' ∉ l) : isRow l = false := by
  rw [isRow, beq_eq_false_iff_ne]
  intro hhead
  obtain ⟨t, rfl⟩ := List.head?_eq_some_iff.mp hhead
  exact h List.mem_cons_self

theorem isRow_sideBySide {w : ℕ} (hw : 0 < w) {cells : List Text}
    (h : ∀ c ∈ cells.head?, c.head? ≠ some '|') : isRow (Text.sideBySide w cells) = false := by
  rw [isRow, beq_eq_false_iff_ne]
  intro hhead
  obtain ⟨s, -, hline⟩ := Text.exists_rstrip (cells.flatMap (Text.ljust w))
  obtain ⟨t, ht⟩ := List.head?_eq_some_iff.mp hhead
  have hfull : (cells.flatMap (Text.ljust w)).head? = some '|' := by
    rw [hline]
    change (Text.sideBySide w cells ++ s).head? = some '|'
    rw [ht]
    rfl
  rcases cells with - | ⟨c, cells⟩
  · exact absurd hfull (by simp)
  · rcases c with - | ⟨d, c⟩
    · obtain ⟨w, rfl⟩ := Nat.exists_eq_succ_of_ne_zero hw.ne'
      exact absurd hfull (by simp [Text.ljust, List.replicate_succ])
    · exact h _ rfl (by simpa [Text.ljust] using hfull)

/-! ## One listing -/

/-- The name of a build that is not taken for markup. -/
structure PlainName (n : Text) : Prop where
  no_quote : '`' ∉ n
  no_pipe : '|' ∉ n
  no_line : '\n' ∉ n

/-- A line that is left where it is: not a table row, and one line. -/
def Plain (l : Text) : Prop := isRow l = false ∧ '\n' ∉ l

theorem plain_of_mem {l : Text} (h : ∀ c ∈ l, c ≠ '|' ∧ c ≠ '\n') : Plain l :=
  ⟨isRow_of_not_mem fun hc => (h _ hc).1 rfl, fun hc => (h _ hc).2 rfl⟩

theorem listingTitle_spec : ∀ v ∈ variants,
    listingTitle v ≠ openFence ∧ isRow (listingTitle v) = false ∧ '\n' ∉ listingTitle v := by
  decide +kernel

section Listing

variable {builds : List Text} {rows : List PublishedRow}

theorem mem_listingRule {width : ℕ} {c : Char} (h : c ∈ listingRule width builds) :
    c = '-' ∨ c = ' ' := by
  obtain ⟨b, -, hc⟩ := List.mem_flatMap.mp (Text.rstrip_subset _ h)
  rcases List.mem_append.mp hc with hc | hc
  · exact Or.inl (List.eq_of_mem_replicate hc)
  · have hblank : ∀ d ∈ "  ".toList, d = ' ' := by decide
    exact Or.inr (hblank c hc)

theorem plain_head (width : ℕ) (hnames : ∀ n ∈ builds, PlainName n) :
    Plain (Text.sideBySide width builds) ∧ '`' ∉ Text.sideBySide width builds := by
  have hchar : ∀ c ∈ Text.sideBySide width builds, c ≠ '|' ∧ c ≠ '\n' ∧ c ≠ '`' := by
    intro c hc
    rcases Text.mem_sideBySide hc with rfl | ⟨n, hn, hcn⟩
    · decide
    · have hplain := hnames n hn
      exact ⟨fun h => hplain.no_pipe (h ▸ hcn), fun h => hplain.no_line (h ▸ hcn),
        fun h => hplain.no_quote (h ▸ hcn)⟩
  exact ⟨plain_of_mem fun c hc => ⟨(hchar c hc).1, (hchar c hc).2.1⟩, fun h => (hchar _ h).2.2 rfl⟩

theorem plain_grid {width : ℕ} (hw : 0 < width)
    (hprint : ∀ row ∈ rows, ∀ l ∈ row.lines, Printable l) :
    ∀ l ∈ Text.grid width (rows.map PublishedRow.lines), Plain l ∧ '`' ∉ l := by
  intro l hl
  have hchar : ∀ c ∈ l, c ≠ '\n' ∧ c ≠ '`' := by
    intro c hc
    rcases Text.mem_grid hl hc with rfl | ⟨col, hcol, t, ht, hct⟩
    · decide
    · obtain ⟨row, hrow, rfl⟩ := List.mem_map.mp hcol
      have hp := hprint row hrow t ht
      exact ⟨fun h => hp.no_line (h ▸ hct), fun h => hp.no_quote (h ▸ hct)⟩
  refine ⟨⟨?_, fun h => (hchar _ h).1 rfl⟩, fun h => (hchar _ h).2 rfl⟩
  obtain ⟨i, -, rfl⟩ := List.mem_map.mp hl
  refine isRow_sideBySide hw fun c hc => ?_
  rcases rows with - | ⟨row, rows⟩
  · exact absurd hc (by simp)
  · obtain rfl : row.lines.getD i [] = c := Option.some.inj hc
    rw [List.getD_eq_getElem?_getD]
    rcases hget : row.lines[i]? with - | t
    · simp
    · obtain ⟨d, hd, -, hne⟩ := (hprint row List.mem_cons_self t (List.mem_of_getElem? hget)).head
      rw [Option.getD_some, hd]
      exact fun h => hne (Option.some.inj h)

/-- A listing is read as it was set, and nothing in it is taken for the document's markup. -/
theorem shows_listing {title : Text} (htitle : title ≠ openFence ∧ isRow title = false ∧ '\n' ∉ title)
    {longest : ℕ} (hmax : ((rows.flatMap PublishedRow.lines).map List.length).max? = some longest)
    (hlen : builds.length = rows.length) (hnames : ∀ n ∈ builds, PlainName n)
    (hprint : ∀ row ∈ rows, ∀ l ∈ row.lines, Printable l) {ls : List Text}
    (hls : ls = [title, [], openFence, Text.sideBySide (longest + 2) builds,
      listingRule (longest + 2) builds] ++ Text.grid (longest + 2) (rows.map PublishedRow.lines) ++
      [closeFence, []]) :
    Shows ls ⟨title, rows.map fun row => row.lines.map Text.rstrip⟩ ∧ ∀ l ∈ ls, Plain l := by
  obtain ⟨hmem, hle⟩ := List.max?_eq_some_iff.mp hmax
  obtain ⟨widest, hwidest, hlong⟩ := List.mem_map.mp hmem
  obtain ⟨row, hrow, hline⟩ := List.mem_flatMap.mp hwidest
  have hpos : 0 < longest := by
    obtain ⟨c, hc, -⟩ := (hprint row hrow widest hline).head
    obtain ⟨t, rfl⟩ := List.head?_eq_some_iff.mp hc
    rw [← hlong]
    exact Nat.succ_pos t.length
  have hbuilds : builds ≠ [] := by
    rintro rfl
    rw [List.length_nil] at hlen
    rw [List.length_eq_zero_iff.mp hlen.symm] at hrow
    exact absurd hrow List.not_mem_nil
  have hfit : ∀ col ∈ rows.map PublishedRow.lines, ∀ t ∈ col, t.length ≤ longest + 2 := by
    intro col hcol t ht
    obtain ⟨r, hr, rfl⟩ := List.mem_map.mp hcol
    have := hle _ (List.mem_map_of_mem (List.mem_flatMap.mpr ⟨r, hr, ht⟩))
    omega
  have hblank : ∀ col ∈ rows.map PublishedRow.lines, ∀ t ∈ col, Text.rstrip t ≠ [] := by
    intro col hcol t ht
    obtain ⟨r, hr, rfl⟩ := List.mem_map.mp hcol
    exact (hprint r hr t ht).rstrip_ne_nil
  have hhead := plain_head (longest + 2) hnames
  have hrule : Plain (listingRule (longest + 2) builds) ∧ '`' ∉ listingRule (longest + 2) builds :=
    ⟨plain_of_mem fun c hc => by rcases mem_listingRule hc with rfl | rfl <;> decide,
      fun h => by rcases mem_listingRule h with h | h <;> exact absurd h (by decide)⟩
  have hgrid := plain_grid (longest + 1).succ_pos hprint
  have hbody : ∀ l ∈ Text.sideBySide (longest + 2) builds :: listingRule (longest + 2) builds ::
      Text.grid (longest + 2) (rows.map PublishedRow.lines), Plain l ∧ '`' ∉ l := by
    simp only [List.mem_cons]
    rintro l (rfl | rfl | hl)
    · exact hhead
    · exact hrule
    · exact hgrid l hl
  refine ⟨⟨title, _, by rw [hls]; rfl, htitle.1, fun h => (hbody _ h).2 (by decide), ?_⟩, ?_⟩
  · rw [readFenced_listing (by omega) hbuilds (by rw [hlen, List.length_map]) hfit hblank,
      List.map_map]
    rfl
  · have hfixed : Plain [] ∧ Plain openFence ∧ Plain closeFence := by
      unfold Plain
      decide
    rw [hls]
    intro l hl
    simp only [List.cons_append, List.nil_append, List.mem_cons, List.mem_append, List.not_mem_nil,
      or_false] at hl
    rcases hl with rfl | rfl | rfl | rfl | rfl | hl | rfl | rfl
    · exact htitle.2
    · exact hfixed.1
    · exact hfixed.2.1
    · exact hhead.1
    · exact hrule.1
    · exact (hgrid l hl).1
    · exact hfixed.2.2
    · exact hfixed.1

theorem listingLines_eq_ok {data : Published} {v : VariantRow} {ls : List Text}
    (h : listingLines data builds v = .ok ls) :
    ∃ rows longest, builds.mapM (cellOf data v.key) = .ok rows ∧
      ((rows.flatMap PublishedRow.lines).map List.length).max? = some longest ∧
      ls = [listingTitle v, [], openFence, Text.sideBySide (longest + 2) builds,
        listingRule (longest + 2) builds] ++ Text.grid (longest + 2) (rows.map PublishedRow.lines) ++
        [closeFence, []] := by
  obtain ⟨rows, hrows, h⟩ := Outcome.bind_eq_ok_iff.mp h
  refine ⟨rows, ?_⟩
  rcases hmax : ((rows.flatMap PublishedRow.lines).map List.length).max? with - | longest
  · rw [hmax] at h
    exact absurd h (by simp [throw, throwThe, MonadExceptOf.throw])
  · rw [hmax] at h
    exact ⟨longest, hrows, rfl, (Except.ok.inj h).symm⟩

/-- The listings of some variants, each read as it was set. -/
theorem shows_listings {data : Published} (hnames : ∀ n ∈ builds, PlainName n)
    (hprint : ∀ v ∈ variants, ∀ rows, builds.mapM (cellOf data v.key) = .ok rows →
      ∀ row ∈ rows, ∀ l ∈ row.lines, Printable l)
    {vs : List VariantRow} (hvs : ∀ v ∈ vs, v ∈ variants) {lss : List (List Text)}
    (h : List.Forall₂ (fun v ls => listingLines data builds v = .ok ls) vs lss) :
    ∃ shown, List.Forall₂ Shows lss shown ∧ (∀ l ∈ lss.flatten, Plain l) ∧
      List.Forall₂ (fun v s => ∃ rows, builds.mapM (cellOf data v.key) = .ok rows ∧
        s = ⟨listingTitle v, rows.map fun row => row.lines.map Text.rstrip⟩) vs shown := by
  induction h with
  | nil => exact ⟨[], .nil, by simp, .nil⟩
  | @cons v ls vs lss hls _ ih =>
    obtain ⟨shown, hshown, hplain, hrows⟩ := ih fun w hw => hvs w (List.mem_cons_of_mem v hw)
    obtain ⟨rows, longest, hmap, hmax, hlines⟩ := listingLines_eq_ok hls
    have hv := hvs v List.mem_cons_self
    have hlen := (Outcome.mapM_eq_ok_iff.mp hmap).length_eq
    obtain ⟨hone, hfirst⟩ := shows_listing (listingTitle_spec v hv) hmax hlen hnames
      (hprint v hv rows hmap) hlines
    refine ⟨_ :: shown, .cons hone hshown, fun l hl => ?_, .cons ⟨rows, hmap, rfl⟩ hrows⟩
    rw [List.flatten_cons] at hl
    exact (List.mem_append.mp hl).elim (hfirst l) (hplain l)

end Listing

end OMB
