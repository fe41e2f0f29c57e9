import OpenMethodBench.Lib.Outcome
import OpenMethodBench.Spec.Generator

/-! Which table entries a printed section shows the medians of, and when a section can be
printed at all. -/

namespace OMB

open Outcome

/-! ## What a cell shows -/

/-- The value that is printed. -/
def cyclesShown (v : ℚ) : ℚ := if v < 100 then Numeral.rounded 1 v else Numeral.rounded 0 v

def ratioText (ratio : ℚ) : Text := Numeral.fixed 2 ratio ++ ['x']

def costText (ratio net : ℚ) : Text :=
  Numeral.fixed 2 ratio ++ "x (".toList ++ cycles net ++ [')']

/-- The delta is between the values that are printed next to it. -/
def deltaText (direct indirect : ℚ) : Text :=
  cycles direct ++ " → ".toList ++ cycles indirect ++ " (**".toList ++
    Numeral.fixedSigned (if direct < 100 then 1 else 0) (cyclesShown indirect - cyclesShown direct) ++
      "**)".toList

theorem floatText_shown (v : ℚ) : floatText (cycles v) = .ok (cyclesShown v) := by
  rw [floatText, cycles, cyclesShown]
  split_ifs <;> rw [Numeral.decimal?_fixed]

section Cells

variable {data : Table}

theorem ratioCell_ok {k : Key} {c : Cell} (h : ratioCell data k = .ok c) :
    ∃ ratio, med data k "x_net" = .ok ratio ∧ c = ⟨ratioText ratio, [data.entries k]⟩ := by
  obtain ⟨ratio, hratio, h⟩ := bind_eq_ok_iff.mp h
  exact ⟨ratio, hratio, (pure_eq_ok_iff.mp h).symm⟩

theorem indirectCell_ok {keys : Key × Key} {c : Cell} (h : indirectCell data keys = .ok c) :
    ∃ direct indirect, med data keys.1 "disp" = .ok direct ∧ med data keys.2 "disp" = .ok indirect ∧
      c = ⟨deltaText direct indirect, [data.entries keys.1, data.entries keys.2]⟩ := by
  obtain ⟨direct, hdirect, h⟩ := bind_eq_ok_iff.mp h
  obtain ⟨indirect, hindirect, h⟩ := bind_eq_ok_iff.mp h
  obtain ⟨rdv, hrdv, h⟩ := bind_eq_ok_iff.mp h
  obtain ⟨riv, hriv, h⟩ := bind_eq_ok_iff.mp h
  rw [floatText_shown] at hrdv hriv
  obtain rfl := Except.ok.inj hrdv
  obtain rfl := Except.ok.inj hriv
  exact ⟨direct, indirect, hdirect, hindirect, (pure_eq_ok_iff.mp h).symm⟩

theorem matrixCell_ok {col : Text × Table} {k : Key} {c : Cell × List ℚ} (h : matrixCell col k = .ok c) :
    ∃ ratio net, med col.2 k "x_net" = .ok ratio ∧ med col.2 k "net" = .ok net ∧
      c.1 = ⟨costText ratio net, [col.2.entries k, col.2.entries k]⟩ := by
  obtain ⟨rs, hrs, h⟩ := bind_eq_ok_iff.mp h
  obtain ⟨ratios, hratios, h⟩ := bind_eq_ok_iff.mp h
  obtain ⟨net, hnet, h⟩ := bind_eq_ok_iff.mp h
  obtain rfl := pure_eq_ok_iff.mp h
  -- the place that is named where rows are missing does not matter here
  have hrows : rowsOf col.2 k [] = .ok rs := by
    rw [rowsOf] at hrs ⊢
    rcases hget : col.2.get? k with - | rs'
    · rw [hget] at hrs
      exact absurd hrs (by simp)
    · rw [hget] at hrs
      exact hrs
  exact ⟨median ratios, net, bind_ok hrows (bind_ok hratios rfl), hnet, rfl⟩

end Cells

/-! ## What a section reads -/

namespace Block

/-- The entries behind the cells of a block. -/
def uses : Block → List (List Record)
  | table t => t.rows.flatMap fun r => r.cells.flatMap (·.uses)
  | _ => []

/-- The number of passes a block claims. -/
def claims : Block → List ℕ
  | caption _ n _ => [n]
  | _ => []

@[simp] theorem uses_prose (t : Text) : (prose t).uses = [] := rfl

@[simp] theorem uses_caption (before : Text) (n : ℕ) (after : Text) :
    (caption before n after).uses = [] := rfl

/-- Only the table of a section shows medians. -/
theorem uses_section (pre post : List Block) (t : MdTable) (hpre : ∀ b ∈ pre, b.uses = [])
    (hpost : ∀ b ∈ post, b.uses = []) : (pre ++ table t :: post).flatMap uses = (table t).uses := by
  rw [List.flatMap_append, List.flatMap_cons, List.flatMap_eq_nil_iff.mpr hpre,
    List.flatMap_eq_nil_iff.mpr hpost, List.nil_append, List.append_nil]

end Block

/-- A table entry: the table, and the key. -/
abbrev Read := Table × Key

def Read.entries (r : Read) : List Record := r.1.entries r.2

def coldReads (intel zen : Table) (body : Text) : List Read :=
  bothArities.flatMap fun r => [(intel, r.key clflush body), (zen, r.key clflush body)]

def indirectReads (cols : List (Text × Table)) : List Read :=
  indirectRows.flatMap fun (s, arity) => cols.flatMap fun col =>
    [(col.2, (s.keys clflush arity).1), (col.2, (s.keys clflush arity).2)]

def matrixReads (cols : List (Text × Table)) : List Read :=
  bothArities.flatMap fun r => cols.flatMap fun col =>
    let k := r.key clflush "const".toList
    [(col.2, k), (col.2, k)]

/-- The entries the cells of a section are medians of. -/
def sectionReads (x : Inputs) : Section → List Read
  | .results => coldReads x.intel x.zen "const".toList
  | .used => coldReads x.intel x.zen "use".toList
  | .indirect => indirectReads x.indirectCols
  | .matrix => matrixReads x.matrixCols

/-- The tables a section has a column for. -/
def sectionTables (x : Inputs) : Section → List Table
  | .results | .used => [x.intel, x.zen]
  | .indirect => x.indirectCols.map (·.2)
  | .matrix => x.matrixCols.map (·.2)

/-- The keys a section has a cell for. -/
def sectionKeys : Section → List Key
  | .results | .matrix => bothArities.map fun r => r.key clflush "const".toList
  | .used => bothArities.map fun r => r.key clflush "use".toList
  | .indirect => indirectRows.flatMap fun (s, arity) =>
    [(s.keys clflush arity).1, (s.keys clflush arity).2]

theorem mem_coldReads {intel zen : Table} {body : Text} {r : Read} :
    r ∈ coldReads intel zen body ↔
      r.1 ∈ [intel, zen] ∧ r.2 ∈ bothArities.map fun row => row.key clflush body := by
  rw [coldReads, List.mem_flatMap, List.mem_map]
  refine ⟨?_, ?_⟩
  · rintro ⟨row, hrow, hr⟩
    simp only [List.mem_cons, List.not_mem_nil, or_false] at hr
    rcases hr with rfl | rfl
    · exact ⟨by simp, row, hrow, rfl⟩
    · exact ⟨by simp, row, hrow, rfl⟩
  · rintro ⟨ht, row, hrow, hk⟩
    refine ⟨row, hrow, ?_⟩
    obtain ⟨t, k⟩ := r
    simp only [List.mem_cons, List.not_mem_nil, or_false] at ht ⊢
    exact ht.imp (fun h => Prod.ext h hk.symm) fun h => Prod.ext h hk.symm

/-- A section reads every one of its keys from every one of its tables. -/
theorem mem_sectionReads {x : Inputs} {s : Section} {r : Read} :
    r ∈ sectionReads x s ↔ r.1 ∈ sectionTables x s ∧ r.2 ∈ sectionKeys s := by
  obtain ⟨t, k⟩ := r
  cases s with
  | results => exact mem_coldReads
  | used => exact mem_coldReads
  | indirect =>
    simp only [sectionReads, indirectReads, sectionTables, sectionKeys, List.mem_flatMap,
      List.mem_map, List.mem_cons, List.not_mem_nil, or_false, Prod.mk.injEq]
    refine ⟨?_, ?_⟩
    · rintro ⟨sa, hsa, col, hcol, ⟨rfl, rfl⟩ | ⟨rfl, rfl⟩⟩
      · exact ⟨⟨col, hcol, rfl⟩, sa, hsa, Or.inl rfl⟩
      · exact ⟨⟨col, hcol, rfl⟩, sa, hsa, Or.inr rfl⟩
    · rintro ⟨⟨col, hcol, rfl⟩, sa, hsa, hk⟩
      exact ⟨sa, hsa, col, hcol, hk.imp (fun h => ⟨rfl, h⟩) fun h => ⟨rfl, h⟩⟩
  | matrix =>
    simp only [sectionReads, matrixReads, sectionTables, sectionKeys, List.mem_flatMap,
      List.mem_map, List.mem_cons, List.not_mem_nil, or_false, or_self, Prod.mk.injEq]
    refine ⟨?_, ?_⟩
    · rintro ⟨row, hrow, col, hcol, rfl, rfl⟩
      exact ⟨⟨col, hcol, rfl⟩, row, hrow, rfl⟩
    · rintro ⟨⟨col, hcol, rfl⟩, row, hrow, rfl⟩
      exact ⟨row, hrow, col, hcol, rfl, rfl⟩

theorem ratioCell_uses {data : Table} {k : Key} {c : Cell} (h : ratioCell data k = .ok c) :
    c.uses = [data.entries k] := by
  obtain ⟨ratio, -, rfl⟩ := ratioCell_ok h
  rfl

theorem coldTable_uses {intel zen : Table} {body : Text} {t : MdTable}
    (h : coldTable intel zen body = .ok t) :
    (Block.table t).uses = (coldReads intel zen body).map Read.entries := by
  obtain ⟨rows, hrows, h⟩ := bind_eq_ok_iff.mp h
  obtain rfl := pure_eq_ok_iff.mp h
  rw [coldReads, List.map_flatMap]
  refine flatMap_of_mapM hrows fun r _ row hrow => ?_
  obtain ⟨i, hi, hrow⟩ := bind_eq_ok_iff.mp hrow
  obtain ⟨z, hz, hrow⟩ := bind_eq_ok_iff.mp hrow
  rw [← pure_eq_ok_iff.mp hrow]
  simp [ratioCell_uses hi, ratioCell_uses hz, Read.entries]

theorem indirectCell_uses {data : Table} {keys : Key × Key} {c : Cell}
    (h : indirectCell data keys = .ok c) :
    c.uses = [data.entries keys.1, data.entries keys.2] := by
  obtain ⟨direct, indirect, -, -, rfl⟩ := indirectCell_ok h
  rfl

theorem matrixCell_uses {col : Text × Table} {k : Key} {c : Cell × List ℚ}
    (h : matrixCell col k = .ok c) : c.1.uses = [col.2.entries k, col.2.entries k] := by
  obtain ⟨ratio, net, -, -, hcell⟩ := matrixCell_ok h
  rw [hcell]

theorem matrixRow_uses {cols : List (Text × Table)} {r : DispatchRow} {row : TableRow × List ℚ}
    (h : matrixRow cols clflush r = .ok row) :
    row.1.cells.flatMap (·.uses) = cols.flatMap fun col =>
      [col.2.entries (r.key clflush "const".toList), col.2.entries (r.key clflush "const".toList)] := by
  obtain ⟨cells, hcells, h⟩ := bind_eq_ok_iff.mp h
  rw [← pure_eq_ok_iff.mp h, List.flatMap_map]
  exact flatMap_of_mapM hcells fun col _ c hc => matrixCell_uses hc

theorem arityRow_uses (cols : List (Text × Table)) (arity : ℤ) :
    (arityRow cols arity).cells.flatMap (·.uses) = [] := by
  rw [arityRow, List.flatMap_map, List.flatMap_eq_nil_iff]
  exact fun _ _ => rfl

/-! ## The sections -/

theorem sectionResults_uses {intel zen : Table} {build : Text} {passes : ℕ} {bs : List Block}
    (h : sectionResults intel zen build passes = .ok bs) :
    bs.flatMap Block.uses = (coldReads intel zen "const".toList).map Read.entries ∧
      bs.flatMap Block.claims = [passes] := by
  obtain ⟨touchM, -, h⟩ := bind_eq_ok_iff.mp h
  obtain ⟨vfn, -, h⟩ := bind_eq_ok_iff.mp h
  obtain ⟨share, -, h⟩ := bind_eq_ok_iff.mp h
  obtain ⟨t, ht, h⟩ := bind_eq_ok_iff.mp h
  obtain rfl := pure_eq_ok_iff.mp h
  refine ⟨?_, rfl⟩
  rw [← coldTable_uses ht]
  exact Block.uses_section [.prose _, .prose _, buildCaption _ _] [] t (by simp [buildCaption])
    (by simp)

theorem emitWorld_uses {intel zen : Table} {build body caption : Text} {passes : ℕ}
    {bs : List Block} (h : emitWorld intel zen build body passes caption = .ok bs) :
    bs.flatMap Block.uses = (coldReads intel zen body).map Read.entries ∧
      bs.flatMap Block.claims = [passes] := by
  obtain ⟨t, ht, h⟩ := bind_eq_ok_iff.mp h
  obtain rfl := pure_eq_ok_iff.mp h
  refine ⟨?_, rfl⟩
  rw [← coldTable_uses ht]
  exact Block.uses_section [.prose _, buildCaption _ _] [] t (by simp [buildCaption]) (by simp)

theorem sectionIndirect_uses {cols : List (Text × Table)} {passes : ℕ} {bs : List Block}
    (h : sectionIndirect cols passes = .ok bs) :
    bs.flatMap Block.uses = (indirectReads cols).map Read.entries ∧
      bs.flatMap Block.claims = [passes] := by
  obtain ⟨rows, hrows, h⟩ := bind_eq_ok_iff.mp h
  obtain rfl := pure_eq_ok_iff.mp h
  have htable : rows.flatMap (fun r => r.cells.flatMap (·.uses)) =
      (indirectReads cols).map Read.entries := by
    rw [indirectReads, List.map_flatMap]
    refine flatMap_of_mapM hrows fun sa _ row hrow => ?_
    obtain ⟨cells, hcells, hrow⟩ := bind_eq_ok_iff.mp hrow
    rw [← pure_eq_ok_iff.mp hrow, List.map_flatMap]
    exact flatMap_of_mapM hcells fun col _ c hc => indirectCell_uses hc
  refine ⟨?_, rfl⟩
  rw [← htable]
  exact Block.uses_section [.caption _ _ _] [] _ (by simp) (by simp)

theorem sectionMatrix_uses {cols : List (Text × Table)} {passes : ℕ} {bs : List Block}
    (h : sectionMatrix cols passes = .ok bs) :
    bs.flatMap Block.uses = (matrixReads cols).map Read.entries ∧
      bs.flatMap Block.claims = [passes] := by
  obtain ⟨parts, hparts, h⟩ := bind_eq_ok_iff.mp h
  obtain rfl := pure_eq_ok_iff.mp h
  have htable : (parts.flatMap (·.1)).flatMap (fun r => r.cells.flatMap (·.uses)) =
      (matrixReads cols).map Read.entries := by
    rw [matrixReads, bothArities, List.flatMap_assoc, List.map_flatMap, List.flatMap_assoc]
    refine flatMap_of_mapM hparts fun arity _ part hpart => ?_
    obtain ⟨rows, hrows, hpart⟩ := bind_eq_ok_iff.mp hpart
    rw [← pure_eq_ok_iff.mp hpart, List.flatMap_cons, arityRow_uses, List.nil_append,
      List.flatMap_map]
    refine flatMap_of_mapM hrows fun r _ row hrow => ?_
    rw [matrixRow_uses hrow, List.map_flatMap]
    rfl
  refine ⟨?_, rfl⟩
  rw [← htable]
  exact Block.uses_section [.prose _] [matrixCaption _ _] _ (by simp)
    fun b hb => by rw [List.mem_singleton.mp hb]; rfl

/-- The cells of a printed section show the medians of exactly the section's reads, under
a caption that claims the passes it was given. -/
theorem emitSection_uses {x : Inputs} {s : Section} {bs : List Block}
    (h : emitSection x s = .ok bs) :
    bs.flatMap Block.uses = (sectionReads x s).map Read.entries ∧
      bs.flatMap Block.claims = [x.passes] := by
  -- the blank line after a section neither shows a median nor claims a count
  have hblank : ∀ bs : List Block,
      (bs ++ [Block.prose []]).flatMap Block.uses = bs.flatMap Block.uses ∧
        (bs ++ [Block.prose []]).flatMap Block.claims = bs.flatMap Block.claims := by
    intro bs
    simp [Block.claims]
  cases s with
  | results =>
    obtain ⟨bs', hbs, h⟩ := bind_eq_ok_iff.mp h
    obtain rfl := pure_eq_ok_iff.mp h
    rw [(hblank bs').1, (hblank bs').2]
    exact sectionResults_uses hbs
  | used =>
    obtain ⟨bs', hbs, h⟩ := bind_eq_ok_iff.mp h
    obtain rfl := pure_eq_ok_iff.mp h
    rw [(hblank bs').1, (hblank bs').2]
    exact emitWorld_uses hbs
  | indirect =>
    obtain ⟨bs', hbs, h⟩ := bind_eq_ok_iff.mp h
    obtain rfl := pure_eq_ok_iff.mp h
    rw [(hblank bs').1, (hblank bs').2]
    exact sectionIndirect_uses hbs
  | matrix => exact sectionMatrix_uses h

end OMB
