import OpenMethodBench.Spec.Load

/-! The tables of `report.py`: medians over the passes, the rows of each section, and
the cells with the table entries they are medians of. -/

namespace OMB

/-! ## What is printed -/

/-- A cell, and the entries whose medians it shows. -/
structure Cell where
  text : Text
  uses : List (List Record)

structure TableRow where
  head : List Text
  cells : List Cell

structure MdTable where
  header : List Text
  rows : List TableRow

inductive Block
  | prose (t : Text)
  /-- prose that says how many passes stand behind the section's table -/
  | caption (before : Text) (passes : ℕ) (after : Text)
  | table (t : MdTable)

namespace Block

/-- `| a | b |`. -/
def line (cells : List Text) : Text := "| ".toList ++ " | ".toList.intercalate cells ++ " |\n".toList

/-- What the `print`s of a block write. -/
def text : Block → Text
  | prose t => t ++ ['\n']
  | caption before passes after => before ++ Nat.toDigits 10 passes ++ after ++ ['\n']
  | table t => line t.header ++ '|' :: (t.header.flatMap fun _ => "---|".toList) ++ '\n' ::
      t.rows.flatMap fun r => line (r.head ++ r.cells.map (·.text))

end Block

/-! ## Medians -/

/-- `statistics.median` of a non-empty list. -/
def median (xs : List ℚ) : ℚ :=
  let s := xs.mergeSort fun a b => decide (a ≤ b)
  let n := s.length
  if n % 2 = 1 then s.getD (n / 2) 0 else (s.getD (n / 2 - 1) 0 + s.getD (n / 2) 0) / 2

/-- `float(r[name])`. -/
def floatField (name : String) (r : Record) : Except Stop ℚ := do
  match Numeral.decimal? (← field r name) with
  | some q => return q
  | none => throw (.raised "ValueError".toList)

def quoted (t : Text) : Text := "'".toList ++ t ++ "'".toList

/-- The tuple as Python prints it. -/
def Key.text (k : Key) : Text :=
  '(' :: ", ".toList.intercalate [quoted k.mode, quoted k.hier, quoted k.body, quoted k.group,
    quoted k.dispatch, Numeral.intText k.arity] ++ [')']

def incomplete (k : Key) (place : Text) : Text :=
  "results incomplete: no rows for ".toList ++ k.text ++ place ++
    " -- interrupted matrix.sh pass? Re-run ./matrix.sh.".toList

/-- `data[k]`, or the script's complaint about it. -/
def rowsOf (data : Table) (k : Key) (place : Text) : Except Stop (List Record) :=
  match data.get? k with
  | some rs => .ok rs
  | none => .error (.exit (incomplete k place))

/-- `med`. -/
def med (data : Table) (k : Key) (name : String) : Except Stop ℚ := do
  let rs ← rowsOf data k []
  return median (← rs.mapM (floatField name))

/-- `cycles`. -/
def cycles (v : ℚ) : Text := if v < 100 then Numeral.fixed 1 v else Numeral.fixed 0 v

/-! ## Rows -/

/-- `(label, hier, group, dispatch, arity)`. -/
structure DispatchRow where
  label : Text
  hier : Text
  group : Text
  dispatch : Text
  arity : ℤ

def DispatchRow.key (r : DispatchRow) (mode body : Text) : Key :=
  ⟨mode, r.hier, body, r.group, r.dispatch, r.arity⟩

/-- `REGISTRIES`. -/
def reportRegistries : List Text := ["vptr_vector".toList, "indirect".toList]

/-- `INPLACE`. -/
def reportInplace : List Text := ["inplace".toList, "inplace_ind".toList]

/-- `dispatch_rows`. -/
def dispatchRows (arity : ℤ) : List DispatchRow :=
  let yardstick := if arity = 1 then "vf".toList else "vf+vf".toList
  [⟨yardstick, "main".toList, "yardstick".toList, yardstick, arity⟩,
    ⟨"vptr".toList, "main".toList, "vptr_vector".toList, "om vptr".toList, arity⟩,
    ⟨"vptr / indirect".toList, "main".toList, "indirect".toList, "om vptr".toList, arity⟩] ++
  reportRegistries.map (fun reg =>
    ⟨"om ref / ".toList ++ reg, "main".toList, reg, "om ref".toList, arity⟩) ++
  reportInplace.map fun reg => ⟨"om ref / ".toList ++ reg, reg, reg, "om ref".toList, arity⟩

/-- `label_for`. -/
def labelFor (label group : Text) (arity : ℤ) (suffix : Text) : Text :=
  if group != "yardstick".toList then label
  else label ++ if arity = 2 && suffix.isEmpty then " (double dispatch)".toList else suffix

def code (t : Text) : Text := '`' :: t ++ ['`']

def clflush : Text := "clflush".toList

/-! ## Cold tables -/

/-- The `x_net` cell of one machine. -/
def ratioCell (data : Table) (k : Key) : Except Stop Cell := do
  let v ← med data k "x_net"
  return ⟨Numeral.fixed 2 v ++ ['x'], [data.entries k]⟩

/-- The dispatch rows of both arities. -/
def bothArities : List DispatchRow := [1, 2].flatMap dispatchRows

/-- One dispatch on both machines. -/
def coldRow (intel zen : Table) (body : Text) (r : DispatchRow) : Except Stop TableRow := do
  let k := r.key clflush body
  let i ← ratioCell intel k
  let z ← ratioCell zen k
  return ⟨[code (labelFor r.label r.group r.arity []), Numeral.intText r.arity], [i, z]⟩

/-- `cold_table`. -/
def coldTable (intel zen : Table) (body : Text) : Except Stop MdTable := do
  let rows ← bothArities.mapM (coldRow intel zen body)
  return ⟨["dispatch", "arity", "x net (Intel)", "x net (Zen)"].map String.toList, rows⟩

/-- The caption of the single-build tables. -/
def buildCaption (build : Text) (passes : ℕ) : Block :=
  .caption (build ++ ", median of ".toList) passes " passes each.\n".toList

/-- `emit_world`. -/
def emitWorld (intel zen : Table) (build body : Text) (passes : ℕ) (coldCaption : Text) :
    Except Stop (List Block) := do
  let table ← coldTable intel zen body
  return [.prose (coldCaption ++ ['\n']), buildCaption build passes, .table table]

def touchKey : Key := ⟨clflush, "main".toList, ['-'], "baseline".toList, "touch".toList, 1⟩

def vfKey : Key :=
  ⟨clflush, "main".toList, "const".toList, "yardstick".toList, "vf".toList, 1⟩

/-- `a / b` of floats. -/
def divide (a b : ℚ) : Except Stop ℚ :=
  if b = 0 then .error (.raised "ZeroDivisionError".toList) else .ok (a / b)

/-- What `section_results` says above its table. -/
def resultsIntro (share : ℚ) : Text :=
  "`x net` — a row's total call cost over the same-arity `vf` yardstick, ".toList ++
    "in the same\nbuild — is the headline this benchmark reports, and its ".toList ++
    "most reproducible\nfigure: cold, misses dominate, and misses do not ".toList ++
    "care about code layout.\nFlushed, most of a virtual call's cost is ".toList ++
    "reaching the receiver (".toList ++ Numeral.fixed 0 (share * 100) ++ "% of it\n".toList ++
    "here), common to every row, so the ratio is what isolates the mechanism. The\n".toList ++
    "two columns are the two measurement machines, both clang 22: the Intel\n".toList ++
    "Core i7-1280P (Alder Lake) and the AMD Ryzen 9 9955HX (Zen 5). The ".toList ++
    "`inplace`\nrows divide by their own hierarchy's yardstick.\n".toList

/-- `section_results`. -/
def sectionResults (intel zen : Table) (build : Text) (passes : ℕ) :
    Except Stop (List Block) := do
  let touchM ← med intel touchKey "net"
  let vfn ← med intel vfKey "net"
  let share ← divide touchM vfn
  let table ← coldTable intel zen "const".toList
  return [.prose "### Caches cold (`clflush`)\n".toList,
    .prose (resultsIntro share), buildCaption build passes, .table table]

/-! ## The indirect table -/

/-- `SPEC`: label, call form, `(hier, group)` direct and indirect. -/
structure IndirectSpec where
  label : Text
  call : Text
  direct : Text × Text
  indirect : Text × Text

def indirectSpecs : List IndirectSpec :=
  [⟨"`virtual_ptr`".toList, "om vptr".toList, ("main".toList, "vptr_vector".toList),
      ("main".toList, "indirect".toList)⟩,
    ⟨"`virtual_` ref".toList, "om ref".toList, ("main".toList, "vptr_vector".toList),
      ("main".toList, "indirect".toList)⟩,
    ⟨"`inplace` ref".toList, "om ref".toList, ("inplace".toList, "inplace".toList),
      ("inplace_ind".toList, "inplace_ind".toList)⟩]

def IndirectSpec.keys (s : IndirectSpec) (mode : Text) (arity : ℤ) : Key × Key :=
  (⟨mode, s.direct.1, "const".toList, s.direct.2, s.call, arity⟩,
    ⟨mode, s.indirect.1, "const".toList, s.indirect.2, s.call, arity⟩)

/-- `float(t)` of a printed number. -/
def floatText (t : Text) : Except Stop ℚ :=
  match Numeral.decimal? t with
  | some q => .ok q
  | none => .error (.raised "ValueError".toList)

/-- The cell of one compiler; the delta is between the endpoints as printed. -/
def indirectCell (data : Table) (keys : Key × Key) : Except Stop Cell := do
  let dv ← med data keys.1 "disp"
  let iv ← med data keys.2 "disp"
  let rdv ← floatText (cycles dv)
  let riv ← floatText (cycles iv)
  let delta := Numeral.fixedSigned (if dv < 100 then 1 else 0) (riv - rdv)
  return ⟨cycles dv ++ " → ".toList ++ cycles iv ++ " (**".toList ++ delta ++ "**)".toList,
    [data.entries keys.1, data.entries keys.2]⟩

/-- The rows of the indirect table. -/
def indirectRows : List (IndirectSpec × ℤ) := indirectSpecs.flatMap fun s => [(s, 1), (s, 2)]

/-- One call form and arity over all columns. -/
def indirectRow (cols : List (Text × Table)) (row : IndirectSpec × ℤ) : Except Stop TableRow := do
  let cells ← cols.mapM fun col => indirectCell col.2 (row.1.keys clflush row.2)
  return ⟨[row.1.label, Numeral.intText row.2], cells⟩

/-- `section_indirect`. -/
def sectionIndirect (cols : List (Text × Table)) (passes : ℕ) : Except Stop (List Block) := do
  let rows ← indirectRows.mapM (indirectRow cols)
  return [.caption "Median of ".toList passes
      (" passes; `disp` cycles, direct → indirect, ".toList ++ "caches cold.\n".toList),
    .table ⟨["call form".toList, "arity".toList] ++ cols.map (·.1), rows⟩]

/-! ## The matrix -/

def rmax (x : ℚ) (xs : List ℚ) : ℚ := xs.foldl max x

def rmin (x : ℚ) (xs : List ℚ) : ℚ := xs.foldl min x

/-- `(max(xs) - min(xs)) / base * 100`. -/
def spreadOf (xs : List ℚ) (base : ℚ) : ℚ :=
  match xs with
  | [] => 0
  | x :: xs => (rmax x xs - rmin x xs) / base * 100

/-- The cell of one column, and its spread over the passes when there are enough. -/
def matrixCell (col : Text × Table) (k : Key) : Except Stop (Cell × List ℚ) := do
  let rs ← rowsOf col.2 k (" in ".toList ++ col.1)
  let ratios ← rs.mapM (floatField "x_net")
  let ratio := median ratios
  let net ← med col.2 k "net"
  let spread := if 2 < ratios.length && 0 < ratio then [spreadOf ratios ratio] else []
  return (⟨Numeral.fixed 2 ratio ++ "x (".toList ++ cycles net ++ [')'],
    [col.2.entries k, col.2.entries k]⟩, spread)

/-- The row that heads the dispatches of one arity. -/
def arityRow (cols : List (Text × Table)) (arity : ℤ) : TableRow :=
  ⟨["**".toList ++ Numeral.intText arity ++ " virtual argument".toList ++
      (if arity = 1 then [] else ['s']) ++ "**".toList], cols.map fun _ => ⟨[], []⟩⟩

/-- One dispatch over all columns, with the spreads its cells add. -/
def matrixRow (cols : List (Text × Table)) (mode : Text) (r : DispatchRow) :
    Except Stop (TableRow × List ℚ) := do
  let cells ← cols.mapM fun col => matrixCell col (r.key mode "const".toList)
  return (⟨[code (labelFor r.label r.group r.arity " (yardstick)".toList)], cells.map (·.1)⟩,
    cells.flatMap (·.2))

/-- The rows of one arity. -/
def matrixRows (cols : List (Text × Table)) (mode : Text) (arity : ℤ) :
    Except Stop (List TableRow × List ℚ) := do
  let rows ← (dispatchRows arity).mapM (matrixRow cols mode)
  return (arityRow cols arity :: rows.map (·.1), rows.flatMap (·.2))

/-- What follows the matrix table. -/
def matrixCaption (passes : ℕ) (spreads : List ℚ) : Block :=
  let sorted := spreads.mergeSort fun a b => decide (a ≤ b)
  .caption "\nMedian of ".toList passes <|
    if spreads.isEmpty then
      " passes -- too few for spread ".toList ++ "statistics.\n".toList
    else
      " passes. Spread across passes: ".toList ++ "median ".toList ++
        Numeral.fixed 0 (median sorted) ++ "%, p90 ".toList ++
        Numeral.fixed 0 (sorted.getD (sorted.length * 9 / 10) 0) ++ "%.\n".toList

/-- `section_matrix`. -/
def sectionMatrix (cols : List (Text × Table)) (passes : ℕ) : Except Stop (List Block) := do
  let parts ← [1, 2].mapM fun arity => matrixRows cols clflush arity
  return [.prose "#### The compilers\n".toList,
    .table ⟨"dispatch".toList :: cols.map (·.1), parts.flatMap (·.1)⟩,
    matrixCaption passes (parts.flatMap (·.2))]

end OMB
