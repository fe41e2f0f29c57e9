import OpenMethodBench.Lib.Text

/-! `align_tables` of `report.py`: every markdown table of a text padded to the widest
content of its columns. -/

namespace OMB

/-- `l.startswith("|")`. -/
def isRow (l : Text) : Bool := l.head? == some '|'

/-- `[c.strip() for c in l.strip().strip("|").split("|")]`. -/
def cellsOf (l : Text) : List Text :=
  ((Text.stripChar '|' (Text.strip l)).splitOn '|').map Text.strip

/-- `re.fullmatch(r"-+", c)`. -/
def isDashes (c : Text) : Bool := !c.isEmpty && c.all (· == '-')

/-- A separator row, told before it is padded. -/
def isSep (r : List Text) : Bool := r.all isDashes

/-- `max(len(r) for r in rows)`. -/
def columnCount (rows : List (List Text)) : ℕ := (rows.map List.length).foldr max 0

/-- `r += [""] * (ncols - len(r))`. -/
def padRow (ncols : ℕ) (r : List Text) : List Text := r ++ List.replicate (ncols - r.length) []

/-- The width of column `c`: that of its widest data cell, at least 3. -/
def columnWidth (rows : List (List Text)) (c : ℕ) : ℕ :=
  ((rows.filter fun r => !isSep r).map fun r =>
    ((padRow (columnCount rows) r).getD c []).length).foldr max 3

def columnWidths (rows : List (List Text)) : List ℕ :=
  (List.range (columnCount rows)).map (columnWidth rows)

/-- `["-" * w if s else v.ljust(w) for v, w in zip(r, widths)]`. -/
def alignedCells (widths : List ℕ) (sep : Bool) (r : List Text) : List Text :=
  r.zipWith (fun v w => if sep then List.replicate w '-' else Text.ljust w v) widths

/-- `"| " + " | ".join(cells) + " |"`. -/
def rowText (cells : List Text) : Text :=
  "| ".toList ++ " | ".toList.intercalate cells ++ " |".toList

/-- One block of table lines. -/
def alignBlock (block : List Text) : List Text :=
  let rows := block.map cellsOf
  rows.map fun r =>
    rowText (alignedCells (columnWidths rows) (isSep r) (padRow (columnCount rows) r))

/-- The loop over the lines: a block runs as long as its lines start with a pipe. -/
def alignLines : List Text → List Text
  | [] => []
  | l :: ls =>
    if isRow l then alignBlock (l :: ls.takeWhile isRow) ++ alignLines (ls.dropWhile isRow)
    else l :: alignLines ls
termination_by ls => ls.length
decreasing_by
  · have := (List.dropWhile_sublist isRow (l := ls)).length_le
    simp
    omega
  · simp

/-- Pad every markdown table of a text. -/
def alignTables (text : Text) : Text := Text.join '\n' (alignLines (text.splitOn '\n'))

end OMB
