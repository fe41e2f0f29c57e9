import Mathlib
import OpenMethodBench.Spec.Align
import OpenMethodBench.Spec.Generator

/-! What `report.py` writes, and the tables that a reader of it finds. -/

namespace OMB

/-- `buf.getvalue()`. -/
def bufferOf (out : List (Section × List Block)) : Text :=
  out.flatMap fun sb => sb.2.flatMap Block.text

/-- `main`: what goes to stdout. -/
def written (conf : Text) (fs : FileSystem) (args : List Text) : Script Stop Text := do
  let out ← main conf fs args
  return alignTables (bufferOf out)

/-! ## What a reader finds -/

/-- The rows of a block of table lines, but for the rule. -/
def dataRows (block : List Text) : List (List Text) := (block.map cellsOf).filter fun r => !isSep r

/-- The tables among some lines. -/
def readTables : List Text → List (List (List Text))
  | [] => []
  | l :: ls =>
    if isRow l then dataRows (l :: ls.takeWhile isRow) :: readTables (ls.dropWhile isRow)
    else readTables ls
termination_by ls => ls.length
decreasing_by
  · have := (List.dropWhile_sublist isRow (l := ls)).length_le
    simp only [List.length_cons]
    omega
  · simp

/-- The cells of a row. -/
def TableRow.texts (r : TableRow) : List Text := r.head ++ r.cells.map Cell.text

/-- A table as it is meant to be read. -/
def MdTable.shown (t : MdTable) : List (List Text) := t.header :: t.rows.map TableRow.texts

end OMB
