import OpenMethodBench.Lib.Text

/-! The manifest `compilers.conf` as `report.py` reads it. -/

namespace OMB

/-- The line ends of a file opened as text. -/
def universalNewlines : Text → Text
  | '\r' :: '\n' :: t => '\n' :: universalNewlines t
  | '\r' :: t => '\n' :: universalNewlines t
  | c :: t => c :: universalNewlines t
  | [] => []

/-- `compilers`: the commands, in column order. -/
def compilers (conf : Text) : List Text :=
  (((universalNewlines conf).splitOn '\n').filter fun l =>
    !(Text.strip l).isEmpty && (Text.lstrip l).head? != some '#').map Text.strip

/-- `[0-9][0-9.]*`. -/
def isVersion (v : Text) : Bool :=
  v.head?.any Char.isDigit && v.all fun c => c.isDigit || c == '.'

/-- What follows `name` in a command. -/
def versionAfter (name : String) (cmd : Text) : Option Text :=
  if cmd.take name.length == name.toList && isVersion (cmd.drop name.length) then
    some (cmd.drop name.length)
  else none

/-- `clang++-22` is labelled `clang 22`, `g++-15` `gcc 15`. -/
def labelOf (cmd : Text) : Text :=
  match versionAfter "clang++-" cmd, versionAfter "g++-" cmd with
  | some v, _ => "clang ".toList ++ v
  | none, some v => "gcc ".toList ++ v
  | none, none => cmd

/-- `COLUMNS`: label and file of each compiler. -/
def columns (conf : Text) : List (Text × Text) :=
  (compilers conf).map fun c => (labelOf c, c ++ ".csv".toList)

end OMB
