import OpenMethodBench.Lib.Words
import OpenMethodBench.Spec.Manifest

/-! The manifest `compilers.conf` as `matrix.sh` and `probes.sh` read it: a text without
NULs, in whose words no file name pattern is expanded. -/

namespace OMB

/-- What the unquoted result of a command is split at. -/
def isIfs (c : Char) : Bool := c == ' ' || c == '\t' || c == '\n'

/-- The lines of a file; the last may lack its end. -/
def fileLines (t : Text) : List Text :=
  let ls := t.splitOn '\n'
  if ls.getLast? = some [] then ls.dropLast else ls

/-- `grep -v` of a pattern. -/
def grepV (pattern : Text → Bool) (t : Text) : Text :=
  ((fileLines t).filter fun l => !pattern l).flatMap fun l => l ++ ['\n']

section Locale

/-! `[[:space:]]` depends on the locale. -/
variable (space : Char → Bool)

/-- `^[[:space:]]*#`. -/
def isComment (l : Text) : Bool := (l.dropWhile space).head? == some '#'

/-- `^[[:space:]]*$`. -/
def isBlank (l : Text) : Bool := l.all space

/-- `$(grep -v '^[[:space:]]*#' compilers.conf | grep -v '^[[:space:]]*$')`. -/
def ccList (conf : Text) : Text :=
  (grepV (isBlank space) (grepV (isComment space) conf)).rdropWhile (· == '\n')

/-- The values of `cc` in `for cc in $CC_LIST`. -/
def loopCommands (conf : Text) : List Text := Words.words isIfs (ccList space conf)

/-- The results files of a pass. -/
def resultFiles (conf : Text) : List Text := (loopCommands space conf).map (· ++ ".csv".toList)

/-- `bin/benchmark-$cc`, in `bin`. -/
def benchmarkFiles (conf : Text) : List Text :=
  (loopCommands space conf).map ("benchmark-".toList ++ ·)

/-- `bin/probe-$cc`, in `bin`. -/
def probeFiles (conf : Text) : List Text := (loopCommands space conf).map ("probe-".toList ++ ·)

end Locale

/-- `[[:space:]]` in the POSIX locale. -/
def posixSpace (c : Char) : Bool := c == ' ' || (9 ≤ c.toNat && c.toNat ≤ 13)

end OMB
