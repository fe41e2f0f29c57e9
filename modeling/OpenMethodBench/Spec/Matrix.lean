import Mathlib
import OpenMethodBench.Lib.Steps
import OpenMethodBench.Spec.Generator
import OpenMethodBench.Spec.Scripts

/-! `matrix.sh`: what it does to the results directory, step by step. With `set -e` the first
step that fails ends it; it may also be interrupted after any of them. -/

namespace OMB

/-- The entries of `OUTDIR`, each with its files, in the order in which `rm` comes to them; one that
is no directory has none. -/
abbrev OutDir := Dict Text (Dict Text Text)

/-- What matches `run*`. -/
def isRunName (name : Text) : Bool := "run".toList.isPrefixOf name

/-- `run$k`. -/
def runName (k : ℕ) : Text := "run".toList ++ Nat.toDigits 10 k

/-- `$cc.csv`. -/
def csvName (cc : Text) : Text := cc ++ ".csv".toList

inductive MatrixStep
  /-- `CC_LIST=$(grep ... | grep ...)` -/
  | list
  /-- `command -v "$cc"` -/
  | locate (cc : Text)
  /-- `mkdir -p "$OUTDIR"` -/
  | outdir
  /-- `rm -rf "$OUTDIR"/run*` comes to a file -/
  | unlink (name file : Text)
  /-- it comes to an entry, after the files of it -/
  | rmdir (name : Text)
  /-- it ends -/
  | cleared
  /-- `./build.sh` -/
  | build (cc : Text)
  /-- `"bin/benchmark-$cc" --verify` -/
  | verify (cc : Text)
  /-- `mkdir -p "$dir"` -/
  | mkdir (k : ℕ)
  /-- `> "$dir/$cc.csv"` -/
  | redirect (k : ℕ) (cc : Text)
  /-- one write of the benchmark -/
  | print (k : ℕ) (cc t : Text)
  /-- the benchmark ends -/
  | exit (k : ℕ) (cc : Text)
  deriving DecidableEq, Repr

/-- What the file system lets the script do. -/
structure Storage where
  /-- `OUTDIR` is there, or is made -/
  outdir : Bool
  /-- a file can be removed -/
  unlinks : Text → Text → Bool
  /-- and an entry that has none -/
  rmdirs : Text → Bool
  /-- the directory of a pass is made -/
  makes : ℕ → Bool
  /-- a file of it is opened -/
  opens : ℕ → Text → Bool
  /-- what a step leaves that opens or writes `$dir/$cc.csv` for a `cc` with a slash, which may be no
  file of the pass -/
  elsewhere : MatrixStep → OutDir → Option OutDir

/-- What a run of the script meets. -/
structure Bench where
  disk : Storage
  /-- `command -v` finds the compiler -/
  installed : Text → Bool
  /-- `build.sh` succeeds -/
  builds : Text → Bool
  /-- `--verify` succeeds -/
  verifies : Text → Bool
  /-- what the benchmark prints in a pass, write by write -/
  prints : ℕ → Text → List Text
  /-- and it succeeds -/
  measures : ℕ → Text → Bool

section Locale

variable (space : Char → Bool)

/-- The last `grep` selects a line, or the assignment fails. -/
def anyListed (conf : Text) : Bool := !(grepV (isBlank space) (grepV (isComment space) conf)).isEmpty

/-- The files of a pass, changed. -/
def editPass (out : OutDir) (k : ℕ) (f : Dict Text Text → Dict Text Text) : OutDir :=
  out.set (runName k) (f ((out.get? (runName k)).getD []))

/-- A test of the script. -/
def orEnd (ok : Bool) (out : OutDir) : Option OutDir := if ok then some out else none

/-- What a step leaves of `OUTDIR`, unless it ends the script. `rm` goes on after what it cannot
remove, and fails in the end. -/
def matrixStep (conf : Text) (bench : Bench) (out : OutDir) : MatrixStep → Option OutDir
  | .list => orEnd (anyListed space conf) out
  | .locate cc => orEnd (bench.installed cc) out
  | .outdir => orEnd bench.disk.outdir out
  | .unlink name file => some (if bench.disk.unlinks name file then
      out.map fun e => if e.1 = name then (e.1, e.2.filter fun f => f.1 != file) else e else out)
  | .rmdir name => some (if bench.disk.rmdirs name then
      out.filter fun e => !(e.1 == name && e.2.isEmpty) else out)
  | .cleared => orEnd (out.all fun e => !isRunName e.1) out
  | .build cc => orEnd (bench.builds cc) out
  | .verify cc => orEnd (bench.verifies cc) out
  | .mkdir k => orEnd (bench.disk.makes k) (editPass out k id)
  | .redirect k cc => if cc.contains '/' then bench.disk.elsewhere (.redirect k cc) out else
      orEnd (bench.disk.opens k cc) (editPass out k fun files => files.set (csvName cc) [])
  | .print k cc t => if cc.contains '/' then bench.disk.elsewhere (.print k cc t) out else
      some (editPass out k fun files =>
        files.set (csvName cc) ((files.get? (csvName cc)).getD [] ++ t))
  | .exit k cc => orEnd (bench.measures k cc) out

/-- What `rm` does to an entry. -/
def removeSteps (e : Text × Dict Text Text) : List MatrixStep :=
  e.2.map (fun f => .unlink e.1 f.1) ++ [.rmdir e.1]

/-- And to all that match. -/
def removals (out : OutDir) : List MatrixStep :=
  (out.filter fun e => isRunName e.1).flatMap removeSteps

/-- `rm -rf "$OUTDIR"/run*`. -/
def clearSteps (out : OutDir) : List MatrixStep := removals out ++ [.cleared]

/-- One compiler of a pass. -/
def measureSteps (bench : Bench) (k : ℕ) (cc : Text) : List MatrixStep :=
  .redirect k cc :: ((bench.prints k cc).map (.print k cc) ++ [.exit k cc])

def passSteps (bench : Bench) (ccs : List Text) (k : ℕ) : List MatrixStep :=
  .mkdir k :: ccs.flatMap (measureSteps bench k)

/-- The `k` of the passes; none if `RUNS` is no number for `[`. -/
def passNumbers (runs : Option ℤ) : List ℕ := List.range' 1 (runs.getD 0).toNat

/-- The script, until `rm` has ended. -/
def untilCleared (conf : Text) (out : OutDir) : List MatrixStep :=
  .list :: ((loopCommands space conf).flatMap (fun cc => [.locate cc]) ++ .outdir :: clearSteps out)

/-- The script, from there on. -/
def onceCleared (bench : Bench) (ccs : List Text) (ks : List ℕ) : List MatrixStep :=
  ccs.flatMap (fun cc => [.build cc, .verify cc]) ++ ks.flatMap (passSteps bench ccs)

/-- The script. -/
def matrixSteps (conf : Text) (bench : Bench) (runs : Option ℤ) (out : OutDir) : List MatrixStep :=
  untilCleared space conf out ++ onceCleared bench (loopCommands space conf) (passNumbers runs)

end Locale

/-- The run directories of `OUTDIR` as `report.py` finds them:
`sorted(glob.glob(os.path.join(root, "run*")))`. -/
def runDirs (out : OutDir) : List RunDir :=
  ((out.filter fun e => isRunName e.1).mergeSort fun a b => decide (a.1 ≤ b.1)).map fun e name =>
    e.2.get? name

/-! ## What a run is meant to leave -/

/-- The commands are file names, and none is there twice: each has its own file in a pass. -/
structure PlainCommands (ccs : List Text) : Prop where
  nodup : ccs.Nodup
  noSlash : ∀ cc ∈ ccs, '/' ∉ cc

/-- What the benchmark of a compiler prints in a pass. -/
def Bench.csv (bench : Bench) (k : ℕ) (cc : Text) : Text := (bench.prints k cc).flatten

/-- A pass over some compilers. -/
def Bench.pass (bench : Bench) (ccs : List Text) (k : ℕ) : Text × Dict Text Text :=
  (runName k, ccs.map fun cc => (csvName cc, bench.csv k cc))

/-- What is no run directory. -/
def others (out : OutDir) : OutDir := out.filter fun e => !isRunName e.1

end OMB
