import OpenMethodBench.Lib.Script
import OpenMethodBench.Spec.Manifest
import OpenMethodBench.Spec.Tables

/-! The run of `report.py`: from the manifest, the run directories and the arguments to
the sections printed, and the `control` that reads the unpublished registries. -/

namespace OMB

/-! ## Arguments -/

/-- What `emit_sections` can emit. -/
inductive Section | results | used | indirect | matrix
  deriving DecidableEq, Repr

/-- Every section, as for `all`. -/
def allSections : List Section := [.results, .used, .indirect, .matrix]

/-- `SECTIONS`, each with what it stands for. -/
def sectionNames : Dict Text (List Section) :=
  [("results".toList, [.results]), ("used".toList, [.used]), ("indirect".toList, [.indirect]),
    ("matrix".toList, [.matrix]), ("all".toList, allSections)]

/-- The section argument, if the first one is. -/
def popSection (args : List Text) : List Section × List Text :=
  match args with
  | [] => (allSections, [])
  | a :: rest => match Dict.get? sectionNames a with
    | some sections => (sections, rest)
    | none => (allSections, a :: rest)

/-- The sections asked for, and the results directory. -/
def parseArgs (args : List Text) : Except Stop (List Section × Text) :=
  match popSection args with
  | (sections, []) => .ok (sections, "results".toList)
  | (sections, [root]) => .ok (sections, root)
  | (_, _ :: a :: _) => .error (.exit ("unexpected argument ".toList ++ quoted a))

/-! ## Loading -/

/-- A run directory: the texts of its files, by name. -/
abbrev RunDir := Text → Option Text

/-- The run directories under a root, sorted. -/
abbrev FileSystem := Text → List RunDir

/-- The files of a column that exist. -/
def paths (dirs : List RunDir) (file : Text) : List Text := dirs.filterMap fun d => d file

/-- One turn of the loops over `COLUMNS`. -/
def loadColumn (dirs : List RunDir) (missing : Text → Text) (acc : Dict Text Table × List ℕ)
    (col : Text × Text) : Except Stop (Dict Text Table × List ℕ) := do
  let files := paths dirs col.2
  if files.isEmpty then throw (.exit (missing col.2))
  let table ← load files
  return (acc.1.set col.1 table, acc.2 ++ [files.length])

/-- The tables by label, and how many files each was loaded from. -/
def loadColumns (dirs : List RunDir) (cols : List (Text × Text)) (missing : Text → Text) :
    Except Stop (Dict Text Table × List ℕ) :=
  cols.foldlM (loadColumn dirs missing) ([], [])

/-- `loaded[name]`. -/
def tableOf (loaded : Dict Text Table) (name : Text) : Except Stop Table :=
  match loaded.get? name with
  | some t => .ok t
  | none => .error (.raised "KeyError".toList)

/-! ## The built-in control -/

/-- `DIRECT`. -/
def directRegistries : List Text := ["vptr_vector", "vptr_map", "flat_map"].map String.toList

def controlKey (registry : Text) (arity : ℤ) : Key :=
  ⟨clflush, "main".toList, "const".toList, registry, "om vptr".toList, arity⟩

/-- How the warning about a column and arity begins. -/
def warningHead (name : Text) (arity : ℤ) : Text :=
  "warning: ".toList ++ name ++ " arity ".toList ++ Numeral.intText arity ++ ": ".toList

def controlWarning (name : Text) (arity : ℤ) (spread : ℚ) (nets : List ℚ) : Text :=
  warningHead name arity ++ "the three direct registries' `om vptr` rows differ by ".toList ++
    Numeral.fixed 0 spread ++ "% (".toList ++
    ", ".toList.intercalate (nets.map (Numeral.fixed 0)) ++ ") -- the vptr ".toList ++
    "policy is not on that call path, so this is the ".toList ++
    "measurement, not the library".toList

/-- The three medians `control` compares. -/
def controlNets (table : Table) (arity : ℤ) : Except Stop (List ℚ) :=
  directRegistries.mapM fun reg => med table (controlKey reg arity) "net"

/-- `control`'s look at one column and arity; `worst` is the widest spread so far. -/
def controlStep (loaded : Dict Text Table) (worst : ℚ) (turn : Text × ℤ) : Script Stop ℚ := do
  let table ← tableOf loaded turn.1
  let nets ← controlNets table turn.2
  let base := median nets
  if base = 0 then Script.ofExcept (.error (.raised "ZeroDivisionError".toList))
  let spread := spreadOf nets base
  if 25 < spread then Script.warn (controlWarning turn.1 turn.2 spread nets)
  return max worst spread

/-- The columns and arities `control` looks at. -/
def controlTurns (cols : List (Text × Text)) : List (Text × ℤ) :=
  cols.flatMap fun c => [(c.1, 1), (c.1, 2)]

/-- `control`, which returns the worst spread. -/
def control (cols : List (Text × Text)) (loaded : Dict Text Table) : Script Stop ℚ :=
  (controlTurns cols).foldlM (controlStep loaded) 0

/-! ## The run -/

/-- The caption of the use-world table. -/
def usedCaption : Text :=
  "#### Cold (`clflush`), receiver used\n\n".toList ++
    "The member reads execute inside the timed window — every use body ".toList ++
    "loads its\nreceiver(s) before the arrival stamp (see \"Timing\"). ".toList ++
    "Ratios divide by this\ntable's own yardsticks, which pay the same ".toList ++
    "reads. Both columns are clang 22:\nIntel and Zen.".toList

/-- What `emit_sections` is called with. -/
structure Inputs where
  intel : Table
  zen : Table
  build : Text
  matrixCols : List (Text × Table)
  indirectCols : List (Text × Table)
  passes : ℕ

/-- One branch of `emit_sections`. -/
def emitSection (x : Inputs) : Section → Except Stop (List Block)
  | .results => return (← sectionResults x.intel x.zen x.build x.passes) ++ [.prose []]
  | .used => return (← emitWorld x.intel x.zen x.build "use".toList x.passes usedCaption) ++
      [.prose []]
  | .indirect => return (← sectionIndirect x.indirectCols x.passes) ++ [.prose []]
  | .matrix => sectionMatrix x.matrixCols x.passes

/-- `emit_sections`: the sections printed, each with its blocks. -/
def emitSections (sections : List Section) (x : Inputs) :
    Except Stop (List (Section × List Block)) :=
  sections.mapM fun s => do return (s, ← emitSection x s)

/-- The tables `main` selects for the sections. -/
def selectInputs (build : Text) (intel zen : Dict Text Table) (passes : ℕ) :
    Except Stop Inputs := do
  let buildIntel ← tableOf intel build
  let buildZen ← tableOf zen build
  let clangIntel ← tableOf intel "clang 22".toList
  let gccIntel ← tableOf intel "gcc 15".toList
  let clangZen ← tableOf zen "clang 22".toList
  let gccZen ← tableOf zen "gcc 15".toList
  return {
    intel := buildIntel
    zen := buildZen
    build := build
    matrixCols := [("clang 22 (Intel)".toList, clangIntel), ("gcc 15 (Intel)".toList, gccIntel),
      ("clang 22 (Zen)".toList, clangZen), ("gcc 15 (Zen)".toList, gccZen)]
    indirectCols := [("clang 22".toList, clangIntel), ("gcc 15".toList, gccIntel)]
    passes := passes }

/-- `BUILD_NAME`. -/
def buildName (cols : List (Text × Text)) : Except Stop Text :=
  match cols with
  | [] => .error (.raised "IndexError".toList)
  | (name, file) :: _ => match cols.find? fun c => c.2 = file with
    | some c => .ok c.1
    | none => .ok name

def missingIntel (root file : Text) : Text :=
  "missing ".toList ++ file ++ " in every ".toList ++ root ++ "/run*/".toList

def missingZen (file : Text) : Text :=
  "missing ".toList ++ file ++ " in every results-zen/run*/ -- the Zen ".toList ++
    "comparison dataset. Restore it from git history.".toList

def noRuns (root : Text) : Text :=
  "no ".toList ++ root ++ "/run*/ directories -- run ./matrix.sh first".toList

/-- `main` up to `emit_sections`. -/
def prepare (conf : Text) (fs : FileSystem) (args : List Text) :
    Except Stop (List Section × Inputs) := do
  let cols := columns conf
  let build ← buildName cols
  let (sections, root) ← parseArgs args
  let dirs := fs root
  if dirs.isEmpty then throw (.exit (noRuns root))
  let (intel, counts) ← loadColumns dirs cols (missingIntel root)
  let passes := counts.min?.getD 0
  let (zen, _) ← loadColumns (fs "results-zen".toList) cols missingZen
  let inputs ← selectInputs build intel zen passes
  return (sections, inputs)

/-- `main` of `report.py`, down to the text it hands to `align_tables`. -/
def main (conf : Text) (fs : FileSystem) (args : List Text) :
    Script Stop (List (Section × List Block)) := do
  let (sections, inputs) ← Script.ofExcept (prepare conf fs args)
  Script.ofExcept (emitSections sections inputs)

end OMB
