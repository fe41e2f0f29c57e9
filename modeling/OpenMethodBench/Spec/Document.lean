import Mathlib
import OpenMethodBench.Lib.Columns
import OpenMethodBench.Lib.Fill
import OpenMethodBench.Spec.Align
import OpenMethodBench.Spec.Extract
import OpenMethodBench.Spec.Manifest

/-! `main` of `asmtab.py`: the section of the document that is generated from the binaries. -/

namespace OMB

/-! ## Prose -/

/-- `t.split("\n\n")`. -/
def splitBlocks : Text → List Text
  | '\n' :: '\n' :: t => [] :: splitBlocks t
  | c :: t => (splitBlocks t).modifyHead (c :: ·)
  | [] => [[]]

/-- `re.split(r"\n(?=- )", t)`. -/
def splitItems : Text → List Text
  | [] => [[]]
  | c :: t =>
    if c == '\n' && "- ".toList.isPrefixOf t then [] :: splitItems t
    else (splitItems t).modifyHead (c :: ·)

/-- The blocks that are printed as they are. -/
def isVerbatim (block : Text) : Bool :=
  "#".toList.isPrefixOf block || "|".toList.isPrefixOf block || "```".toList.isPrefixOf block

def hanging (item : Text) : Text := if "- ".toList.isPrefixOf item then "  ".toList else []

/-- The columns of line `i` of an item: `width` less what the line is indented by. -/
def itemRoom (indent : Text) (i : ℕ) : ℕ := if i = 0 then 78 else 78 - indent.length

def indented (indent : Text) (e : List Text × ℕ) : Text :=
  (if e.2 = 0 then [] else indent) ++ Text.join ' ' e.1

/-- `textwrap.fill`, with the hanging indent of a bullet. -/
def fillItem (item : Text) : Text :=
  Text.join '\n' ((Fill.fill List.length (itemRoom (hanging item)) (Text.words item)).zipIdx.map
    (indented (hanging item)))

def proseBlock (block : Text) : Text :=
  if isVerbatim block then block else Text.join '\n' ((splitItems block).map fillItem)

/-- What `prose` prints, up to the newline of `print`. -/
def prose (text : Text) : Text :=
  "\n\n".toList.intercalate ((splitBlocks (Text.stripChar '\n' text)).map proseBlock) ++ "\n".toList

/-! ## The data -/

/-- `data`: of each build, what `extract` returned. -/
abbrev Published := Dict Text (Dict (Text × Text × ℕ) PublishedRow)

/-- `data[build][(label, form, arity)]`. -/
def cellOf (data : Published) (key : Text × Text × ℕ) (build : Text) : Except Stop PublishedRow :=
  match (data.get? build).bind fun rows => rows.get? key with
  | some row => .ok row
  | none => .error (.raised "KeyError".toList)

def decimal (n : ℕ) : Text := Nat.toDigits 10 n

/-- A depth as an f-string shows it. -/
def depthText : Option ℕ → Text
  | some d => decimal d
  | none => "None".toList

/-- The variants of arity 1, then those of arity 2. -/
def byArity : List VariantRow := [1, 2].flatMap fun a => variants.filter fun v => v.arity == a

/-! ## `section_summary` -/

/-- `f"{len(t)} / {d}"`. -/
def countCell (row : PublishedRow) : Text :=
  decimal row.lines.length ++ (" / ".toList ++ depthText row.depth)

def summaryRow (data : Published) (builds : List Text) (v : VariantRow) : Except Stop Text := do
  let rows ← builds.mapM (cellOf data v.key)
  return "| ".toList ++ (rowLabel v.label v.form ++ (" | ".toList ++ (decimal v.arity ++
    (" | ".toList ++ (" | ".toList.intercalate (rows.map countCell) ++ " |".toList)))))

def sectionSummary (data : Published) (builds : List Text) : Except Stop (List Text) := do
  let rows ← byArity.mapM (summaryRow data builds)
  return ("| dispatch | arity | ".toList ++ (" | ".toList.intercalate builds ++ " |".toList)) ::
    ("|---|---|".toList ++ (builds.flatMap fun _ => "---|".toList)) :: rows

/-! ## `section_listings` -/

def listingTitle (v : VariantRow) : Text :=
  '`' :: (Text.stripChar '`' (rowLabel v.label v.form) ++ ("`, arity ".toList ++
    (decimal v.arity ++ ":".toList)))

/-- The rule under the names of the builds. -/
def listingRule (width : ℕ) (builds : List Text) : Text :=
  Text.rstrip (builds.flatMap fun _ => List.replicate (width - 2) '-' ++ "  ".toList)

def openFence : Text := "```asm".toList

def closeFence : Text := "```".toList

/-- The lines of one dispatch, fenced; `max` raises where no build has a line. -/
def listingLines (data : Published) (builds : List Text) (v : VariantRow) :
    Except Stop (List Text) := do
  let rows ← builds.mapM (cellOf data v.key)
  match ((rows.flatMap PublishedRow.lines).map List.length).max? with
  | none => throw (.raised "ValueError".toList)
  | some longest =>
    let width := longest + 2
    return [listingTitle v, [], openFence, Text.sideBySide width builds,
      listingRule width builds] ++ Text.grid width (rows.map PublishedRow.lines) ++
      [closeFence, []]

def sectionListings (data : Published) (builds : List Text) : Except Stop (List Text) := do
  return (← byArity.mapM (listingLines data builds)).flatten

/-! ## `section_intro` and `section_shows` -/

/-- A text, given line by line. -/
def proseLines (ls : List String) : Text := Text.join '\n' (ls.map String.toList)

def introLines : List String := [
    "## Every timed region, side by side",
    "",
    "The listings above are hand-picked. `asmtab.py` takes the same window from every",
    "binary and every dispatch: the instructions `timed_call<V>` executes between",
    "the start bracket and the `call` into the body. Each variant is its own",
    "`noinline` instantiation, so the window is a contiguous range inside a symbol",
    "the script finds by name — nothing here is transcribed by hand, and",
    "`python3 asmtab.py` regenerates this section from whatever is in `bin/`.",
    "",
    "Operands that read a global are rewritten to the role the value plays —",
    "`[rip+slot]`, `[rip+mult]` — inferred from what the value is *used for* rather",
    "than from its symbol offset. The map registries are left out; their probe",
    "inlines a container walk rather than the arithmetic the others do.",
    "",
    "**What is shown is the dispatch, sliced out of the window.** Everything below",
    "is the code that ran between the brackets, minus the instructions the timing",
    "rig leaves there — identified by a backward slice from the call, so nothing",
    "that reaches the call or its arguments can be dropped. What the slice removes",
    "is the start stamp: `rdtsc` leaves the counter split across `edx:eax`, and each",
    "compiler stitches the halves into something the epilogue can subtract, gcc",
    "shifting and or-ing, clang negating and subtracting. It is scheduled freely and",
    "lands anywhere in the window (per \"Timing\"), and left in it outnumbers the",
    "dispatch — a virtual call is two instructions under five of harness. Because a",
    "slice is a heuristic and compilers move things, `probes.sh` compiles the same",
    "dispatches standalone and `asmtab.py` fails the run if any instruction of the",
    "standalone dispatch is missing from the slice.",
    "",
    "### What the windows contain",
    "",
    "Dispatch instructions, then the **dependent loads** — how many loads have to",
    "complete one after another before the call has its target, counting the call's",
    "own read of the v-table entry. (The listings earlier in this document count",
    "that one separately, as \"one dependent load, one indirect call\"; the same `vf`",
    "window is 1 + 1 there and 2 here.) The second number is the one that predicts",
    "cost.",
    "",
    "One row cannot be read like the others. The double-dispatch idiom's second",
    "dispatch happens *inside* the first body — `Derived<N>::dd` calls",
    "`other.dd_with(*this)` — so only its first call is in the window. Its two",
    "dependent loads are half of what the `vf+vf` yardstick is timing; the rest is",
    "compiled into the body.",
    ""]

/-- The text of `section_intro`. -/
def introText : Text := proseLines introLines

/-- The elements of a sorted list as an f-string shows them; no order where one is `None`. -/
def sortedText (vals : List (Option ℕ)) : Except Stop Text :=
  if vals.contains none then .error (.raised "TypeError".toList)
  else .ok ('[' :: (", ".toList.intercalate ((vals.reduceOption.mergeSort fun a b => a ≤ b).map
    decimal) ++ [']']))

/-- The depth every build agrees on, or a hard stop. -/
def uniform (data : Published) (builds : List Text) (label form : Text) (arity : ℕ) :
    Except Stop (Option ℕ) := do
  let rows ← builds.mapM (cellOf data (label, form, arity))
  match (rows.map PublishedRow.depth).dedup with
  | [d] => return d
  | vals => throw (.exit ("asmtab: ".toList ++ (rowLabel label form ++ (" arity ".toList ++
      (decimal arity ++ (" no longer has one depth across the four builds (".toList ++
      ((← sortedText vals) ++ ") -- the prose in section_prose() claims it does; rewrite it.".toList)))))))

/-- How the sentence about arity 1 reads: `deeper` and `slack` are the builds whose chain the
indirection deepens, and the others. -/
def arityOneText (deeper slack : List Text) (vp1 : ℕ) : Text :=
  if !deeper.isEmpty && !slack.isEmpty then
    ["at arity 1 it deepens ".toList, " and ".toList.intercalate deeper,
      ", which reaches the fat pointer through memory, and disappears on ".toList,
      " and ".toList.intercalate slack, ", which keep it in a register".toList].flatten
  else if !deeper.isEmpty then
    ["at arity 1 it deepens the chain on every build (".toList, decimal vp1, " → ".toList,
      decimal (vp1 + 1), "), reaching the fat pointer through memory".toList].flatten
  else
    ["at arity 1 it hides on every build — ".toList, decimal vp1,
      " loads deep either way — the fat pointer staying in a register, ".toList,
      "so the extra dereference runs beside the slot load".toList].flatten

/-- What stands between the values of `section_shows`, line by line. -/
def showsLines : List (List String) := [
    ["### What the windows show",
      "",
      "- **The reference chain is the same depth on every build**: "],
    [" dependent",
      "  loads at arity 1 — receiver, `type_info`, vptr vector, open-method v-table —",
      "  and "],
    [" through `indirect`. What differs between the columns is",
      "  register allocation and where the stamp bookkeeping lands, not the chain.",
      "  That is the structural reason the ratios agree across builds.",
      "- **A `virtual_ptr` call is "],
    [" dependent loads, exactly what a virtual",
      "  function call is** ("],
    [") — but not the same "],
    [". The virtual call must",
      "  read the receiver before it can read its v-table; the `virtual_ptr` call",
      "  already has the v-table and spends its chain on the slot and the v-table",
      "  entry the call reads through it. Nothing has to find the receiver first,",
      "  which is why the two come out level.",
      "- **Where the compilers differ is what they do with the fat pointer**:",
      "  "],
    [". That costs nothing at arity 1 where the reload runs beside the",
      "  slot load, but it is what makes the next bullet uneven.",
      "- **`indirect_vptr` adds exactly one dependent load — where there is no slack",
      "  to hide it.** Through a reference it deepens the chain on every build",
      "  ("],
    [" → "],
    ["), and on the inplace hierarchy too ("],
    [" → "],
    [").",
      "  Through a `virtual_ptr` "],
    [". At arity 2 the slack is gone and it costs a",
      "  load everywhere ("],
    [" → "],
    ["). That is the same unevenness the cycle tables show,",
      "  where the policy costs a `virtual_ptr` a fraction of what it costs a",
      "  reference.",
      "- **At two virtual arguments the multi-method's two lookups are independent**:",
      "  each virtual argument's v-table is fetched on its own chain, one `imul` by",
      "  the table stride combines them, and a single indexed call ends it — depth",
      "  "],
    [" through a `virtual_ptr` against the idiom's two chained calls.",
      ""]]

def showsParts : List Text := showsLines.map proseLines

/-- An f-string: its parts, with a value after each but the last. -/
def interpolated : List Text → List Text → Text
  | p :: ps, v :: vs => p ++ (v ++ interpolated ps vs)
  | ps, _ => ps.flatten

/-- `repr` of a text without control characters. -/
def reprText (t : Text) : Text :=
  let quote := if t.contains '\'' && !t.contains '"' then '"' else '\''
  quote :: (t.flatMap fun c => if c == quote || c == '\\' then ['\\', c] else [c]) ++ [quote]

def sectionShows (data : Published) (builds : List Text) : Except Stop Text := do
  let ref1 ← uniform data builds "vptr_vector".toList "ref".toList 1
  let ind1 ← uniform data builds "indirect".toList "ref".toList 1
  let vf1 ← uniform data builds "vf (yardstick)".toList [] 1
  let vp1 ← uniform data builds "vptr".toList [] 1
  let ip1 ← uniform data builds "inplace".toList "ref".toList 1
  let ipi1 ← uniform data builds "inplace_ind".toList "ref".toList 1
  let vp2 ← uniform data builds "vptr".toList [] 2
  let vpi2 ← uniform data builds "vptr / indirect".toList [] 2
  let fat ← builds.mapM (cellOf data ("vptr".toList, [], 1))
  let vpi ← builds.mapM (cellOf data ("vptr / indirect".toList, [], 1))
  match vp1 with
  | none => throw (.raised "TypeError".toList)
  | some base =>
    let depths := builds.zip (vpi.map PublishedRow.depth)
    let slack := depths.filter fun e => e.2 == some base
    let deeper := depths.filter fun e => e.2 == some (base + 1)
    if slack.length + deeper.length ≠ builds.length then
      throw (.exit (["asmtab: `om vptr / indirect` arity 1 depth is neither the base ".toList,
        "nor base+1 on some build (\x7b".toList,
        ", ".toList.intercalate (depths.dedup.map fun e => reprText e.1 ++ (": ".toList ++ depthText e.2)),
        "\x7d) -- rewrite section_shows().".toList].flatten))
    else
      let fatptr := ", ".toList.intercalate ((builds.zip fat).map fun e =>
        e.1 ++ (" takes ".toList ++ decimal e.2.lines.length)) ++
        " instructions to dispatch through it".toList
      let arity1 := arityOneText (deeper.map Prod.fst) (slack.map Prod.fst) base
      return prose (interpolated showsParts [depthText ref1, depthText ind1, depthText vp1,
        depthText vf1, depthText vp1, fatptr, depthText ref1, depthText ind1, depthText ip1,
        depthText ipi1, arity1, depthText vp2, depthText vpi2, depthText vp2])

/-! ## The run -/

/-- What is asked for: `summary`, `listings`, or both with the prose around them. -/
inductive AsmSection
  | summary
  | listings
  | all
  deriving DecidableEq, Repr

/-- What the sections print, one entry a `print`. -/
def printedSections (data : Published) (builds : List Text) : AsmSection → Except Stop (List Text)
  | .summary => do return (← sectionSummary data builds) ++ [[]]
  | .listings => sectionListings data builds
  | .all => do
    let summary ← sectionSummary data builds
    let listings ← sectionListings data builds
    let shows ← sectionShows data builds
    return prose introText :: (summary ++ ([] :: "### The listings".toList :: [] :: (listings ++ [shows])))

/-- What `print` leaves in the buffer. -/
def buffered (printed : List Text) : Text := printed.flatMap fun t => t ++ ['\n']

/-- The arguments: the section, if the first names one, and the directory of the binaries. -/
def parseArguments (args : List Text) : Except Stop (AsmSection × Text) :=
  let (which, rest) : AsmSection × List Text := match args with
    | [] => (.all, [])
    | a :: rest =>
      if a == "summary".toList then (.summary, rest)
      else if a == "listings".toList then (.listings, rest)
      else if a == "all".toList then (.all, rest)
      else (.all, a :: rest)
  match rest with
  | [] => .ok (which, "bin".toList)
  | [bindir] => .ok (which, bindir)
  | _ :: a :: _ => .error (.exit ("unexpected argument ".toList ++ reprText a))

/-- `BUILDS`: the name and the binary of each compiler. -/
def builds (conf : Text) : List (Text × Text) :=
  (compilers conf).map fun c => (labelOf c, "benchmark-".toList ++ c)

/-- What the run finds on disk, by path. -/
structure Disk where
  /-- what `objdump` prints, or how it ends the run -/
  objdump : Text → Except Stop Binary
  /-- the probe binary, if it is there -/
  probe : Text → Option Binary
  /-- the file is there, and older than the sources -/
  stale : Text → Bool

def pathIn (bindir file : Text) : Text := bindir ++ '/' :: file

/-- `binary.replace("benchmark-", "probe-")`. -/
def probeName (binary : Text) : Text :=
  Text.substitute (fun t => if "benchmark-".toList.isPrefixOf t then some ("probe-".toList, 9) else none)
    0 binary

def warnStale (disk : Disk) (bindir : Text) (builds : List (Text × Text)) : Script Stop Unit :=
  let stale := (builds.map Prod.snd).filter fun b => disk.stale (pathIn bindir b)
  if stale.isEmpty then pure ()
  else Script.warn ("warning: ".toList ++ (", ".toList.intercalate stale ++
    (" older than src/ -- this section is generated from the binaries, ".toList ++
    "so rebuild all four first".toList)))

/-- One build of the manifest, its name and its binary. -/
def extractBuild (disk : Disk) (bindir : Text) (b : Text × Text) :
    Script Stop (List (VariantRow × PublishedRow)) := do
  let bin ← Script.ofExcept (disk.objdump (pathIn bindir b.2))
  let probePath := pathIn bindir (probeName b.2)
  extract b.1 (pathIn bindir b.2) probePath bin (disk.probe probePath)

/-- `{name: extract(bindir, name, binary) for name, binary in BUILDS}`. -/
def gather (disk : Disk) (bindir : Text) (builds : List (Text × Text)) : Script Stop Published :=
  builds.foldlM (fun data b => do
    let rows ← extractBuild disk bindir b
    return data.set b.1 (rows.map fun e => (e.1.key, e.2))) []

/-- `main`: what goes to stdout. -/
def asmtab (disk : Disk) (builds : List (Text × Text)) (args : List Text) : Script Stop Text := do
  let parsed ← Script.ofExcept (parseArguments args)
  warnStale disk parsed.2 builds
  let data ← gather disk parsed.2 builds
  let printed ← Script.ofExcept (printedSections data (builds.map Prod.fst) parsed.1)
  return alignTables (buffered printed)

/-! ## What a reader finds -/

/-- A fenced listing: the line that stands over it, and its columns. -/
structure ShownListing where
  title : Text
  columns : List (List Text)
  deriving DecidableEq, Repr

/-- The columns under a rule, which tells how many there are and how wide. -/
def readFenced (title : Text) (lines : List Text) : ShownListing :=
  let rule := Text.words ((lines.drop 1).headD [])
  let width := (rule.headD []).length + 2
  ⟨title, (List.range rule.length).map fun k => Text.columnAt width k (lines.drop 2)⟩

/-- The fenced listings among some lines that come after the lines `title` and `gap`. -/
def readListings (title gap : Text) : List Text → List ShownListing
  | [] => []
  | l :: ls =>
    if l == openFence then
      readFenced title (ls.takeWhile (· != closeFence)) ::
        readListings [] [] (ls.dropWhile (· != closeFence))
    else readListings gap l ls
termination_by ls => ls.length
decreasing_by
  · have := (List.dropWhile_sublist (· != closeFence) (l := ls)).length_le
    simp only [List.length_cons]
    omega
  · simp

/-- The cells of the table rows among some lines. -/
def readRows (lines : List Text) : List (List Text) := (lines.filter isRow).map cellsOf

end OMB
