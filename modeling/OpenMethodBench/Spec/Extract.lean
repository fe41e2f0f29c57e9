import Mathlib
import OpenMethodBench.Lib.Script
import OpenMethodBench.Lib.Substitute
import OpenMethodBench.Spec.Chain
import OpenMethodBench.Spec.Consistent
import OpenMethodBench.Spec.Globals
import OpenMethodBench.Spec.Load
import OpenMethodBench.Spec.Objdump

/-! `extract` of `asmtab.py`: from what `objdump` prints of a binary to the listing, the depth
and the size of the slice of every dispatch, checked against the standalone dispatches. -/

namespace OMB

/-! ## The dispatches -/

/-- A row of `VARIANTS`: label, call form, arity, variant struct, tag template argument. -/
structure VariantRow where
  label : Text
  form : Text
  arity : ℕ
  struct : Text
  tag : Option Text
  deriving DecidableEq, Repr

def variantRow (label form : String) (arity : ℕ) (struct : String) (tag : Option String) : VariantRow :=
  ⟨label.toList, form.toList, arity, struct.toList, tag.map String.toList⟩

/-- `VARIANTS`. -/
def variants : List VariantRow :=
  [variantRow "vf (yardstick)" "" 1 "v_vf1" none,
    variantRow "vf+vf (yardstick)" "" 2 "v_vf2" none,
    variantRow "vptr" "" 1 "v_om_vp1" "group_vector",
    variantRow "vptr_vector" "ref" 1 "v_om_ref1" "group_vector",
    variantRow "vptr" "" 2 "v_om_vp2" "group_vector",
    variantRow "vptr_vector" "ref" 2 "v_om_ref2" "group_vector",
    variantRow "vptr / indirect" "" 1 "v_om_vp1" "group_indirect",
    variantRow "indirect" "ref" 1 "v_om_ref1" "group_indirect",
    variantRow "vptr / indirect" "" 2 "v_om_vp2" "group_indirect",
    variantRow "indirect" "ref" 2 "v_om_ref2" "group_indirect",
    variantRow "inplace" "ref" 1 "v_ip_ref1" "group_inplace",
    variantRow "inplace" "ref" 2 "v_ip_ref2" "group_inplace",
    variantRow "inplace_ind" "ref" 1 "v_ip_ref1" "group_inplace_ind",
    variantRow "inplace_ind" "ref" 2 "v_ip_ref2" "group_inplace_ind"]

/-- `PROBES`: the probe function and the registry of a struct and tag. -/
def probes : Dict (Text × Option Text) (Text × Option Text) :=
  ([("v_vf1", none, "probe_vf1", none), ("v_vf2", none, "probe_vf2", none),
    ("v_om_vp1", some "group_vector", "probe_om_vp1", some "default_registry"),
    ("v_om_ref1", some "group_vector", "probe_om_ref1", some "default_registry"),
    ("v_om_vp2", some "group_vector", "probe_om_vp2", some "default_registry"),
    ("v_om_ref2", some "group_vector", "probe_om_ref2", some "default_registry"),
    ("v_om_vp1", some "group_indirect", "probe_om_vp1", some "indirect_registry"),
    ("v_om_ref1", some "group_indirect", "probe_om_ref1", some "indirect_registry"),
    ("v_om_vp2", some "group_indirect", "probe_om_vp2", some "indirect_registry"),
    ("v_om_ref2", some "group_indirect", "probe_om_ref2", some "indirect_registry"),
    ("v_ip_ref1", some "group_inplace", "probe_ip_ref1", some "inplace_registry"),
    ("v_ip_ref2", some "group_inplace", "probe_ip_ref2", some "inplace_registry"),
    ("v_ip_ref1", some "group_inplace_ind", "probe_ip_ref1", some "inplace_indirect_registry"),
    ("v_ip_ref2", some "group_inplace_ind", "probe_ip_ref2", some "inplace_indirect_registry")] :
    List (String × Option String × String × Option String)).map fun p =>
      ((p.1.toList, p.2.1.map String.toList), (p.2.2.1.toList, p.2.2.2.map String.toList))

/-- `row_label`. -/
def rowLabel (label form : Text) : Text :=
  if form.isEmpty then '`' :: (label ++ ['`'])
  else "`om ".toList ++ (form ++ (" / ".toList ++ (label ++ ['`'])))

/-- What a row is filed under. -/
def VariantRow.key (v : VariantRow) : Text × Text × ℕ := (v.label, v.form, v.arity)

/-! ## The symbol of a dispatch -/

/-- `re.search(rf"(?<![A-Za-z_]){word}[closers]", t)`; the flag says that a letter or an
underscore stands before `t`. -/
def mentions (word closers : Text) : Bool → Text → Bool
  | _, [] => false
  | before, c :: t =>
    (!before && word.isPrefixOf (c :: t) &&
      (((c :: t).drop word.length).head?.any closers.contains)) ||
    mentions word closers (isNameChar c) t

/-- `re.search(rf"{tag}(?![a-z_])", t)`. -/
def tagged (tag : Text) : Text → Bool
  | [] => false
  | c :: t =>
    (tag.isPrefixOf (c :: t) &&
      !(((c :: t).drop tag.length).head?.any fun d => d.isLower || d == '_')) ||
    tagged tag t

/-- What an f-string prints for a tag. -/
def tagText (tag : Option Text) : Text := tag.getD "None".toList

/-- The function of the only symbol that passes a test. -/
def theOne (funcs : Dict Text (List Insn)) (hit : Text → Bool) (failure : ℕ → Text) :
    Except Stop (List Insn) :=
  match funcs.filter fun f => hit f.1 with
  | [f] => .ok f.2
  | fs => .error (.exit (failure fs.length))

def isTimedCall (v : VariantRow) (symbol : Text) : Bool :=
  Text.occurs "timed_call".toList symbol && mentions v.struct "<IE>".toList false symbol &&
    v.tag.all fun tag => tagged tag symbol

/-- `find`: the one timed_call instantiation for a variant. -/
def find (funcs : Dict Text (List Insn)) (v : VariantRow) (build : Text) : Except Stop (List Insn) :=
  theOne funcs (isTimedCall v) fun n =>
    build ++ (": ".toList ++ (v.struct ++ ('/' :: (tagText v.tag ++ (" matched ".toList ++
      (Nat.toDigits 10 n ++ " symbols, expected 1".toList))))))

/-! ## Rendering -/

def Role.text : Role → Text
  | .mult => "mult".toList
  | .stride => "stride".toList
  | .shift => "shift".toList
  | .slot => "slot".toList
  | .vptrs => "vptrs".toList

/-- `[rip+0x..]`, replaced by `[rip+name]`; names hold no backslash. -/
def ripNamed (name t : Text) : Option (Text × ℕ) :=
  (ripAt t).map fun _ => ("[rip+".toList ++ (name ++ [']']), (t.takeWhile (· != ']')).length)

/-- `[e..+0x..]`, replaced by `[got+name]`. -/
def basedNamed (name t : Text) : Option (Text × ℕ) :=
  (basedAt t).map fun _ => ("[got+".toList ++ (name ++ [']']), (t.takeWhile (· != ']')).length)

/-- An instruction's global operand, by its name. -/
def nameOperand (name t : Text) : Text :=
  Text.substitute (basedNamed name) 0 (Text.substitute (ripNamed name) 0 t)

/-- A direct call, of the next instruction or a thunk or of another function. -/
def renderCall (next : Option ℕ) (t : Text) : Text :=
  match directCall t with
  | none => t
  | some (target, name) =>
    if indirectCall t then t
    else if next = some target || Text.occurs "__x86.get_pc_thunk".toList name then
      "call pc_thunk".toList
    else "call ".toList ++ name

/-- `re.sub(r"\s*#.*$", "", t)`. -/
def cutHash : Text → Text
  | [] => []
  | c :: t =>
    if c == '#' || (Text.isSpace c && (t.dropWhile Text.isSpace).head? == some '#') then []
    else c :: cutHash t

/-- `t.replace(",", ", ")`. -/
def spaceCommas (t : Text) : Text := t.flatMap fun c => if c == ',' then [',', ' '] else [c]

/-- An instruction, under the name its operand has been given. -/
def namedText (name : Option Text) (t : Text) : Text :=
  match name with
  | some name => nameOperand name t
  | none => t

/-- One line of a listing. -/
def renderLine (win : List Insn) (named : Dict ℕ Text) (i : ℕ) (x : Insn) : Text :=
  spaceCommas (cutHash (renderCall ((win[i + 1]?).map Insn.addr) (namedText (named.get? i) x.text)))

/-- `render`: the window as text, without the instructions of `skip`. -/
def render (win : List Insn) (named : Dict ℕ Text) (skip : List ℕ) : List Text :=
  (win.zipIdx.filter fun e => !skip.contains e.2).map fun e => renderLine win named e.2 e.1

/-! ## Cells -/

/-- `reads`, in the order of the window. -/
def readsOf (win : List Insn) (reads : Reads) : Dict ℕ GlobalRef :=
  (List.range win.length).filterMap fun i => (reads i).map fun r => (i, r)

theorem readsOf_nodup (win : List Insn) (reads : Reads) :
    ((readsOf win reads).map Prod.fst).Nodup := by
  have hsub : ((readsOf win reads).map Prod.fst).Sublist (List.range win.length) := by
    rw [readsOf, List.map_filterMap]
    have hfst : ∀ i, ((reads i).map fun r => (i, r)).map Prod.fst = (reads i).map fun _ => i := by
      intro i
      rw [Option.map_map]
      rfl
    simp only [hfst]
    induction List.range win.length with
    | nil => exact List.Sublist.slnil
    | cons i is ih =>
      rw [List.filterMap_cons]
      rcases reads i with - | r
      · exact ih.cons i
      · exact ih.cons_cons i
  exact List.Nodup.sublist hsub List.nodup_range

/-- `named`. -/
def namesOf (win : List Insn) (roles : ℕ → Option Role) : Dict ℕ Text :=
  (List.range win.length).filterMap fun i => (roles i).map fun r => (i, r.text)

/-- A window with the globals it reads, named as far as their use tells. -/
def namedWindow (win : List Insn) (reads : Reads) (word : ℕ) : Except Stop NamedWindow :=
  match roles win reads word with
  | none => .error (.raised "KeyError".toList)
  | some named =>
    .ok ⟨win, readsOf win reads, namesOf win named, readsOf_nodup win reads⟩

/-- `bits // 8`. -/
def wordOf (name : Text) : ℕ := if name.rtake 2 = "32".toList then 4 else 8

/-- One turn of the first loop of `extract`. -/
def extractCell (funcs : Dict Text (List Insn)) (syms : List Symbol) (name path : Text)
    (v : VariantRow) : Except Stop NamedWindow := do
  let body ← find funcs v name
  match bounds body with
  | none => throw (.exit (name ++ (": no rdtsc bracket in ".toList ++ (v.struct ++ ('/' ::
      (tagText v.tag ++ (" -- is ".toList ++ (path ++
        " an optimized build of the current sources?".toList))))))))
  | some (_, none) => throw (.exit (name ++ (": ".toList ++ (v.struct ++ ('/' ::
      (tagText v.tag ++ (" has no indirect call after the ".toList ++
        "start bracket -- the dispatch was devirtualized?".toList)))))))
  | some (start, some last) =>
    let win := (body.take (last + 1)).drop start
    namedWindow win (globalsRead win (picBase body (last + 1)) syms) (wordOf name)

/-- A cell with its slice: the instructions of the harness. -/
structure SlicedCell where
  cell : NamedWindow
  skip : List ℕ

def SlicedCell.listing (s : SlicedCell) : List Text := render s.cell.win s.cell.named s.skip

/-! ## The oracle -/

/-- `jmp\s+(?:\w+ PTR )?\[` or `jmp\s+(?:[er][a-z]{2}|r\d+)$`. -/
def indirectJump (t : Text) : Bool :=
  (afterMnem "jmp" t).any fun r =>
    let size := r.takeWhile isWordChar
    r.head? == some '[' ||
    (!size.isEmpty && (r.dropWhile isWordChar).take 6 == " PTR [".toList) ||
    (legacyAt r == some r ||
      (r.head? == some 'r' && !r.tail.isEmpty && r.tail.all Char.isDigit))

/-- `jmp\s+([a-z0-9]+)$`. -/
def jumpReg (t : Text) : Option Text :=
  (afterMnem "jmp" t).bind fun r => if !r.isEmpty && r.all isLow then some r else none

/-- `\w+ PTR \[[^\]]+\]`, the whole of a text. -/
def isPointer (t : Text) : Bool :=
  let rest := t.dropWhile isWordChar
  let inner := (rest.drop 6).takeWhile (· != ']')
  !(t.takeWhile isWordChar).isEmpty && rest.take 6 == " PTR [".toList && !inner.isEmpty &&
    (rest.drop 6).dropWhile (· != ']') == [']']

/-- `mov\s+reg,(\w+ PTR \[[^\]]+\])$`. -/
def loadedFrom (reg t : Text) : Option Text :=
  (afterMnem "mov" t).bind fun r =>
    if (reg ++ [',']).isPrefixOf r && isPointer (r.drop (reg.length + 1)) then
      some (r.drop (reg.length + 1))
    else none

/-- A tail call through a register that the instruction before loads, as the call through
memory that the measured code is forced into. -/
def foldTail (win : List Insn) : List Insn :=
  match win.reverse with
  | jump :: load :: before =>
    match (jumpReg jump.text).bind fun reg => loadedFrom reg load.text with
    | some ptr => before.reverse ++ [⟨load.addr, "call ".toList ++ ptr⟩]
    | none => win
  | _ => win

def isProbe (fn : Text) (registry : Option Text) (symbol : Text) : Bool :=
  !"_GLOBAL__sub_I".toList.isPrefixOf symbol && mentions fn "<IE(".toList false symbol &&
    registry.all fun r => tagged r symbol

/-- `probe_window`: the dispatch as compiled on its own. -/
def probeWindow (funcs : Dict Text (List Insn)) (syms : List Symbol) (fn : Text)
    (registry : Option Text) (build : Text) (word : ℕ) : Except Stop NamedWindow := do
  let head := build ++ (": probe ".toList ++ (fn ++ ('/' :: tagText registry)))
  let body ← theOne funcs (isProbe fn registry) fun n =>
    head ++ (" matched ".toList ++ (Nat.toDigits 10 n ++
      " symbols, expected 1 -- rebuild with ./probes.sh".toList))
  match body.findIdx? fun x => indirectCall x.text || indirectJump x.text with
  | none => throw (.exit (head ++ " has no indirect tail call".toList))
  | some last =>
    let win := foldTail (body.take (last + 1))
    namedWindow win (globalsRead win (picBase body (last + 1)) syms) word

/-- What `objdump -dC` and `objdump -tC` print of a binary. -/
structure Binary where
  code : Text
  table : Text

def sliceFailure (name : Text) (v : VariantRow) (missing : Multiset Text) : Text :=
  name ++ (": the slice of ".toList ++ (rowLabel v.label v.form ++ (" arity ".toList ++
    (Nat.toDigits 10 v.arity ++ (" is missing ".toList ++ (Nat.toDigits 10 missing.card ++
    (" instruction(s) that the standalone dispatch has: ".toList ++
    (", ".toList.intercalate (missing.dedup.sort fun a b => a ≤ b) ++
      (". Either bookkeeping() dropped real dispatch, or ".toList ++
        "src/dispatch_probe.cpp has drifted from main.cpp.".toList)))))))))

/-- One turn of the loop of `check_oracle`. -/
def checkSlice (funcs : Dict Text (List Insn)) (syms : List Symbol) (name : Text) (word : ℕ)
    (e : VariantRow × SlicedCell) : Except Stop Unit := do
  match probes.get? (e.1.struct, e.1.tag) with
  | none => throw (.raised "KeyError".toList)
  | some (fn, registry) =>
    let probe ← probeWindow funcs syms fn registry name word
    let missing := oracleMissing (render probe.win probe.named []) e.2.listing
    if missing = 0 then return () else throw (.exit (sliceFailure name e.1 missing))

/-- `check_oracle`, given the probe binary if there is one. -/
def checkOracle (path name : Text) (probe : Option Binary) (word : ℕ)
    (cells : List (VariantRow × SlicedCell)) : Script Stop Unit :=
  match probe with
  | none => Script.warn ("note: ".toList ++ (path ++ (" absent -- skipping the oracle check ".toList ++
      "(build it with ./probes.sh)".toList)))
  | some bin => Script.ofExcept
      (cells.forM (checkSlice (disassemble bin.code) (symbols bin.table) name word))

/-! ## The run -/

/-- What is published of a dispatch; no depth where `chain` has none. -/
structure PublishedRow where
  lines : List Text
  depth : Option ℕ
  dropped : ℕ

def SlicedCell.published (word : ℕ) (s : SlicedCell) : PublishedRow :=
  ⟨s.listing, chain s.cell.win word, s.skip.length⟩

/-- The windows of a build by their variants, which label, form and arity tell apart. -/
def extractCells (name path : Text) (bin : Binary) : Except Stop (Dict VariantRow NamedWindow) :=
  variants.mapM fun v => do
    return (v, ← extractCell (disassemble bin.code) (symbols bin.table) name path v)

/-- The cells with the names that `consistent` adds, sliced. -/
def sliceCells (name : Text) (cells : Dict VariantRow NamedWindow) : List (VariantRow × SlicedCell) :=
  (consistent cells name).1.map fun e => (e.1, ⟨e.2, bookkeeping e.2.win (wordOf name)⟩)

/-- The warning of `consistent`, if it has one. -/
def warnUnnamed (line : Option Text) : Script Stop Unit := ⟨line.toList, .ok ()⟩

/-- `extract`. -/
def extract (name path probePath : Text) (bin : Binary) (probe : Option Binary) :
    Script Stop (List (VariantRow × PublishedRow)) := do
  let cells ← Script.ofExcept (extractCells name path bin)
  warnUnnamed (consistent cells name).2
  let sliced := sliceCells name cells
  checkOracle probePath name probe (wordOf name) sliced
  return sliced.map fun e => (e.1, e.2.published (wordOf name))

theorem variants_nodup : (variants.map VariantRow.key).Nodup := by
  decide

end OMB
