import Mathlib.Data.Int.Notation
import Mathlib.Logic.Function.Basic
import OpenMethodBench.Lib.Reaching
import OpenMethodBench.Spec.Asm

/-! Role inference of `asmtab.py`: which global a use points at, by one forward pass over
the window. -/

namespace OMB

/-- Which object a global read belongs to. -/
inductive Family | staticVptr | fn | st | other
  deriving DecidableEq, Repr

def family (sym : Text) : Family :=
  if Text.occurs "static_vptr".toList sym then .staticVptr
  else if Text.occurs "::fn".toList sym then .fn
  else if Text.occurs "registry_state".toList sym || Text.occurs "::st".toList sym then .st
  else .other

/-- The names `roles` gives. -/
inductive Role | mult | stride | shift | slot | vptrs
  deriving DecidableEq, Repr

/-- index -> (symbol, offset), for every instruction that reads a global. -/
abbrev Reads := ℕ → Option (Text × ℕ)

/-! ## Operands -/

/-- `[a-z0-9]+`. -/
def isWord (t : Text) : Bool := !t.isEmpty && t.all isLow

/-- `([a-z0-9]+),\s*[a-z0-9]+,\s*([a-z0-9]+)`: the last of three words. -/
def thirdWord (ops : Text) : Option Text :=
  match ops.splitOn ',' with
  | [a, b, c] =>
    if isWord a && isWord (Text.lstrip b) && isWord (Text.lstrip c) then some (Text.lstrip c)
    else none
  | _ => none

/-- `(?:[+-]0x[0-9a-f]+)?\]` at the head of a text. -/
def closesAt : Text → Bool
  | ']' :: _ => true
  | s :: '0' :: 'x' :: t =>
    (s == '+' || s == '-') && !(t.takeWhile isHex).isEmpty && (t.dropWhile isHex).head? == some ']'
  | _ => false

/-- `\[([a-z0-9]+)\+([a-z0-9]+)\*[0-9](?:[+-]0x[0-9a-f]+)?\]` at the head of a text: base
and index. -/
def tableAt : Text → Option (Text × Text)
  | '[' :: t =>
    match t.dropWhile isLow with
    | '+' :: u =>
      match u.dropWhile isLow with
      | '*' :: n :: v =>
        if !(t.takeWhile isLow).isEmpty && !(u.takeWhile isLow).isEmpty && n.isDigit && closesAt v
        then some (t.takeWhile isLow, u.takeWhile isLow) else none
      | _ => none
    | _ => none
  | _ => none

/-- `re.search` of the same. -/
def tableOperand : Text → Option (Text × Text)
  | [] => none
  | c :: t => tableAt (c :: t) <|> tableOperand t

/-- `\[[er]sp\+(0x[0-9a-f]+)\]` at the head of a text: the offset, and what follows. -/
def slotAt : Text → Option (ℕ × Text)
  | '[' :: c :: 's' :: 'p' :: '+' :: '0' :: 'x' :: t =>
    match t.dropWhile isHex with
    | ']' :: rest =>
      if (c == 'e' || c == 'r') && !(t.takeWhile isHex).isEmpty
      then some (hexVal (t.takeWhile isHex), rest) else none
    | _ => none
  | _ => none

/-- `\w+PTR` at the head of a text, and what follows it. -/
def ptrAt (t : Text) : Option Text :=
  let word := t.takeWhile isWordChar
  if decide (3 < word.length) && "PTR".toList.isSuffixOf word then some (t.dropWhile isWordChar)
  else none

/-- `ops.replace(" ", "")`. -/
def unspaced (ops : Text) : Text := ops.filter (· != ' ')

/-- `\w+PTR\[[er]sp\+(0x[0-9a-f]+)\],([a-z0-9]+)`: offset and source. -/
def spillOf (ops : Text) : Option (ℕ × Text) := do
  let t ← ptrAt (unspaced ops)
  let (offset, rest) ← slotAt t
  match rest with
  | ',' :: src => if isWord src then some (offset, src) else none
  | _ => none

/-- `([a-z0-9]+),\w+PTR\[[er]sp\+(0x[0-9a-f]+)\]`: the offset. -/
def reloadOf (ops : Text) : Option ℕ :=
  let t := unspaced ops
  match t.dropWhile isLow with
  | ',' :: u => do
    let v ← ptrAt u
    let (offset, rest) ← slotAt v
    if !(t.takeWhile isLow).isEmpty && rest.isEmpty then some offset else none
  | _ => none

/-- `([a-z0-9]+)\s*(?:,|$)` at the head of the operands. -/
def firstOperand (ops : Text) : Option Text :=
  let rest := Text.lstrip (ops.dropWhile isLow)
  if !(ops.takeWhile isLow).isEmpty && (rest.isEmpty || rest.head? == some ',')
  then some (ops.takeWhile isLow) else none

/-- `esp,(0x[0-9a-f]+)`. -/
def espOffset (ops : Text) : Option ℕ :=
  match unspaced ops with
  | 'e' :: 's' :: 'p' :: ',' :: '0' :: 'x' :: h =>
    if !h.isEmpty && h.all isHex then some (hexVal h) else none
  | _ => none

/-- How far `esp` has been pushed down after an instruction. -/
def deltaAfter (word : ℕ) (delta : ℤ) (x : Insn) : ℤ :=
  if x.mnem == "sub".toList && (espOffset x.ops).isSome then delta + (espOffset x.ops).getD 0
  else if x.mnem == "add".toList && (espOffset x.ops).isSome then delta - (espOffset x.ops).getD 0
  else if x.mnem == "push".toList then delta + word
  else delta

/-! ## The pass -/

structure RoleState where
  live : Text → Option ℕ
  named : ℕ → Option Role
  /-- the spill slots written so far, with what `live` said of the source -/
  stack : ℤ → Option (Option ℕ)
  delta : ℤ

def RoleState.init : RoleState := ⟨fun _ => none, fun _ => none, fun _ => none, 0⟩

/-- One call of `name`; it fails where `reads[idx]` does. -/
def nameCall (reads : Reads) (named : ℕ → Option Role) :
    Option ℕ × Family × Role → Option (ℕ → Option Role)
  | (none, _, _) => some named
  | (some idx, inFamily, asName) =>
    (reads idx).map fun r =>
      if family r.1 = inFamily ∧ named idx = none then Function.update named idx (some asName)
      else named

/-- The load an `imul` names: itself, where it reads a global, else that of its first
operand. -/
def factorOf (reads : Reads) (live : Text → Option ℕ) (i : ℕ) (x : Insn) : Option ℕ :=
  if (reads i).isSome then some i else live (canon ((x.ops.splitOn ',').headD []))

/-- The calls of `name` for an `imul`: off the registry state the factor is the hash
multiplier, off the method's `fn` the stride of a two-dimensional table. -/
def factorCalls (reads : Reads) (live : Text → Option ℕ) (i : ℕ) (x : Insn) :
    List (Option ℕ × Family × Role) :=
  if x.mnem == "imul".toList then
    [(factorOf reads live i x, .st, .mult), (factorOf reads live i x, .fn, .stride)] else []

/-- The count of a three-register shift. -/
def shiftCalls (live : Text → Option ℕ) (x : Insn) : List (Option ℕ × Family × Role) :=
  match thirdWord x.ops with
  | some count =>
    if "shr".toList.isPrefixOf x.mnem then [(live (canon count), .st, .shift)] else []
  | none => []

/-- `[base + index*n]`: the base is a table, the index a slot into it. -/
def tableCalls (live : Text → Option ℕ) (x : Insn) : List (Option ℕ × Family × Role) :=
  match tableOperand x.text with
  | some (base, index) => [(live (canon index), .fn, .slot), (live (canon base), .st, .vptrs)]
  | none => []

/-- The calls of `name` for the uses of one instruction, in order. -/
def nameCalls (reads : Reads) (live : Text → Option ℕ) (i : ℕ) (x : Insn) :
    List (Option ℕ × Family × Role) :=
  factorCalls reads live i x ++ shiftCalls live x ++ tableCalls live x

/-- The register the pass takes the instruction to write, under its common name. -/
def Insn.defines (x : Insn) : Option Text :=
  if readsFirst.contains x.mnem then none else (firstOperand x.ops).map canon

/-- A `mov` that spills a register: offset and source. -/
def Insn.spill (x : Insn) : Option (ℕ × Text) :=
  if x.mnem == "mov".toList then spillOf x.ops else none

/-- A `mov` that reloads a spill slot: the offset. -/
def Insn.reload (x : Insn) : Option ℕ :=
  if x.mnem == "mov".toList then reloadOf x.ops else none

/-- `stack` after the spill an instruction makes, if any. -/
def stackAfter (s : RoleState) (x : Insn) : ℤ → Option (Option ℕ) :=
  match x.spill with
  | some (offset, src) => Function.update s.stack (offset - s.delta) (some (s.live (canon src)))
  | none => s.stack

/-- The load `live` gets for the register an instruction writes: itself, or what its slot
holds. -/
def loadOf (reads : Reads) (i : ℕ) (x : Insn) (s : RoleState)
    (stack : ℤ → Option (Option ℕ)) : Option ℕ :=
  if (reads i).isSome && plainMoves.contains x.mnem then some i
  else x.reload.bind fun offset => (stack (offset - s.delta)).getD none

/-- `live` after the definition an instruction makes, if any; `stack` is the one after its
spill. -/
def liveAfter (reads : Reads) (i : ℕ) (x : Insn) (s : RoleState)
    (stack : ℤ → Option (Option ℕ)) : Text → Option ℕ :=
  match x.defines with
  | some dst => Function.update s.live dst (loadOf reads i x s stack)
  | none => s.live

/-- One turn of the loop. -/
def roleStep (reads : Reads) (word i : ℕ) (s : RoleState) (x : Insn) : Option RoleState :=
  ((nameCalls reads s.live i x).foldlM (nameCall reads) s.named).map fun named =>
    { live := liveAfter reads i x s (stackAfter s x)
      named := named
      stack := stackAfter s x
      delta := deltaAfter word s.delta x }

/-- The state after the first `n` instructions. -/
def rolesUpTo (win : List Insn) (reads : Reads) (word : ℕ) : ℕ → Option RoleState
  | 0 => some RoleState.init
  | n + 1 => do
    let s ← rolesUpTo win reads word n
    match win[n]? with
    | some x => roleStep reads word n s x
    | none => some s

/-- index -> operand name; none where a lookup of `reads` fails. -/
def roles (win : List Insn) (reads : Reads) (word : ℕ) : Option (ℕ → Option Role) :=
  (rolesUpTo win reads word win.length).map RoleState.named

end OMB
