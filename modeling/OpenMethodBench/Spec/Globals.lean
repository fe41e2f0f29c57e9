import Mathlib
import OpenMethodBench.Spec.Machine
import OpenMethodBench.Spec.Roles
import OpenMethodBench.Spec.Symbols

/-! Which globals the instructions of a window read: the i386 PIC bases, and the addresses
`asmtab.py` looks up. -/

namespace OMB

/-! ## The PIC bases -/

/-- `call\s+([0-9a-f]+)(?: <(.*)>)?$`: target and name. -/
def directCall (t : Text) : Option (ℕ × Text) :=
  (afterMnem "call" t).bind fun r =>
    let h := r.takeWhile isHex
    let rest := r.dropWhile isHex
    if h.isEmpty then none
    else if rest.isEmpty then some (hexVal h, [])
    else if rest.take 2 == " <".toList && rest.getLast? == some '>' then
      some (hexVal h, (rest.drop 2).dropLast)
    else none

def thunkPrefix : Text := "__x86.get_pc_thunk.".toList

/-- `__x86\.get_pc_thunk\.(\w+)$`. -/
def thunkOf : Text → Option Text
  | [] => none
  | c :: t =>
    let reg := (c :: t).drop thunkPrefix.length
    if thunkPrefix.isPrefixOf (c :: t) && !reg.isEmpty && reg.all isWordChar then some reg
    else thunkOf t

/-- `add\s+reg,(0x[0-9a-f]+)$`: the constant. -/
def addend (reg t : Text) : Option ℕ :=
  (afterMnem "add" t).bind fun r =>
    let h := r.drop (reg.length + 3)
    if r.take (reg.length + 3) == reg ++ ",0x".toList && !h.isEmpty && h.all isHex then
      some (hexVal h)
    else none

/-- The register an idiom that begins at position `i` sets up, and the return address. -/
def setUp (body : List Insn) (i : ℕ) : Option (Text × ℕ) :=
  match body[i]?, body[i + 1]? with
  | some x, some next =>
    (directCall x.text).bind fun call =>
      match thunkOf call.2 with
      | some reg => some ('e' :: reg, next.addr)
      | none =>
        if call.1 == next.addr then (poppedReg next.text).map fun reg => (reg, next.addr) else none
  | _, _ => none

/-- What the first `add` to `reg` after position `i` adds. -/
def firstAddend (body : List Insn) (upto i : ℕ) (reg : Text) : ℕ :=
  (((body.take upto).drop (i + 1)).findSome? fun x => addend reg x.text).getD 0

/-- One turn of the loop. -/
def picStep (body : List Insn) (upto : ℕ) (bases : Text → Option ℕ) (i : ℕ) : Text → Option ℕ :=
  match setUp body i with
  | some (reg, ret) => Function.update bases reg (some (ret + firstAddend body upto i reg))
  | none => bases

/-- register -> value for the i386 PIC bases. -/
def picBase (body : List Insn) (upto : ℕ) : Text → Option ℕ :=
  (List.range (body.take upto).length).foldl (picStep body upto) fun _ => none

/-! ## The window -/

/-- `rdtsc\b` at the head of a text. -/
def isRdtsc (t : Text) : Bool :=
  t.take 5 == "rdtsc".toList && !((t.drop 5).head?.any isWordChar)

/-- (first, last) indices of the timed window: from after the fence that follows the first
`rdtsc`, to the next indirect call, if any. -/
def bounds (body : List Insn) : Option (ℕ × Option ℕ) :=
  (body.findIdx? fun x => isRdtsc x.text).map fun rd =>
    (rd + 2, (List.range' (rd + 2) (body.length - (rd + 2))).find? fun i =>
      (body[i]?).any fun x => indirectCall x.text)

/-! ## The reads -/

/-- `re.search` of a pattern, given how it matches at the head of a text. -/
def searchText {α : Type*} (matchAt : Text → Option α) : Text → Option α
  | [] => none
  | c :: t => matchAt (c :: t) <|> searchText matchAt t

/-- `0x[0-9a-f]+\]` without its `0x`, at the head of a text: the number. -/
def hexClosed (t : Text) : Option ℕ :=
  let h := t.takeWhile isHex
  if !h.isEmpty && (t.dropWhile isHex).head? == some ']' then some (hexVal h) else none

/-- `\[rip\+(0x[0-9a-f]+)\]` at the head of a text. -/
def ripAt : Text → Option ℕ
  | '[' :: 'r' :: 'i' :: 'p' :: '+' :: '0' :: 'x' :: t => hexClosed t
  | _ => none

/-- `\[(e[a-z]{2})\+(0x[0-9a-f]+)\]` at the head of a text: register and displacement. -/
def basedAt : Text → Option (Text × ℕ)
  | '[' :: 'e' :: a :: b :: '+' :: '0' :: 'x' :: t =>
    if a.isLower && b.isLower then (hexClosed t).map fun d => (['e', a, b], d) else none
  | _ => none

/-- The address looked up for an instruction of the window; rip-relative displacements are
from the next instruction, where the window has one. -/
def targetOf (win : List Insn) (bases : Text → Option ℕ) (i : ℕ) (x : Insn) : Option ℕ :=
  match searchText ripAt x.text with
  | some d => some ((win[i + 1]?).elim x.addr Insn.addr + d)
  | none => (searchText basedAt x.text).bind fun m => (bases m.1).map (· + m.2)

/-- index -> (symbol, offset) for every instruction reading a global. -/
def globalsRead (win : List Insn) (bases : Text → Option ℕ) (syms : List Symbol) : Reads := fun i =>
  (win[i]?).bind fun x => (targetOf win bases i x).bind (resolve syms)

/-! ## The code around the window -/

/-- An instruction, and where the next one begins. -/
structure CodeLine where
  addr : ℕ
  next : ℕ
  text : Text

namespace CodeLine

variable (l : CodeLine)

def insn : Insn := ⟨l.addr, l.text⟩

def callsThunk (reg : Text) : Bool :=
  (directCall l.text).any fun call => (thunkOf call.2).any fun r => 'e' :: r == reg

def callsNext : Bool := (directCall l.text).any fun call => call.1 == l.next

end CodeLine

/-- A function body without gaps. -/
structure Body where
  lines : List CodeLine
  sized : ∀ l ∈ lines, l.addr < l.next
  contiguous : lines.IsChain fun l m => m.addr = l.next

/-- What the code has established about a 32-bit register. -/
inductive PicState
  | unknown
  | ret (addr : ℕ)
  | base (addr : ℕ)
  deriving DecidableEq, Repr

namespace Body

variable (b : Body)

def insns : List Insn := b.lines.map CodeLine.insn

/-- `body[start:last+1]` -/
def slice (start last : ℕ) : List Insn := (b.insns.take (last + 1)).drop start

/-- The address looked up for an instruction of a window. -/
def lookedUp (start last k : ℕ) (l : CodeLine) : Option ℕ :=
  targetOf (b.slice start last) (picBase b.insns (last + 1)) (k - start) l.insn

/-- The return address that the instruction at a position leaves in `reg`: a thunk's, or the
one it pops after the call of the next instruction. -/
def returned (reg : Text) (k : ℕ) : Option ℕ :=
  (b.lines[k]?).bind fun l =>
    if l.callsThunk reg then some l.next
    else if poppedReg l.text == some reg then
      ((b.lines.take k).getLast?).bind fun c => if c.callsNext then some c.next else none
    else none

section Pic

variable (overwrites : Insn → Text → Bool) (reg : Text)

/-- One instruction: it brings a return address, adds to it, overwrites the register, or
leaves it. -/
def picAfter (s : PicState) (k : ℕ) (l : CodeLine) : PicState :=
  match b.returned reg k, s, addend reg l.text with
  | some r, _, _ => .ret r
  | none, .ret r, some c => .base ((r + c) % 2 ^ 32)
  | none, s, _ => if overwrites l.insn reg then .unknown else s

/-- What `reg` holds before a position. -/
def picAt : ℕ → PicState
  | 0 => .unknown
  | k + 1 =>
    match b.lines[k]? with
    | some l => b.picAfter overwrites reg (picAt k) k l
    | none => picAt k

/-- The address `[reg±d]` accesses, where it is a global. -/
def accessed (k : ℕ) (d : ℤ) : Option ℕ :=
  match b.picAt overwrites reg k with
  | .base a => some ((a + d) % 2 ^ 32).toNat
  | _ => none

end Pic

end Body

end OMB
