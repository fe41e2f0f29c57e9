import Mathlib.Data.Int.ModEq
import OpenMethodBench.Spec.Chain
import OpenMethodBench.Spec.Machine

/-! Windows that move the stack pointer and use slots under it: what the machine does with
the pointer, and which of the moves `roles` and `chain` miss. -/

namespace OMB

/-- `rsp` of a 64-bit build, `esp` of a 32-bit one. -/
def stackPointer (wide : Bool) : RegName := (Dst.mk (.pointer .sp) wide).name

/-- The `word` of a build. -/
def wordSize (wide : Bool) : ℕ := if wide then 8 else 4

/-- A slot at a displacement from the stack pointer; where that is zero, none is printed. -/
structure Slot where
  size : Size
  disp : Option ℕ
  deriving DecidableEq, Repr

namespace Slot

variable (s : Slot)

def addr (wide : Bool) : Addr := .based wide (.pointer .sp) none (s.disp.map Nat.cast)

def operand (wide : Bool) : Operand := .mem s.size (.at (s.addr wide))

def offset : ℕ := s.disp.getD 0

end Slot

/-- One instruction of such a window. -/
inductive StackOp
  | push (src : Operand)
  | pop (dst : Operand)
  /-- `sub` or `add` of a constant -/
  | adjust (down : Bool) (value : ℕ)
  /-- the call of the next instruction, which a `pop` follows -/
  | callNext (target : ℕ) (symbol : Text)
  | spill (slot : Slot) (src : Operand)
  | reload (dst : RegName) (slot : Slot)
  /-- an instruction that neither moves the pointer nor names it -/
  | other (text : Text)

structure StackLine where
  addr : ℕ
  op : StackOp

section Build

variable (wide : Bool)

namespace StackOp

def text : StackOp → Text
  | push src => "push".toList ++ ' ' :: src.text
  | pop dst => "pop".toList ++ ' ' :: dst.text
  | adjust down c =>
    (if down then "sub".toList else "add".toList) ++
      ' ' :: Text.join ',' [(stackPointer wide).text, hexText c]
  | callNext target symbol =>
    "call".toList ++ ' ' :: (Nat.toDigits 16 target ++ " <".toList ++ symbol ++ ['>'])
  | spill slot src => "mov".toList ++ ' ' :: Text.join ',' [(slot.operand wide).text, src.text]
  | reload dst slot => "mov".toList ++ ' ' :: Text.join ',' [dst.text, (slot.operand wide).text]
  | other text => text

/-- How far the instruction moves the stack pointer. -/
def moves : StackOp → ℤ
  | push _ | callNext _ _ => -wordSize wide
  | pop _ => wordSize wide
  | adjust down c => if down then -c else c
  | _ => 0

/-- The part of it that the passes miss: that of a `pop`, of a call, and of an `add` or
`sub` on `rsp`. -/
def untracked : StackOp → ℤ
  | callNext _ _ => -wordSize wide
  | pop _ => wordSize wide
  | adjust down c => if wide then (if down then -c else c) else 0
  | _ => 0

end StackOp

def StackLine.insn (l : StackLine) : Insn := ⟨l.addr, l.op.text wide⟩

/-! ## Addresses -/

variable (lines : List StackLine)

/-- Where the stack pointer is before a position, from where it was when the window opened. -/
def pointerAt (k : ℕ) : ℤ := ((lines.take k).map fun l => l.op.moves wide).sum

def untrackedAt (k : ℕ) : ℤ := ((lines.take k).map fun l => l.op.untracked wide).sum

/-- Where a slot named at a position is, before the address is cut to the width of the build. -/
def placeAt (k : ℕ) (s : Slot) : ℤ := s.offset + pointerAt wide lines k

def addressAt (k : ℕ) (s : Slot) : ℤ := placeAt wide lines k s % 2 ^ (8 * wordSize wide)

/-- The `mov` spill at a position: the slot and what is stored. -/
def spilledAt (k : ℕ) : Option (Slot × Operand) :=
  (lines[k]?).bind fun l =>
    match l.op with
    | .spill s src => some (s, src)
    | _ => none

/-- The reload at a position: the register and the slot. -/
def reloadedAt (k : ℕ) : Option (RegName × Slot) :=
  (lines[k]?).bind fun l =>
    match l.op with
    | .reload dst s => some (dst, s)
    | _ => none

/-- The address a position stores to by a `mov` spill. -/
def storedTo (k : ℕ) : Option ℤ :=
  (spilledAt lines k).map fun p => addressAt wide lines k p.1

end Build

end OMB
