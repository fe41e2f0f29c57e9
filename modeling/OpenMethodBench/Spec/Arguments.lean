import OpenMethodBench.Lib.Places
import OpenMethodBench.Spec.Machine

/-! The windows the call's arguments are about: besides what `Machine` has, arithmetic on one
operand, moves to absolute addresses and pushes. -/

namespace OMB

open DefUse

/-! ## Instructions -/

inductive Unary | neg | not | inc | dec | bswap
  deriving DecidableEq, Repr

def Unary.text : Unary → Text
  | .neg => "neg".toList | .not => "not".toList | .inc => "inc".toList | .dec => "dec".toList
  | .bswap => "bswap".toList

inductive FullOp
  | plain (o : Op)
  /-- reads and writes its register -/
  | unary (u : Unary) (dst : Dst)
  /-- reads and writes its place in memory -/
  | unaryMem (u : Unary) (size : Size) (p : Place)
  /-- `mov` to an absolute address -/
  | storeAbs (size : Size) (n : ℕ) (src : Operand)
  | push (src : Operand)

namespace FullOp

def text : FullOp → Text
  | plain o => o.text
  | unary u d => u.text ++ ' ' :: d.name.text
  | unaryMem u z p => u.text ++ ' ' :: (Operand.mem z p).text
  | storeAbs z n s => "mov".toList ++ ' ' :: Text.join ',' [(Operand.mem z (.abs n)).text, s.text]
  | push s => "push".toList ++ ' ' :: s.text

/-- Writes memory, but not as `X PTR […],` or by `push`. -/
def isHidden : FullOp → Bool
  | unaryMem _ _ _ | storeAbs _ _ _ => true
  | _ => false

def isPush : FullOp → Bool
  | push _ => true
  | _ => false

end FullOp

/-- An instruction at its address, and the address of the one after it. -/
structure FullLine where
  addr : ℕ
  next : ℕ
  op : FullOp

def FullLine.insn (l : FullLine) : Insn := ⟨l.addr, l.op.text⟩

structure FullWindow where
  lines : List FullLine
  addr : ℕ
  next : ℕ
  target : Target

/-- The window as `bookkeeping` gets it. -/
def FullWindow.insns (w : FullWindow) : List Insn :=
  w.lines.map FullLine.insn ++ [⟨w.addr, w.target.text⟩]

/-! ## Execution -/

/-- The stack pointer. -/
def rsp : Gpr := .pointer .sp

def FullLine.step (F : Arith) (l : FullLine) (s : Machine) : Machine :=
  match l.op with
  | .plain o => Line.step F ⟨l.addr, l.next, o⟩ s
  | .unary u d => d.write (F u.text [(Operand.reg d.name).arg l.next s]) s
  | .unaryMem u z p =>
    { s with mem := s.mem.store z (p.value l.next s.regs) (F u.text [(Operand.mem z p).arg l.next s]) }
  | .storeAbs z n src => { s with mem := s.mem.store z (BitVec.ofNat 64 n) (src.value l.next s) }
  | .push src =>
    let top := s.regs rsp - 8
    ⟨fun g => if g = rsp then top else s.regs g, s.mem.store .qword top (src.value l.next s)⟩

namespace FullWindow

variable (w : FullWindow) (F : Arith)

/-- The machine at the call after the whole window. -/
def whole (s : Machine) : Machine := run (w.lines.map (FullLine.step F)) s

/-- The machine at the call after the instructions `bookkeeping` does not return. -/
def sliced (word : ℕ) (s : Machine) : Machine :=
  run (kept (fun i => !(bookkeeping w.insns word).contains i) (w.lines.map (FullLine.step F))) s

end FullWindow

/-! ## Definitions and uses -/

/-- What an operand is computed from: its registers, and memory if it lies there. -/
def Operand.places : Operand → List (Option Gpr)
  | reg n => [some n.reg]
  | imm _ => []
  | mem _ p => none :: (regsNamed p.names).map some

namespace Op

/-- What the instruction writes, each place with those its value is computed from. -/
def writes : Op → Places.Writes Gpr
  | move _ d s => [(some d.reg, s.places)]
  | lea d a => [(some d.reg, (regsNamed a.names).map some)]
  | arith2 _ d s => [(some d.reg, some d.reg :: s.places)]
  | arith3 _ d s t => [(some d.reg, s.places ++ t.places)]
  | store _ a s | modify _ _ a s => [(none, none :: ((regsNamed a.names).map some ++ s.places))]
  | compare _ _ _ => []

end Op

namespace FullOp

/-- The names the instruction reads registers by, besides its destination. -/
def names : FullOp → List RegName
  | plain o => o.names
  | unary _ _ => []
  | unaryMem _ _ p => p.names
  | storeAbs _ _ s | push s => s.names

/-- What the instruction writes, each place with those its value is computed from. -/
def writes : FullOp → Places.Writes Gpr
  | plain o => o.writes
  | unary _ d => [(some d.reg, [some d.reg])]
  | unaryMem _ _ p => [(none, none :: (regsNamed p.names).map some)]
  | storeAbs _ _ s => [(none, none :: s.places)]
  | push s => [(none, none :: some rsp :: s.places), (some rsp, [some rsp])]

/-- What the instruction writes and reads in the eyes of `bookkeeping`: of a push the operand
alone, of a write of memory it does not recognise nothing. -/
def spotted : FullOp → Effect Gpr
  | plain o => o.spotted
  | unary _ d => .define d.reg [d.reg]
  | unaryMem _ _ _ | storeAbs _ _ _ => .skip
  | push s => .keep (regsSpotted s.names)

end FullOp

namespace FullWindow

variable (w : FullWindow)

def writes : List (Places.Writes Gpr) := w.lines.map fun l => l.op.writes

def spotted : List (Effect Gpr) := w.lines.map fun l => l.op.spotted

/-- What the call reads. -/
def roots : List Gpr := regsNamed w.target.operand.names

end FullWindow

end OMB
