import OpenMethodBench.Lib.Slicing
import OpenMethodBench.Spec.Asm

/-! The windows the slice is about: loads, moves, arithmetic, stores and compares before
an indirect call, as `objdump` prints them and as the machine executes them. -/

namespace OMB

open DefUse

/-! ## Registers and their names -/

/-- The registers with a high byte of their own. -/
inductive Quad | a | b | c | d
  deriving DecidableEq, Repr

inductive Pointer | si | di | bp | sp
  deriving DecidableEq, Repr

inductive Gpr
  | quad (x : Quad)
  | pointer (p : Pointer)
  | ext (n : Fin 8)
  deriving DecidableEq, Repr

/-- A property of all registers can be checked one by one. -/
instance {P : Gpr → Prop} [DecidablePred P] : Decidable (∀ g, P g) :=
  decidable_of_iff
    ((∀ x ∈ [Quad.a, .b, .c, .d], P (.quad x)) ∧
      (∀ p ∈ [Pointer.si, .di, .bp, .sp], P (.pointer p)) ∧ ∀ n, P (.ext n)) <| by
    refine ⟨fun ⟨hx, hp, hn⟩ g => ?_, fun h => ⟨fun _ _ => h _, fun _ _ => h _, fun _ => h _⟩⟩
    rcases g with x | p | n
    · exact hx x (by cases x <;> decide)
    · exact hp p (by cases p <;> decide)
    · exact hn n

def Quad.letter : Quad → Char
  | .a => 'a' | .b => 'b' | .c => 'c' | .d => 'd'

def Pointer.text : Pointer → Text
  | .si => "si".toList | .di => "di".toList | .bp => "bp".toList | .sp => "sp".toList

/-- `r8` to `r15`. -/
def extText (n : Fin 8) : Text := 'r' :: Nat.toDigits 10 (n + 8)

/-- What `canon` calls the register. -/
def Gpr.common : Gpr → Text
  | .quad x => [x.letter, 'x']
  | .pointer p => p.text
  | .ext n => extText n

inductive Size | byte | word | dword | qword
  deriving DecidableEq, Repr

def Size.bytes : Size → ℕ
  | .byte => 1 | .word => 2 | .dword => 4 | .qword => 8

def Size.text : Size → Text
  | .byte => "BYTE".toList | .word => "WORD".toList
  | .dword => "DWORD".toList | .qword => "QWORD".toList

/-- A register by one of its 64-, 32-, 16- and 8-bit names. -/
inductive RegName
  | full (g : Gpr)
  | half (g : Gpr)
  | word (g : Gpr)
  | low (g : Gpr)
  | high (x : Quad)
  deriving DecidableEq, Repr

instance {P : RegName → Prop} [DecidablePred P] : Decidable (∀ n, P n) :=
  decidable_of_iff
    ((∀ g, P (.full g) ∧ P (.half g) ∧ P (.word g) ∧ P (.low g)) ∧
      ∀ x ∈ [Quad.a, .b, .c, .d], P (.high x)) <| by
    refine ⟨fun ⟨hg, hx⟩ n => ?_, fun h => ⟨fun _ => ⟨h _, h _, h _, h _⟩, fun _ _ => h _⟩⟩
    rcases n with g | g | g | g | x
    · exact (hg g).1
    · exact (hg g).2.1
    · exact (hg g).2.2.1
    · exact (hg g).2.2.2
    · exact hx x (by cases x <;> decide)

namespace RegName

def reg : RegName → Gpr
  | full g | half g | word g | low g => g
  | high x => .quad x

def size : RegName → Size
  | full _ => .qword
  | half _ => .dword
  | word _ => .word
  | low _ | high _ => .byte

def text : RegName → Text
  | full (.quad x) => ['r', x.letter, 'x']
  | half (.quad x) => ['e', x.letter, 'x']
  | word (.quad x) => [x.letter, 'x']
  | low (.quad x) => [x.letter, 'l']
  | high x => [x.letter, 'h']
  | full (.pointer p) => 'r' :: p.text
  | half (.pointer p) => 'e' :: p.text
  | word (.pointer p) => p.text
  | low (.pointer p) => p.text ++ ['l']
  | full (.ext n) => extText n
  | half (.ext n) => extText n ++ ['d']
  | word (.ext n) => extText n ++ ['w']
  | low (.ext n) => extText n ++ ['b']

/-- Does `REG` match the name? Of the 8- and 16-bit names only those of `r8` to `r15`. -/
def spotted : RegName → Bool
  | full _ | half _ | word (.ext _) | low (.ext _) => true
  | _ => false

end RegName

/-- A register written by its 64-bit or its 32-bit name. -/
structure Dst where
  reg : Gpr
  wide : Bool
  deriving DecidableEq, Repr

def Dst.name (d : Dst) : RegName := if d.wide then .full d.reg else .half d.reg

/-! ## Operands -/

def hexText (n : ℕ) : Text := '0' :: 'x' :: Nat.toDigits 16 n

def dispText (d : ℤ) : Text := (if d < 0 then '-' else '+') :: hexText d.natAbs

/-- What stands in the brackets. Its registers are all 64-bit (`wide`) or all 32-bit;
an index is scaled by the bytes of a size. -/
inductive Addr
  | rip (disp : ℤ)
  | based (wide : Bool) (base : Gpr) (index : Option (Gpr × Size)) (disp : Option ℤ)
  | table (wide : Bool) (index : Gpr) (scale : Size) (disp : ℤ)
  deriving DecidableEq, Repr

namespace Addr

def scaledText (wide : Bool) (g : Gpr) (s : Size) : Text :=
  (Dst.mk g wide).name.text ++ '*' :: Nat.toDigits 10 s.bytes

def text : Addr → Text
  | rip d => "rip".toList ++ dispText d
  | based wide b none d => (Dst.mk b wide).name.text ++ (d.map dispText).getD []
  | based wide b (some (i, s)) d =>
    (Dst.mk b wide).name.text ++ '+' :: scaledText wide i s ++ (d.map dispText).getD []
  | table wide i s d => scaledText wide i s ++ dispText d

def names : Addr → List RegName
  | rip _ => []
  | based wide b i _ => (Dst.mk b wide).name :: i.toList.map fun (g, _) => (Dst.mk g wide).name
  | table wide i _ _ => [(Dst.mk i wide).name]

end Addr

/-- A place in memory: `[…]`, or an absolute address. -/
inductive Place
  | at (a : Addr)
  | abs (n : ℕ)
  deriving DecidableEq, Repr

namespace Place

def text : Place → Text
  | .at a => '[' :: a.text ++ [']']
  | abs n => "ds:".toList ++ hexText n

def names : Place → List RegName
  | .at a => a.names
  | abs _ => []

end Place

inductive Operand
  | reg (n : RegName)
  | imm (v : ℕ)
  | mem (size : Size) (p : Place)
  deriving DecidableEq, Repr

namespace Operand

def text : Operand → Text
  | reg n => n.text
  | imm v => hexText v
  | mem s p => s.text ++ " PTR ".toList ++ p.text

def names : Operand → List RegName
  | reg n => [n]
  | imm _ => []
  | mem _ p => p.names

def size : Operand → Size
  | reg n => n.size
  | imm _ => .qword
  | mem s _ => s

end Operand

/-! ## Instructions -/

/-- A mnemonic that `bookkeeping` takes neither for a plain move nor for a reader of its
first operand. -/
structure Mnem where
  text : Text
  nonempty : text ≠ []
  low : ∀ c ∈ text, isLow c = true
  computes : text ∉ readsFirst ++ plainMoves

inductive Move | mov | movzx | movsx
  deriving DecidableEq, Repr

def Move.text : Move → Text
  | .mov => "mov".toList | .movzx => "movzx".toList | .movsx => "movsx".toList

inductive Op
  /-- load or move into a register -/
  | move (m : Move) (dst : Dst) (src : Operand)
  | lea (dst : Dst) (a : Addr)
  /-- reads and writes its register -/
  | arith2 (m : Mnem) (dst : Dst) (src : Operand)
  /-- `shrx r,r,r`, `imul r,r,imm` -/
  | arith3 (m : Mnem) (dst : Dst) (src₁ src₂ : Operand)
  | store (size : Size) (a : Addr) (src : Operand)
  /-- reads and writes its place in memory -/
  | modify (m : Mnem) (size : Size) (a : Addr) (src : Operand)
  /-- `cmp`, or `test` -/
  | compare (test : Bool) (left right : Operand)

namespace Op

def mnem : Op → Text
  | move m _ _ => m.text
  | lea _ _ => "lea".toList
  | store _ _ _ => "mov".toList
  | arith2 m _ _ | arith3 m _ _ _ | modify m _ _ _ => m.text
  | compare test _ _ => if test then "test".toList else "cmp".toList

def operands : Op → List Text
  | move _ d s | arith2 _ d s => [d.name.text, s.text]
  | lea d a => [d.name.text, (Place.at a).text]
  | arith3 _ d s t => [d.name.text, s.text, t.text]
  | store z a s | modify _ z a s => [(Operand.mem z (.at a)).text, s.text]
  | compare _ l r => [l.text, r.text]

def text (o : Op) : Text := o.mnem ++ ' ' :: Text.join ',' o.operands

end Op

/-- An instruction at its address, and the address of the one after it. -/
structure Line where
  addr : ℕ
  next : ℕ
  op : Op

def Line.insn (l : Line) : Insn := ⟨l.addr, l.op.text⟩

/-- The operand of the indirect call. -/
inductive Target
  | reg (d : Dst)
  | mem (size : Size) (a : Addr)
  deriving DecidableEq, Repr

namespace Target

def operand : Target → Operand
  | reg d => .reg d.name
  | mem z a => .mem z (.at a)

def text (t : Target) : Text := "call ".toList ++ t.operand.text

end Target

/-- A window: what stands before the indirect call, and the call. -/
structure Window where
  lines : List Line
  addr : ℕ
  next : ℕ
  target : Target

/-- The window as `bookkeeping` gets it. -/
def Window.insns (w : Window) : List Insn :=
  w.lines.map Line.insn ++ [⟨w.addr, w.target.text⟩]

/-! ## Execution -/

abbrev Memory := BitVec 64 → BitVec 8

abbrev Machine := State Gpr (BitVec 64) Memory

/-- The arithmetic mnemonics as functions of their explicit operands. -/
abbrev Arith := Text → List (Size × BitVec 64) → BitVec 64

namespace Size

/-- The low bytes of a value, zero-extended. -/
def trunc (s : Size) (v : BitVec 64) : BitVec 64 := (v.setWidth (8 * s.bytes)).setWidth 64

/-- The low bytes of a value, sign-extended. -/
def extend (s : Size) (v : BitVec 64) : BitVec 64 := (v.setWidth (8 * s.bytes)).signExtend 64

end Size

def Memory.load (m : Memory) (s : Size) (a : BitVec 64) : BitVec 64 :=
  (List.range s.bytes).foldr (fun i acc => acc <<< 8 ||| (m (a + BitVec.ofNat 64 i)).setWidth 64) 0

def Memory.store (m : Memory) (s : Size) (a v : BitVec 64) : Memory := fun x =>
  let k := (x - a).toNat
  if k < s.bytes then (v >>> (8 * k)).setWidth 8 else m x

def RegName.value (n : RegName) (regs : Gpr → BitVec 64) : BitVec 64 :=
  match n with
  | high x => Size.byte.trunc (regs (.quad x) >>> 8)
  | n => n.size.trunc (regs n.reg)

/-- Writing a 32-bit name clears the upper half. -/
def Dst.write (d : Dst) (v : BitVec 64) (s : Machine) : Machine :=
  { s with regs := fun g =>
      if g = d.reg then (if d.wide then v else Size.dword.trunc v) else s.regs g }

/-- The address, `next` being that of the following instruction. -/
def Addr.value (a : Addr) (next : ℕ) (regs : Gpr → BitVec 64) : BitVec 64 :=
  match a with
  | rip d => BitVec.ofInt 64 (next + d)
  | based wide b i d =>
    let scaled := (i.map fun (g, s) => regs g * BitVec.ofNat 64 s.bytes).getD 0
    (if wide then Size.qword else .dword).trunc (regs b + scaled + BitVec.ofInt 64 (d.getD 0))
  | table wide i s d =>
    (if wide then Size.qword else .dword).trunc
      (regs i * BitVec.ofNat 64 s.bytes + BitVec.ofInt 64 d)

def Place.value (p : Place) (next : ℕ) (regs : Gpr → BitVec 64) : BitVec 64 :=
  match p with
  | .at a => a.value next regs
  | abs n => BitVec.ofNat 64 n

def Operand.value (o : Operand) (next : ℕ) (s : Machine) : BitVec 64 :=
  match o with
  | reg n => n.value s.regs
  | imm v => BitVec.ofNat 64 v
  | mem z p => s.mem.load z (p.value next s.regs)

def Operand.arg (o : Operand) (next : ℕ) (s : Machine) : Size × BitVec 64 :=
  (o.size, o.value next s)

def Line.step (F : Arith) (l : Line) (s : Machine) : Machine :=
  match l.op with
  | .move .movsx d src => d.write (src.size.extend (src.value l.next s)) s
  | .move _ d src => d.write (src.value l.next s) s
  | .lea d a => d.write (a.value l.next s.regs) s
  | .arith2 m d src =>
    d.write (F m.text [(Operand.reg d.name).arg l.next s, src.arg l.next s]) s
  | .arith3 m d s₁ s₂ => d.write (F m.text [s₁.arg l.next s, s₂.arg l.next s]) s
  | .store z a src =>
    { s with mem := s.mem.store z (a.value l.next s.regs) (src.value l.next s) }
  | .modify m z a src =>
    let v := F m.text [(Operand.mem z (.at a)).arg l.next s, src.arg l.next s]
    { s with mem := s.mem.store z (a.value l.next s.regs) v }
  | .compare _ _ _ => s

namespace Window

variable (w : Window) (F : Arith)

/-- The machine at the call after the whole window. -/
def whole (s : Machine) : Machine := run (w.lines.map (Line.step F)) s

/-- The machine at the call after the instructions `bookkeeping` does not return. -/
def sliced (word : ℕ) (s : Machine) : Machine :=
  run (kept (fun i => !(bookkeeping w.insns word).contains i) (w.lines.map (Line.step F))) s

/-- Where the call goes. -/
def callee (s : Machine) : BitVec 64 := w.target.operand.value w.next s

end Window

/-! ## Definitions and uses -/

def regsNamed (ns : List RegName) : List Gpr := ns.map RegName.reg

/-- The registers that the names `REG` matches stand for. -/
def regsSpotted (ns : List RegName) : List Gpr := (ns.filter RegName.spotted).map RegName.reg

namespace Op

/-- The names the instruction reads registers by, besides its destination. -/
def names : Op → List RegName
  | move _ _ s | arith2 _ _ s => s.names
  | lea _ a => a.names
  | arith3 _ _ s t => s.names ++ t.names
  | store _ a s | modify _ _ a s => a.names ++ s.names
  | compare _ l r => l.names ++ r.names

/-- What the instruction writes and reads. -/
def effect : Op → Effect Gpr
  | move _ d s => .define d.reg (regsNamed s.names)
  | lea d a => .define d.reg (regsNamed a.names)
  | arith2 _ d s => .define d.reg (d.reg :: regsNamed s.names)
  | arith3 _ d s t => .define d.reg (regsNamed (s.names ++ t.names))
  | store _ a s | modify _ _ a s => .keep (regsNamed (a.names ++ s.names))
  | compare _ _ _ => .skip

/-- What the instruction writes and reads in the eyes of `bookkeeping`. It misses the
reads through names `REG` does not match, takes every arithmetic form for a read of the
register it writes, and a compare with a place in memory for a store. -/
def spotted : Op → Effect Gpr
  | move _ d s => .define d.reg (regsSpotted s.names)
  | lea d a => .define d.reg (regsSpotted a.names)
  | arith2 _ d s => .define d.reg (d.reg :: regsSpotted s.names)
  | arith3 _ d s t => .define d.reg (d.reg :: regsSpotted (s.names ++ t.names))
  | store _ a s | modify _ _ a s => .keep (regsSpotted (a.names ++ s.names))
  | compare _ (.mem _ (.at a)) s => .keep (regsSpotted (a.names ++ s.names))
  | compare _ _ _ => .skip

end Op

namespace Window

variable (w : Window)

def effects : List (Effect Gpr) := w.lines.map fun l => l.op.effect

def spotted : List (Effect Gpr) := w.lines.map fun l => l.op.spotted

/-- What the call reads. -/
def roots : List Gpr := regsNamed w.target.operand.names

end Window

end OMB
