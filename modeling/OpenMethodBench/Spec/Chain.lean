import OpenMethodBench.Lib.Depth
import OpenMethodBench.Spec.Listing
import OpenMethodBench.Spec.Roles

/-! The depth `asmtab.py` publishes: the loads that must complete one after another
before the indirect call can issue. -/

namespace OMB

/-! ## Registers and slots -/

/-- The alternatives of `chain`'s `REG`; it has no `xmm\d+`. -/
def gprAt (t : Text) : Option Text := legacyAt t <|> numberedAt t

/-- `re.findall(REG, t)`, with the flag of `scanRegs`. -/
def scanGprs : Bool → Text → List Text
  | _, [] => []
  | true, c :: t => scanGprs (isLow c) t
  | false, c :: t => (gprAt (c :: t)).toList ++ scanGprs (isLow c) t

/-- `regs(t)`: the registers a text mentions, under their common names. -/
def gprsOf (t : Text) : List Text := (scanGprs false t).map canon

/-- `re.fullmatch` of `REG` without its lookbehind. -/
def isGpr (t : Text) : Bool := gprAt t == some t

/-- `re.search(r"\[[er]sp\+(0x[0-9a-f]+)\]", t)`: the offset. -/
def slotIn : Text → Option ℕ
  | [] => none
  | c :: t => (slotAt (c :: t)).map Prod.fst <|> slotIn t

/-- `max([dep.get(r, 0) for r in rs] or [0])`. -/
def deepest (dep : Text → ℕ) (rs : List Text) : ℕ := Depth.greatest dep rs

namespace Insn

variable (x : Insn)

/-- The offset of the stack slot an operand names. -/
def slot : Option ℕ := slotIn x.ops

/-- The slot an instruction stores to. -/
def stored : Option ℕ := if x.stores then x.slot else none

/-- The general register `chain` takes the instruction to write. -/
def gprDst : Option Text :=
  match x.parts with
  | p :: _ => if isGpr p && !readsFirst.contains x.mnem then some (canon p) else none
  | [] => none

/-- Neither a plain move nor a three-operand form: what the destination held is read. -/
def keepsDst : Bool := !chainMoves.contains x.mnem && decide (x.parts.length ≤ 2)

end Insn

/-! ## The pass -/

structure ChainState where
  dep : Text → ℕ
  stack : ℤ → Option ℕ
  /-- how far `esp` has been pushed down -/
  delta : ℤ

def ChainState.init : ChainState := ⟨fun _ => 0, fun _ => none, 0⟩

/-- `loaded`. A slot this window spilled forwards the depth of what was put there; one it
never wrote is an ordinary load. -/
def loadedBy (s : ChainState) (x : Insn) : Option ℕ :=
  if x.stores then none
  else (x.slot.bind fun offset => s.stack (offset - s.delta)) <|>
    (bracketed x.ops).map fun inner => deepest s.dep (gprsOf inner) + 1

/-- What `dep` gets for the destination. -/
def depthOf (s : ChainState) (x : Insn) (dst : Text) : ℕ :=
  max (if (bracketed x.ops).isSome then 0
      else deepest s.dep (gprsOf (Text.join ',' x.parts.tail)))
    (max ((loadedBy s x).getD 0) (if x.keepsDst then s.dep dst else 0))

/-- A spill, or the definition of a register. -/
def depsAfter (s : ChainState) (x : Insn) : ChainState :=
  match x.stored, x.gprDst with
  | some offset, _ =>
    let depth := deepest s.dep (gprsOf (x.parts.getLastD []))
    { s with stack := Function.update s.stack (offset - s.delta) (some depth) }
  | none, some dst => { s with dep := Function.update s.dep dst (depthOf s x dst) }
  | none, none => s

/-- One turn of the loop before the indirect call. A direct call is the i386 PIC-base
idiom, and `pop` reads the return address off the stack; none where it has no operand. -/
def chainStep (word : ℕ) (s : ChainState) (x : Insn) : Option ChainState :=
  if x.mnem == "call".toList then some s
  else if x.mnem == "pop".toList then
    x.parts.head?.map fun p => { s with dep := Function.update s.dep (canon p) 1 }
  else some { depsAfter s x with delta := deltaAfter word s.delta x }

def isDispatchCall (x : Insn) : Bool := x.mnem == "call".toList && indirectCall x.text

/-- The depth at the indirect call: its own load, or what the register holds. -/
def callDepth (s : ChainState) (x : Insn) : Option ℕ :=
  if (bracketed x.ops).isSome then loadedBy s x else some (deepest s.dep (gprsOf x.ops))

def chainFrom (word : ℕ) : ChainState → List Insn → Option ℕ
  | _, [] => some 0
  | s, x :: rest =>
    if isDispatchCall x then callDepth s x
    else (chainStep word s x).bind fun s => chainFrom word s rest

/-- Dependent loads between the window opening and the call target; none where the code
returns `None` or raises. -/
def chain (win : List Insn) (word : ℕ) : Option ℕ := chainFrom word ChainState.init win

end OMB
