import Mathlib.Data.Multiset.Filter
import Mathlib.Data.Multiset.AddSub
import OpenMethodBench.Spec.Asm

/-! What the oracle of `asmtab.py` compares of two rendered listings: the shapes of the
instructions that are the dispatch. -/

namespace OMB

/-- `re.sub(REG, "r", t)`, with the flag of `scanRegs` and how many characters of the
last match are still to be passed over. -/
def subRegs : Bool → ℕ → Text → Text
  | _, _, [] => []
  | _, k + 1, c :: t => subRegs (isLow c) k t
  | true, 0, c :: t => c :: subRegs (isLow c) 0 t
  | false, 0, c :: t =>
    match regAt (c :: t) with
    | some m => 'r' :: subRegs (isLow c) (m.length - 1) t
    | none => c :: subRegs (isLow c) 0 t

/-- `t.replace(old, new)` for a nonempty `old`, the count as in `subRegs`. -/
def replaceText (old new : Text) : ℕ → Text → Text
  | _, [] => []
  | k + 1, _ :: t => replaceText old new k t
  | 0, c :: t =>
    if old.isPrefixOf (c :: t) then new ++ replaceText old new (old.length - 1) t
    else c :: replaceText old new 0 t

/-- An instruction reduced to what a register allocator cannot change. -/
def shape (text : Text) : Text :=
  let mnem := Text.firstWord text
  let ops := Text.strip (text.drop mnem.length)
  let ops := replaceText "+0x0]".toList "]".toList 0 (subRegs false 0 ops)
  (if mnem == "jmp".toList then "call".toList else mnem) ++ ' ' :: ops

/-- `re.search(r"\[[er]sp", t)`. -/
def onStack : Text → Bool
  | [] => false
  | c :: t =>
    (c == '[' && (t.take 3 == "esp".toList || t.take 3 == "rsp".toList)) || onStack t

/-- The hash arithmetic. -/
def isArithmetic (t : Text) : Bool :=
  ["imul", "shrx", "shr"].map String.toList |>.contains (Text.firstWord t)

/-- Does `dispatch_ops` count the instruction? -/
def dispatches (t : Text) : Bool :=
  let stores := storesTo (t.drop (Text.firstWord t).length)
  ((bracketed t).isSome && !stores && !onStack t) || isArithmetic t

/-- The instructions that are the dispatch, as shapes. -/
def dispatchOps (rendered : List Text) : Multiset Text := (rendered.filter dispatches).map shape

/-- What `check_oracle` misses in the window: the shapes of the probe's listing that the
window's has not, with how often. -/
def oracleMissing (probe window : List Text) : Multiset Text :=
  dispatchOps probe - dispatchOps window

/-! ## Instructions of a listing -/

/-- An instruction as `render` prints it: `disassemble` has stripped it. -/
structure Rendered where
  text : Text
  stripped : ∀ c ∈ text.head?, Text.isSpace c = false

/-- A store `mov X PTR [...], src` of a register or an immediate. -/
structure StoreText where
  size : Text
  inner : Text
  src : Text
  size_word : size ≠ [] ∧ ∀ c ∈ size, isWordChar c = true
  inner_plain : inner ≠ [] ∧ ∀ c ∈ inner, c ≠ '[' ∧ c ≠ ']'
  src_low : src ≠ [] ∧ ∀ c ∈ src, isLow c = true

namespace StoreText

variable (s : StoreText)

def ops : Text := s.size ++ " PTR [".toList ++ s.inner ++ "], ".toList ++ s.src

def rendered : Rendered where
  text := "mov ".toList ++ s.ops
  stripped := by simp [Text.isSpace]

/-- The address of the store starts at the stack pointer. -/
def onFrame : Bool := s.inner.take 3 == "esp".toList || s.inner.take 3 == "rsp".toList

end StoreText

/-- Which instructions read memory that they do not address through `esp` or `rsp`: the
processor's, not the pass's. -/
structure MemoryReads where
  reads : Text → Bool
  store : ∀ s : StoreText, reads s.rendered.text = false

/-- The instructions `dispatch_ops` is for: reads of memory off the stack, and the hash
arithmetic. -/
def MemoryReads.isDispatch (m : MemoryReads) (t : Text) : Bool := m.reads t || isArithmetic t

end OMB
