import OpenMethodBench.Lib.Text

/-! The def-use passes of `asmtab.py` over the text `objdump` prints: how registers
are recognised and named, and the backward slice `bookkeeping`. -/

namespace OMB

/-- One entry of a window: `(addr, text)`. `disassemble` has collapsed the white space
of the text and keeps no blank one. -/
structure Insn where
  addr : ℕ
  text : Text
  deriving DecidableEq, Repr

/-! ## Registers -/

/-- `[a-z0-9]`. -/
def isLow (c : Char) : Bool := c.isLower || c.isDigit

/-- `[re][a-z]{2}` at the head of a text. -/
def legacyAt : Text → Option Text
  | c :: a :: b :: _ =>
    if (c == 'r' || c == 'e') && a.isLower && b.isLower then some [c, a, b] else none
  | _ => none

/-- `r\d+[dwb]?` at the head of a text. -/
def numberedAt : Text → Option Text
  | c :: t =>
    let ds := t.takeWhile Char.isDigit
    let suffix := (t.dropWhile Char.isDigit).head?.filter fun s => s == 'd' || s == 'w' || s == 'b'
    if c == 'r' && !ds.isEmpty then some (c :: ds ++ suffix.toList) else none
  | [] => none

/-- `xmm\d+` at the head of a text. -/
def xmmAt (t : Text) : Option Text :=
  let ds := (t.drop 3).takeWhile Char.isDigit
  if t.take 3 == "xmm".toList && !ds.isEmpty then some ("xmm".toList ++ ds) else none

/-- The alternatives of `REG`, in order. -/
def regAt (t : Text) : Option Text := legacyAt t <|> numberedAt t <|> xmmAt t

/-- `re.findall(REG, t)`; the flag says that the character before `t` is in `[a-z0-9]`,
where the lookbehind fails. A match is made of such characters, so the positions inside
it are passed over by the same test. -/
def scanRegs : Bool → Text → List Text
  | _, [] => []
  | true, c :: t => scanRegs (isLow c) t
  | false, c :: t => (regAt (c :: t)).toList ++ scanRegs (isLow c) t

def findRegs (t : Text) : List Text := scanRegs false t

/-- `re.fullmatch` of `REG` without its lookbehind. -/
def isReg (t : Text) : Bool := regAt t == some t

/-- `[re]?([a-d])x|([a-d])[hl]`. -/
def quadStem : Text → Option Char
  | [c, k] =>
    if c.isLower && c ≤ 'd' && (k == 'x' || k == 'h' || k == 'l') then some c else none
  | [p, c, k] =>
    if (p == 'r' || p == 'e') && c.isLower && c ≤ 'd' && k == 'x' then some c else none
  | _ => none

/-- `[re]?(si|di|bp|sp)l?`. -/
def pointerStem (reg : Text) : Option Text :=
  let body := if reg.head? == some 'r' || reg.head? == some 'e' then reg.tail else reg
  if ["si".toList, "di".toList, "bp".toList, "sp".toList].contains (body.take 2) &&
      (body.drop 2 == [] || body.drop 2 == ['l']) then some (body.take 2) else none

/-- eax and rax are the same value to a def-use pass; so are r8 and r8d. -/
def canon (reg : Text) : Text :=
  if numberedAt reg == some reg then 'r' :: reg.tail.takeWhile Char.isDigit
  else match quadStem reg with
    | some c => [c, 'x']
    | none => (pointerStem reg).getD reg

/-- The registers a text mentions, under their common names. -/
def regsOf (t : Text) : List Text := (findRegs t).map canon

/-! ## Operands -/

/-- Mnemonics whose first operand is read, not written. -/
def readsFirst : List Text :=
  ["push", "call", "cmp", "test", "jmp", "je", "jne", "ret"].map String.toList

/-- The plain moves `bookkeeping` knows to redefine their destination. -/
def plainMoves : List Text := ["mov", "movzx", "movsx", "lea"].map String.toList

/-- `MOVE` of `chain`. -/
def chainMoves : List Text :=
  ["mov", "movzx", "movsx", "lea", "shrx", "shlx", "sarx"].map String.toList

/-- `[A-Za-z0-9_]`. -/
def isWordChar (c : Char) : Bool := c.isAlphanum || c == '_'

/-- `re.match(r"\w+ PTR \[[^\]]+\],", ops)`. -/
def storesTo (ops : Text) : Bool :=
  let size := ops.takeWhile isWordChar
  let rest := ops.dropWhile isWordChar
  let inner := (rest.drop 6).takeWhile (· != ']')
  !size.isEmpty && rest.take 6 == " PTR [".toList && !inner.isEmpty &&
    ((rest.drop 6).dropWhile (· != ']')).take 2 == "],".toList

/-- The group of `re.search(r"\[([^\]]+)\]", t)`: what stands in the first brackets that
hold anything. -/
def bracketed : Text → Option Text
  | [] => none
  | c :: t =>
    let inner := t.takeWhile (· != ']')
    if c == '[' && !inner.isEmpty && t.contains ']' then some inner else bracketed t

namespace Insn

variable (x : Insn)

def mnem : Text := Text.firstWord x.text

def ops : Text := Text.strip (x.text.drop x.mnem.length)

def parts : List Text := if x.ops.isEmpty then [] else (x.ops.splitOn ',').map Text.strip

def stores : Bool := storesTo x.ops

def dst : Option Text :=
  match x.parts with
  | p :: _ => if isReg p && !readsFirst.contains x.mnem then some (canon p) else none
  | [] => none

/-- Kept whatever is needed after it. -/
def alwaysKept : Bool := x.stores || x.mnem == "push".toList || x.mnem == "call".toList

/-- The registers `bookkeeping` adds for an instruction it keeps. -/
def reads : List Text :=
  match x.dst with
  | some _ => regsOf (Text.join ',' x.parts.tail)
  | none => regsOf x.ops

/-- `chain` does not carry what the destination held over to what it holds next: a
`pop`, a `MOVE`, or a form with three operands. -/
def redefines : Bool :=
  x.mnem == "pop".toList || chainMoves.contains x.mnem || decide (x.parts.length > 2)

end Insn

/-! ## The i386 PIC idiom -/

def isHex (c : Char) : Bool := c.isDigit || ('a' ≤ c && c ≤ 'f')

def hexVal (t : Text) : ℕ :=
  t.foldl (fun n c => n * 16 + if c.isDigit then c.toNat - 48 else c.toNat - 87) 0

/-- `name\s+` at the head of a text, and what follows it. -/
def afterMnem (name : String) (t : Text) : Option Text :=
  let rest := t.drop name.toList.length
  if t.take name.toList.length == name.toList && !(rest.takeWhile Text.isSpace).isEmpty
  then some (rest.dropWhile Text.isSpace) else none

/-- `call\s+([0-9a-f]+)`, as a number. -/
def directTarget (t : Text) : Option ℕ :=
  (afterMnem "call" t).bind fun r =>
    let h := r.takeWhile isHex
    if h.isEmpty then none else some (hexVal h)

/-- `pop\s+(e[a-z]{2})$`. -/
def poppedReg (t : Text) : Option Text :=
  (afterMnem "pop" t).bind fun
    | [e, a, b] => if e == 'e' && a.isLower && b.isLower then some [e, a, b] else none
    | _ => none

/-- `add\s+reg,0x[0-9a-f]+$`. -/
def addsTo (reg t : Text) : Bool :=
  (afterMnem "add" t).any fun r =>
    let n := reg.length
    r.take (n + 3) == reg ++ ",0x".toList && !(r.drop (n + 3)).isEmpty &&
      (r.drop (n + 3)).all isHex

/-- The marks the loop of `pic_setup` adds at position `i`. -/
def picMarks (win : List Insn) (i : ℕ) : List ℕ :=
  match win[i]?, win[i + 1]? with
  | some a, some b =>
    if directTarget a.text == some b.addr then
      match poppedReg b.text with
      | some reg =>
        let later := (List.range' (i + 2) (win.length - (i + 2))).find? fun j =>
          (win[j]?).any fun x => addsTo reg x.text
        i :: (i + 1) :: later.toList
      | none => []
    else []
  | _, _ => []

def picSetup (win : List Insn) : List ℕ := (List.range (win.length - 1)).flatMap (picMarks win)

/-! ## The slice -/

/-- `wanted`. -/
def wanted (needed : List Text) (x : Insn) : Bool :=
  x.alwaysKept || x.dst.any needed.contains

/-- `needed` after an instruction has been added to `keep`. -/
def neededBefore (needed : List Text) (x : Insn) : List Text :=
  (match x.dst with
    | some d =>
      if needed.contains d && plainMoves.contains x.mnem then needed.filter (· != d) else needed
    | none => needed) ++ x.reads

/-- The loop of `bookkeeping`, from the call backwards: for each position whether the
slice adds it to `keep`, and the registers `needed` before the window. -/
def sliceLoop : List Insn → List Bool × List Text
  | [] => ([], [])
  | [call] => ([true], regsOf call.text)
  | x :: rest =>
    let (flags, needed) := sliceLoop rest
    if wanted needed x then (true :: flags, neededBefore needed x) else (false :: flags, needed)

/-- Is position `i` in `keep` when `bookkeeping` returns? -/
def keeps (win : List Insn) (i : ℕ) : Bool :=
  (sliceLoop win).1.getD i false || (picSetup win).contains i

/-- The indices that are harness, not dispatch; `word` is unused there too. -/
def bookkeeping (win : List Insn) (_word : ℕ) : List ℕ :=
  (List.range win.length).filter fun i => !keeps win i

/-- A call through memory or a register:
`call\s+(?:\w+ PTR )?\[` or `call\s+(?:[er][a-z]{2}|r\d+)$`. -/
def indirectCall (t : Text) : Bool :=
  (afterMnem "call" t).any fun r =>
    let size := r.takeWhile isWordChar
    r.head? == some '[' ||
    (!size.isEmpty && (r.dropWhile isWordChar).take 6 == " PTR [".toList) ||
    (legacyAt r == some r ||
      (r.head? == some 'r' && !r.tail.isEmpty && r.tail.all Char.isDigit))

end OMB
