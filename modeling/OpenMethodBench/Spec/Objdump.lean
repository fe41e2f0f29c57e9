import OpenMethodBench.Lib.Dict
import OpenMethodBench.Lib.Spacing
import OpenMethodBench.Spec.Asm

/-! What `asmtab.py` reads from `objdump -dC`: the functions of a binary, and their
instructions. -/

namespace OMB

/-! ## Reading -/

/-- `^([0-9a-f]+) <(.+)>:$`: the name. -/
def headerName (line : Text) : Option Text :=
  let rest := line.dropWhile isHex
  let name := (rest.drop 2).take (rest.length - 4)
  if !(line.takeWhile isHex).isEmpty && !name.isEmpty &&
    rest == " <".toList ++ (name ++ ">:".toList) then some name else none

/-- `^\s+([0-9a-f]+):\t(.*)$`: address and text. -/
def insnLine (line : Text) : Option (ℕ × Text) :=
  let body := line.dropWhile Text.isSpace
  let rest := body.dropWhile isHex
  if !(line.takeWhile Text.isSpace).isEmpty && !(body.takeWhile isHex).isEmpty &&
    rest.take 2 == ":\t".toList then some (hexVal (body.takeWhile isHex), rest.drop 2) else none

/-- `re.sub(r"\s+#.*$", "", t)`. -/
def dropComment : Text → Text
  | [] => []
  | c :: t =>
    if Text.isSpace c && (t.dropWhile Text.isSpace).head? == some '#' then []
    else c :: dropComment t

/-- What is kept of an instruction's text. -/
def insnText (t : Text) : Text := Text.strip (Text.collapse false (dropComment t))

/-- The instruction on a line, if there is one. -/
def lineInsn (line : Text) : Option Insn :=
  (insnLine line).bind fun m => if (insnText m.2).isEmpty then none else some ⟨m.1, insnText m.2⟩

/-- The functions read so far, and the one `cur` stands for. -/
structure Disassembly where
  funcs : Dict Text (List Insn)
  cur : Option Text

/-- One line. A name met again starts anew. -/
def Disassembly.read (s : Disassembly) (line : Text) : Disassembly :=
  match headerName line with
  | some name => ⟨s.funcs.set name [], some name⟩
  | none =>
    match s.cur, lineInsn line with
    | some name, some x => { s with funcs := s.funcs.push name x }
    | _, _ => s

/-- symbol -> [(addr, text)], from what `objdump` printed. -/
def disassemble (out : Text) : Dict Text (List Insn) :=
  ((out.splitOn '\n').foldl Disassembly.read ⟨[], none⟩).funcs

/-! ## What `objdump` prints -/

/-- No `#` follows white space. -/
def Uncommented (t : Text) : Prop :=
  ∀ pre c post, t = pre ++ c :: '#' :: post → Text.isSpace c = false

/-- White space within a line. -/
def Blank (t : Text) : Prop := t ≠ [] ∧ '\n' ∉ t ∧ ∀ c ∈ t, Text.isSpace c = true

def HexDigits (t : Text) : Prop := t ≠ [] ∧ ∀ c ∈ t, isHex c = true

/-- The line of an instruction: its mnemonic and operands with any white space between them,
and perhaps a comment. -/
structure DumpInsn where
  indent : Text
  digits : Text
  text : Text
  comment : Option (Text × Text)
  indent_blank : Blank indent
  digits_hex : HexDigits digits
  text_line : '\n' ∉ text ∧ Uncommented text
  comment_line : ∀ c ∈ comment, Blank c.1 ∧ '\n' ∉ c.2

namespace DumpInsn

variable (x : DumpInsn)

def commentText : Text := (x.comment.map fun c => c.1 ++ '#' :: c.2).getD []

def line : Text := x.indent ++ (x.digits ++ (":\t".toList ++ (x.text ++ x.commentText)))

/-- What the line says. -/
def insn : Insn := ⟨hexVal x.digits, Text.respaced x.text⟩

end DumpInsn

/-- A line that neither names a function nor holds an instruction. -/
structure Filler where
  line : Text
  single : '\n' ∉ line
  plain : headerName line = none ∧ insnLine line = none

/-- A function: the line with its name, and the lines up to the next such line. -/
structure DumpFn where
  digits : Text
  name : Text
  body : List (Filler ⊕ DumpInsn)
  digits_hex : HexDigits digits
  name_line : name ≠ [] ∧ '\n' ∉ name

namespace DumpFn

variable (f : DumpFn)

def header : Text := f.digits ++ (" <".toList ++ (f.name ++ ">:".toList))

def lines : List Text := f.header :: f.body.map (Sum.elim Filler.line DumpInsn.line)

/-- Its instructions; a line with nothing after the address is none. -/
def insns : List Insn :=
  (f.body.filterMap fun l => l.getRight?.map DumpInsn.insn).filter fun x => !x.text.isEmpty

end DumpFn

/-- The output for a binary. -/
structure Dump where
  preamble : List Filler
  fns : List DumpFn

/-- What `objdump` printed. Where it ends in a line break, its last line is an empty one. -/
def Dump.text (d : Dump) : Text :=
  Text.join '\n' (d.preamble.map Filler.line ++ d.fns.flatMap DumpFn.lines)

/-- A disassembly printed in the same form. -/
def listing (funcs : Dict Text (List Insn)) : Text :=
  Text.join '\n' (funcs.flatMap fun f =>
    ('0' :: (" <".toList ++ (f.1 ++ ">:".toList))) ::
      f.2.map fun x => ' ' :: (Nat.toDigits 16 x.addr ++ (":\t".toList ++ x.text)))

end OMB
