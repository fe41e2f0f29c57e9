import Mathlib
import OpenMethodBench.Lib.Dict
import OpenMethodBench.Spec.Machine
import OpenMethodBench.Spec.Roles

/-! One name for one field: the reads of a build that `roles` could not name take their
names from the same field elsewhere. -/

namespace OMB

/-- The symbol a global read falls in, and the offset into it. -/
abbrev GlobalRef := Text × ℕ

/-- A window with its global reads, and the names some of them have. -/
structure NamedWindow where
  win : List Insn
  reads : Dict ℕ GlobalRef
  named : Dict ℕ Text
  nodup : (reads.map Prod.fst).Nodup

/-- `t.split("::")`. -/
def scopes : Text → List Text
  | [] => [[]]
  | ':' :: ':' :: t => [] :: scopes t
  | c :: t =>
    match scopes t with
    | [] => [[c]]
    | part :: parts => (c :: part) :: parts

/-- `sym.split("::")[-1]`. -/
def lastScope (sym : Text) : Text := (scopes sym).getLastD []

/-- `[A-Za-z_]`. -/
def isNameChar (c : Char) : Bool := c.isAlpha || c == '_'

/-- `re.sub(r"[^A-Za-z_]", "", sym.split("::")[-1])[:12] or "global"`. -/
def globalName (sym : Text) : Text :=
  let name := ((lastScope sym).filter isNameChar).take 12
  if name.isEmpty then "global".toList else name

/-- A read in the warning. -/
def GlobalRef.label (f : GlobalRef) : Text := lastScope f.1 ++ '+' :: hexText f.2

/-- The names of a window's reads, in the order of its reads. -/
def NamedWindow.given (c : NamedWindow) : Dict GlobalRef Text :=
  c.reads.filterMap fun r => (c.named.get? r.1).map fun name => (r.2, name)

variable {κ : Type*}

/-- `known`: the first name given to a field. -/
def knownNames (cells : Dict κ NamedWindow) : Dict GlobalRef Text :=
  (cells.flatMap fun e => e.2.given).foldl (fun known e => known.setDefault e.1 e.2) []

/-- One read of the second pass; the texts are those of the set `unnamed`. -/
def nameRead (known : Dict GlobalRef Text) (s : Dict ℕ Text × List Text) (r : ℕ × GlobalRef) :
    Dict ℕ Text × List Text :=
  if (s.1.get? r.1).isSome then s
  else match known.get? r.2 with
    | some name => (s.1.set r.1 name, s.2)
    | none =>
      if family r.2.1 = .staticVptr then (s.1.set r.1 "static_vptr".toList, s.2)
      else (s.1.set r.1 (globalName r.2.1), s.2.insert r.2.label)

/-- The second pass. -/
def nameCells (known : Dict GlobalRef Text) :
    Dict κ NamedWindow → List Text → Dict κ NamedWindow × List Text
  | [], unnamed => ([], unnamed)
  | (k, c) :: cells, unnamed =>
    let s := c.reads.foldl (nameRead known) (c.named, unnamed)
    let rest := nameCells known cells s.2
    ((k, { c with named := s.1 }) :: rest.1, rest.2)

/-- The line on `stderr`. -/
def namingWarning (build : Text) (unnamed : List Text) : Option Text :=
  if unnamed.isEmpty then none
  else some ("warning: ".toList ++ build ++ ": unclassified global reads: ".toList ++
    ", ".toList.intercalate (unnamed.mergeSort fun a b => decide (a ≤ b)))

/-- `consistent`: the cells as it leaves them, and its warning. -/
def consistent (cells : Dict κ NamedWindow) (build : Text) : Dict κ NamedWindow × Option Text :=
  let r := nameCells (knownNames cells) cells []
  (r.1, namingWarning build r.2)

end OMB
