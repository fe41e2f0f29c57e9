import Mathlib.Data.Prod.Lex
import Mathlib.Data.List.Lex
import Mathlib.Data.Char
import OpenMethodBench.Lib.Bisect
import OpenMethodBench.Spec.Asm

/-! The symbol table `asmtab.py` reads from `objdump -tC`, and the lookup of an address
in it. -/

namespace OMB

/-- `(addr, size, name)`. -/
structure Symbol where
  addr : ℕ
  size : ℕ
  name : Text
  deriving DecidableEq, Repr

/-- The order Python compares the tuples by. -/
def Symbol.key (s : Symbol) : ℕ ×ₗ ℕ ×ₗ List Char := toLex (s.addr, toLex (s.size, s.name))

/-- `\S+\s+` at the head of a text: the field, and what follows it. -/
def fieldAt (t : Text) : Option (Text × Text) :=
  let field := t.takeWhile fun c => !Text.isSpace c
  let rest := t.dropWhile fun c => !Text.isSpace c
  if field.isEmpty || (rest.takeWhile Text.isSpace).isEmpty then none
  else some (field, rest.dropWhile Text.isSpace)

/-- `[0-9a-f]+\s+`, as a number. -/
def hexFieldAt (t : Text) : Option (ℕ × Text) :=
  (fieldAt t).bind fun f => if f.1.all isHex then some (hexVal f.1, f.2) else none

/-- One line of the table:
`^([0-9a-f]+)\s+\S+\s+\S+\s+\S+\s+([0-9a-f]+)\s+(.*)$`. -/
def symbolLine (line : Text) : Option Symbol := do
  let (addr, r) ← hexFieldAt line
  let (_, r) ← fieldAt r
  let (_, r) ← fieldAt r
  let (_, r) ← fieldAt r
  let (size, name) ← hexFieldAt r
  some ⟨addr, size, Text.strip name⟩

/-- Sorted [(addr, size, name)] of the symbols in what `objdump` printed. -/
def symbols (out : Text) : List Symbol :=
  ((out.splitOn '\n').filterMap symbolLine).mergeSort fun a b => decide (a.key ≤ b.key)

/-- `addr < base + size or size == 0`, the test for a candidate at `base <= addr`. -/
def Symbol.covers (s : Symbol) (addr : ℕ) : Bool := decide (addr < s.addr + s.size) || s.size == 0

def Symbol.contains (s : Symbol) (addr : ℕ) : Bool := decide (s.addr ≤ addr) && s.covers addr

/-- What `resolve` returns for the symbol it settles on. -/
def Symbol.hit (addr : ℕ) (s : Symbol) : Text × ℕ := (s.name, addr - s.addr)

/-- The first position whose symbol lies above `addr`. -/
def searchAbove (syms : List Symbol) (addr : ℕ) : ℕ :=
  Bisect.search (fun i => (syms[i]?).any fun s => decide (s.addr ≤ addr)) 0 syms.length

/-- The symbol containing addr, as (name, offset), or none. -/
def resolve (syms : List Symbol) (addr : ℕ) : Option (Text × ℕ) :=
  let lo := searchAbove syms addr
  (((syms.take lo).drop (lo - 8)).reverse.find? fun s => s.contains addr).map (Symbol.hit addr)

/-- The scan without a limit: every symbol at `base <= addr`, from the highest position
downwards. -/
def resolveAll (syms : List Symbol) (addr : ℕ) : Option (Text × ℕ) :=
  ((syms.filter fun s => decide (s.addr ≤ addr)).reverse.find? fun s => s.covers addr).map
    (Symbol.hit addr)

/-- The order of the table. -/
def Ascending (syms : List Symbol) : Prop := syms.Pairwise fun a b => a.key ≤ b.key

theorem symbols_ascending (out : Text) : Ascending (symbols out) := by
  have htrans : ∀ a b c : Symbol, decide (a.key ≤ b.key) = true → decide (b.key ≤ c.key) = true →
      decide (a.key ≤ c.key) = true := by
    intro a b c hab hbc
    simp only [decide_eq_true_eq] at hab hbc ⊢
    exact hab.trans hbc
  have htotal : ∀ a b : Symbol, (decide (a.key ≤ b.key) || decide (b.key ≤ a.key)) = true := by
    intro a b
    simpa using le_total a.key b.key
  exact (List.pairwise_mergeSort htrans htotal _).imp of_decide_eq_true

/-- No symbol above `addr` stands before one that is not. -/
theorem Ascending.turns {syms : List Symbol} (h : Ascending syms) (addr : ℕ) :
    syms.Pairwise fun a b => decide (b.addr ≤ addr) = true → decide (a.addr ≤ addr) = true := by
  refine h.imp fun {a b} hab => ?_
  have hle : a.addr ≤ b.addr := by
    rcases Prod.Lex.le_iff.mp hab with hlt | ⟨heq, -⟩
    · exact hlt.le
    · exact heq.le
  simp only [decide_eq_true_eq]
  exact fun hb => hle.trans hb

end OMB
