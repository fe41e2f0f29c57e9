import Mathlib.Logic.Equiv.Basic
import OpenMethodBench.Spec.Listing
import OpenMethodBench.Spec.Machine

/-! Two listings of one dispatch that differ as register allocation makes them differ. -/

namespace OMB

/-- A permutation of the 64-bit names and one of the 32-bit names; the stack pointer keeps
its own. -/
structure Allocation where
  wide : Equiv.Perm Gpr
  half : Equiv.Perm Gpr
  wide_sp : wide (.pointer .sp) = .pointer .sp
  half_sp : half (.pointer .sp) = .pointer .sp

namespace Allocation

variable (σ : Allocation)

def reg (isWide : Bool) : Equiv.Perm Gpr := if isWide then σ.wide else σ.half

def dst (d : Dst) : Dst := ⟨σ.reg d.wide d.reg, d.wide⟩

end Allocation

/-- A displacement of zero, or none: `[rbp]` and `[r13]` cannot be encoded without one. -/
def zeroDisp (shown : Bool) : Option ℤ := if shown then some 0 else none

/-- A run of `[a-z0-9]` under an allocation: a name of its own width, or the run itself
where it is no 64- or 32-bit name. -/
inductive Allocation.Run (σ : Allocation) : Text → Text → Prop
  | name (d : Dst) : Run σ d.name.text (σ.dst d).name.text
  | word (w : Text) : w ≠ [] → (∀ c ∈ w, isLow c = true) → (∀ d : Dst, d.name.text ≠ w) →
      Run σ w w

/-- Operands under an allocation, where the address of a base register may gain or lose a
displacement of zero. -/
inductive Realloc (σ : Allocation) : Text → Text → Prop
  | nil : Realloc σ [] []
  | mark {c : Char} {t t' : Text} : isLow c = false → Realloc σ t t' →
      Realloc σ (c :: t) (c :: t')
  | run {w w' t t' : Text} : σ.Run w w' → (∀ c ∈ t.head?, isLow c = false) →
      Realloc σ t t' → Realloc σ (w ++ t) (w' ++ t')
  | base {t t' : Text} (wide : Bool) (b : Gpr) (i : Option (Gpr × Size)) (z z' : Bool) :
      Realloc σ t t' →
      Realloc σ ('[' :: ((Addr.based wide b i (zeroDisp z)).text ++ ']' :: t))
        ('[' :: ((Addr.based wide (σ.reg wide b) (i.map fun (g, s) => (σ.reg wide g, s))
          (zeroDisp z')).text ++ ']' :: t'))

namespace Rendered

variable (x : Rendered)

def mnem : Text := Text.firstWord x.text

def ops : Text := Text.strip (x.text.drop x.mnem.length)

end Rendered

/-- An instruction under an allocation; a tail jump and a call are the same dispatch. -/
structure Reallocated (σ : Allocation) (x y : Rendered) : Prop where
  mnem : y.mnem = x.mnem ∨
    (x.mnem ∈ ["jmp".toList, "call".toList] ∧ y.mnem ∈ ["jmp".toList, "call".toList])
  ops : Realloc σ x.ops y.ops

end OMB
