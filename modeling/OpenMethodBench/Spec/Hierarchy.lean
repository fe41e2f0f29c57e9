import Mathlib.Data.Fin.Basic
import Mathlib.Data.Int.Notation
import Mathlib.Tactic.Common

/-! The hierarchies every measurement dispatches on (`hierarchy.hpp`) and the
overriders registered on them (`registries.hpp`, `use_methods.hpp`). A body stamps
and returns an id; only the id is modelled here. Ids are `int`s built from template
indices, far from overflow, so they are integers. -/

namespace OMB

/-- An object of either hierarchy: the index `N` of its leaf class `Derived<N>` (or
`IDerived<R, N>`) and its `tag`, which the leaf's constructor sets to that index. -/
structure Obj where
  leaf : ℕ
  tag : ℤ
  tag_eq : tag = leaf

/-- `Derived<N>()`. -/
def derived (N : ℕ) : Obj := ⟨N, N, rfl⟩

namespace Obj

def touch (self : Obj) : ℤ := self.tag

def vf (self : Obj) : ℤ := self.leaf

def vfu (self : Obj) : ℤ := self.tag

def ddWith (self _other : Obj) : ℤ := self.leaf

def dd (self other : Obj) : ℤ := other.ddWith self

def ddWithu (self other : Obj) : ℤ := self.tag + other.tag

def ddu (self other : Obj) : ℤ := other.ddWithu self

end Obj

inductive Registry | vector | map | flat | indirect
  deriving DecidableEq, Repr

inductive InplaceRegistry | inplace | inplaceIndirect
  deriving DecidableEq, Repr

/-- How the receivers are passed: `virtual_<const Base&>` or `virtual_ptr`. -/
inductive Form | ref | vp
  deriving DecidableEq, Repr

/-- Const bodies ignore the receivers, use bodies read `tag` from each of them. -/
inductive World | const | use
  deriving DecidableEq, Repr

/-- Where a method family is instantiated: on the main hierarchy in one of the two
call forms, or on an inplace hierarchy, in reference form only. -/
inductive Site
  | main (r : Registry) (f : Form)
  | inplace (r : InplaceRegistry)
  deriving DecidableEq, Repr

/-! ## Overriders -/

def constBody1 (id : ℤ) (_self : Obj) : ℤ := id

def constBody2 (id : ℤ) (_a _b : Obj) : ℤ := id

def useBody1 (self : Obj) : ℤ := self.tag

def useBase2 (a b : Obj) : ℤ := -a.tag - b.tag - 1

def useBody2 (a b : Obj) : ℤ := a.tag + b.tag

def pokeRefImpl (I : ℕ) : Obj → ℤ := constBody1 I

def pokeVpImpl (I : ℕ) : Obj → ℤ := constBody1 I

def ipokeRefImpl (I : ℕ) : Obj → ℤ := constBody1 I

def collideRefBase : Obj → Obj → ℤ := constBody2 (-1)

def collideRefImpl (I : ℕ) : Obj → Obj → ℤ := constBody2 I

def collideVpBase : Obj → Obj → ℤ := constBody2 (-1)

def collideVpImpl (I : ℕ) : Obj → Obj → ℤ := constBody2 I

def icollideRefBase : Obj → Obj → ℤ := constBody2 (-1)

def icollideRefImpl (I : ℕ) : Obj → Obj → ℤ := constBody2 I

def pokeuRefImpl (_I : ℕ) : Obj → ℤ := useBody1

def pokeuVpImpl (_I : ℕ) : Obj → ℤ := useBody1

def ipokeuRefImpl (_I : ℕ) : Obj → ℤ := useBody1

def collideuRefBase : Obj → Obj → ℤ := useBase2

def collideuRefImpl (_I : ℕ) : Obj → Obj → ℤ := useBody2

def collideuVpBase : Obj → Obj → ℤ := useBase2

def collideuVpImpl (_I : ℕ) : Obj → Obj → ℤ := useBody2

def icollideuRefBase : Obj → Obj → ℤ := useBase2

def icollideuRefImpl (_I : ℕ) : Obj → Obj → ℤ := useBody2

/-- The overrider pack of an arity-1 method: one body per leaf. -/
def pokeImpl : World → Site → ℕ → Obj → ℤ
  | .const, .main _ .ref => pokeRefImpl
  | .const, .main _ .vp => pokeVpImpl
  | .const, .inplace _ => ipokeRefImpl
  | .use, .main _ .ref => pokeuRefImpl
  | .use, .main _ .vp => pokeuVpImpl
  | .use, .inplace _ => ipokeuRefImpl

/-- The overrider pack of an arity-2 method: the `(Base, Base)` catch-all is `none`,
the diagonal body of leaf `I` is `some I`. -/
def collideImpl : World → Site → Option ℕ → Obj → Obj → ℤ
  | .const, .main _ .ref, none => collideRefBase
  | .const, .main _ .ref, some I => collideRefImpl I
  | .const, .main _ .vp, none => collideVpBase
  | .const, .main _ .vp, some I => collideVpImpl I
  | .const, .inplace _, none => icollideRefBase
  | .const, .inplace _, some I => icollideRefImpl I
  | .use, .main _ .ref, none => collideuRefBase
  | .use, .main _ .ref, some I => collideuRefImpl I
  | .use, .main _ .vp, none => collideuVpBase
  | .use, .main _ .vp, some I => collideuVpImpl I
  | .use, .inplace _, none => icollideuRefBase
  | .use, .inplace _, some I => icollideuRefImpl I

/-! ## Contracts -/

/-- What every arity-1 path owes, in both worlds. -/
def want1 (a : Obj) : ℤ := a.tag

def want2 (a b : Obj) : ℤ := if a.tag = b.tag then a.tag else -1

def wantu2 (a b : Obj) : ℤ :=
  if a.tag = b.tag then a.tag + b.tag else -a.tag - b.tag - 1

/-- What an arity-2 path owes in each world. -/
def want : World → Obj → Obj → ℤ
  | .const => want2
  | .use => wantu2

@[simp] theorem vf_eq (a : Obj) : a.vf = a.tag := a.tag_eq.symm

@[simp] theorem dd_eq (a b : Obj) : a.dd b = b.tag := b.tag_eq.symm

@[simp] theorem ddu_eq (a b : Obj) : a.ddu b = a.tag + b.tag := Int.add_comm _ _

theorem tag_eq_iff (a b : Obj) : a.tag = b.tag ↔ a.leaf = b.leaf := by
  rw [a.tag_eq, b.tag_eq, Int.ofNat_inj]

theorem pokeImpl_const (s : Site) (I : ℕ) (a : Obj) : pokeImpl .const s I a = I := by
  rcases s with ⟨r, f⟩ | r
  · cases f <;> rfl
  · rfl

theorem pokeImpl_use (s : Site) (I : ℕ) (a : Obj) : pokeImpl .use s I a = a.tag := by
  rcases s with ⟨r, f⟩ | r
  · cases f <;> rfl
  · rfl

theorem collideImpl_const (s : Site) (w : Option ℕ) (a b : Obj) :
    collideImpl .const s w a b = w.elim (-1) (fun I => (I : ℤ)) := by
  rcases s with ⟨r, f⟩ | r
  · cases f <;> cases w <;> rfl
  · cases w <;> rfl

theorem collideImpl_use (s : Site) (w : Option ℕ) (a b : Obj) :
    collideImpl .use s w a b =
      w.elim (-a.tag - b.tag - 1) (fun _ => a.tag + b.tag) := by
  rcases s with ⟨r, f⟩ | r
  · cases f <;> cases w <;> rfl
  · cases w <;> rfl

end OMB
