import OpenMethodBench.Spec.Env

/-! `verify`, the correctness gate of `main.cpp`, over arbitrary dispatch paths. -/

namespace OMB

/-- The open-method paths under test: each is any function from the leaf classes of
its receivers to an id. -/
structure Paths where
  /-- `poke` and `pokeu`. -/
  arity1 : World → Site → ℕ → ℤ
  /-- `collide` and `collideu`. -/
  arity2 : World → Site → ℕ → ℕ → ℤ

namespace Paths

def fn1 (p : Paths) (w : World) (s : Site) (a : Obj) : ℤ := p.arity1 w s a.leaf

def fn2 (p : Paths) (w : World) (s : Site) (a b : Obj) : ℤ := p.arity2 w s a.leaf b.leaf

end Paths

structure Check where
  what : String
  got : ℤ
  want : ℤ
  deriving DecidableEq

/-- One `MISMATCH` line. -/
structure Mismatch where
  what : String
  i : ℕ
  j : ℕ
  got : ℤ
  want : ℤ
  deriving DecidableEq

/-- The positions a loop `for (i = 0; i < n; i += step)` visits, in order. -/
def strided (step n : ℕ) : List (Fin n) := (List.finRange n).filter fun i => i.val % step = 0

/-- The index pairs both loops of `verify` visit. -/
def visits (n : ℕ) : List (Fin n × Fin n) :=
  (strided 97 n).flatMap fun i => (strided 89 n).map fun j => (i, j)

def registries : List Registry := [.vector, .map, .flat, .indirect]

def Registry.label : Registry → String
  | .vector => "vec"
  | .map => "map"
  | .flat => "flat"
  | .indirect => "ind"

def Form.label : Form → String
  | .ref => "ref"
  | .vp => "vp"

def World.label : World → String
  | .const => ""
  | .use => "u"

section Checks

variable {S : Type} {n : ℕ} (p : Paths) (e : Env S n)

/-- The four arity-1 checks of one call form in one world, one per registry. -/
def pokeChecks (w : World) (f : Form) (i : Fin n) : List Check :=
  registries.map fun r =>
    { what := r.label ++ " " ++ f.label ++ w.label ++ "1"
      got := p.fn1 w (.main r f) (e.receivers (.main r f) i)
      want := want1 (e.ptrs i) }

/-- The four arity-2 checks of one call form in one world, one per registry. -/
def collideChecks (w : World) (f : Form) (i j : Fin n) : List Check :=
  registries.map fun r =>
    { what := r.label ++ " " ++ f.label ++ w.label ++ "2"
      got := p.fn2 w (.main r f) (e.receivers (.main r f) i) (e.receivers (.main r f) j)
      want := want w (e.ptrs i) (e.ptrs j) }

/-- `checks[]` of the main hierarchy at one index pair. -/
def checks (i j : Fin n) : List Check :=
  let a := e.ptrs i
  let b := e.ptrs j
  [⟨"vf yardstick", a.vf, want1 a⟩,
   ⟨"vfu yardstick", a.vfu, want1 a⟩,
   ⟨"dd yardstick", a.dd b, b.tag⟩,
   ⟨"ddu yardstick", a.ddu b, a.tag + b.tag⟩,
   ⟨"touch baseline", a.touch, want1 a⟩] ++
  pokeChecks p e .const .ref i ++ pokeChecks p e .const .vp i ++
  collideChecks p e .const .ref i j ++ collideChecks p e .const .vp i j ++
  pokeChecks p e .use .ref i ++ pokeChecks p e .use .vp i ++
  collideChecks p e .use .ref i j ++ collideChecks p e .use .vp i j

/-- `checks[]` of `check_ip` at one index pair. -/
def ipChecks (r : InplaceRegistry) (i j : Fin n) : List Check :=
  let a := e.ip r i
  let b := e.ip r j
  [⟨"vf", a.vf, a.tag⟩,
   ⟨"vfu", a.vfu, a.tag⟩,
   ⟨"dd", a.dd b, b.tag⟩,
   ⟨"ddu", a.ddu b, a.tag + b.tag⟩,
   ⟨"touch", a.touch, a.tag⟩,
   ⟨"ref1", p.fn1 .const (.inplace r) a, a.tag⟩,
   ⟨"ref2", p.fn2 .const (.inplace r) a b, want .const a b⟩,
   ⟨"refu1", p.fn1 .use (.inplace r) a, a.tag⟩,
   ⟨"refu2", p.fn2 .use (.inplace r) a b, want .use a b⟩]

/-- The lines printed for the checks of one index pair; `pre` is `what` of `check_ip`. -/
def report1 (pre : String) (i j : Fin n) (cs : List Check) : List Mismatch :=
  cs.filterMap fun c =>
    if c.got ≠ c.want then some ⟨pre ++ c.what, i, j, c.got, c.want⟩ else none

/-- `check_ip(pop, ..., what)`. -/
def checkIp (r : InplaceRegistry) (what : String) : List Mismatch :=
  (visits n).flatMap fun ij => report1 (what ++ " ") ij.1 ij.2 (ipChecks p e r ij.1 ij.2)

/-- Every line `verify` prints. -/
def mismatches : List Mismatch :=
  ((visits n).flatMap fun ij => report1 "" ij.1 ij.2 (checks p e ij.1 ij.2)) ++
  checkIp p e .inplace "inplace" ++
  checkIp p e .inplaceIndirect "inplace_ind"

/-- `ok` starts true and turns false with each printed mismatch. -/
def verify : Bool := (mismatches p e).isEmpty

end Checks

end OMB
