import Mathlib
import OpenMethodBench.Spec.Hierarchy

/-! The configuration and the object populations of `main.cpp`. -/

namespace OMB

structure Config where
  reps : ℕ := 1000
  objects : ℕ := 4096
  sweepMb : ℕ := 64
  cpu : ℤ := 2
  seed : ℕ := 12345
  csv : Bool := false
  verifyOnly : Bool := false
  warm : Bool := true
  clflush : Bool := true
  sweep : Bool := true

/-- The range checks `parse` ends with, for a `size_t` of `bits` bits. -/
def Config.inRange (bits : ℕ) (cfg : Config) : Bool :=
  !(cfg.objects == 0 || cfg.reps == 0) &&
  !(cfg.sweepMb == 0 || decide (cfg.sweepMb > (2 ^ bits - 1) / (1024 * 1024))) &&
  !decide (cfg.cpu < 0)

/-- The random generator, of which nothing is known but that it is a deterministic
state machine: `shuffle` yields some permutation of the `n` positions, `pick` some
index below `n`. -/
structure Rng (S : Type) where
  seed : ℕ → S
  shuffle : (n : ℕ) → S → Equiv.Perm (Fin n) × S
  pick : (n : ℕ) → [NeZero n] → S → Fin n × S

/-- A population of `n` receivers, by position. -/
abbrev Population (n : ℕ) := Fin n → Obj

/-- Round-robin over the leaf types. -/
def roundRobin (numClasses n : ℕ) : Population n := fun i => derived (i % numClasses)

/-- `std::shuffle(ptrs.begin(), ptrs.end(), rng)` over the round-robin population. -/
def shuffled {S : Type} (g : Rng S) (numClasses n : ℕ) (s : S) : Population n × S :=
  let (σ, s') := g.shuffle n s
  (fun i => roundRobin numClasses n (σ i), s')

structure Env (S : Type) (n : ℕ) where
  ptrs : Population n
  vpVec : Population n
  vpMap : Population n
  vpFlat : Population n
  vpInd : Population n
  ipDirect : Population n
  ipIndirect : Population n
  rng : S

/-- `env(cfg)`. A `virtual_ptr` built from `*p` designates the object `p` points to. -/
def Env.build {S : Type} (g : Rng S) (numClasses : ℕ) (cfg : Config) : Env S cfg.objects :=
  let (ptrs, s₁) := shuffled g numClasses cfg.objects (g.seed cfg.seed)
  let (ipDirect, s₂) := shuffled g numClasses cfg.objects s₁
  let (ipIndirect, s₃) := shuffled g numClasses cfg.objects s₂
  { ptrs := ptrs
    vpVec := fun i => ptrs i
    vpMap := fun i => ptrs i
    vpFlat := fun i => ptrs i
    vpInd := fun i => ptrs i
    ipDirect := ipDirect
    ipIndirect := ipIndirect
    rng := s₃ }

namespace Env

variable {S : Type} {n : ℕ}

/-- `vp_traits<R>::array(e)`. -/
def vp (e : Env S n) : Registry → Population n
  | .vector => e.vpVec
  | .map => e.vpMap
  | .flat => e.vpFlat
  | .indirect => e.vpInd

/-- `ip_traits<R>::pop(e).ptrs`. -/
def ip (e : Env S n) : InplaceRegistry → Population n
  | .inplace => e.ipDirect
  | .inplaceIndirect => e.ipIndirect

/-- The receivers a call at this site is given. -/
def receivers (e : Env S n) : Site → Population n
  | .main _ .ref => e.ptrs
  | .main r .vp => e.vp r
  | .inplace r => e.ip r

end Env

section Build

variable {S : Type} (g : Rng S) (numClasses : ℕ) (cfg : Config)

/-- The `virtual_ptr` arrays are index-parallel to the shuffled pointers. -/
@[simp] theorem build_vp (r : Registry) :
    (Env.build g numClasses cfg).vp r = (Env.build g numClasses cfg).ptrs := by
  cases r <;> rfl

@[simp] theorem build_receivers_main (r : Registry) (f : Form) :
    (Env.build g numClasses cfg).receivers (.main r f) =
      (Env.build g numClasses cfg).ptrs := by
  cases f with
  | ref => rfl
  | vp => exact build_vp g numClasses cfg r

end Build

end OMB
