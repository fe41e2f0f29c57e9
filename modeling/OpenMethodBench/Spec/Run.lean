import OpenMethodBench.Spec.Env
import OpenMethodBench.Spec.Report

/-! `run<V>` of `main.cpp`: the variants, the receivers each repetition draws, and runs
one after another on one environment. Receivers are told apart by where they were
allocated: position `k` stands for the object `objects[k]` of its population. -/

namespace OMB

/-- The library's `virtual_ptr` over the objects of type `P`, one type per registry. Of
its construction nothing is known but that what is built from `*p` points to `p`. -/
structure VirtualPtr (P : Type) where
  Ptr : Registry → Type
  ofRef : ∀ r, P → Ptr r
  get : ∀ r, Ptr r → P
  get_ofRef : ∀ r p, get r (ofRef r p) = p

/-- What `env` holds, by address. -/
structure Stand (S : Type) (n : ℕ) (Φ : VirtualPtr (Fin n)) where
  ptrs : Fin n → Fin n
  vpVec : Fin n → Φ.Ptr .vector
  vpMap : Fin n → Φ.Ptr .map
  vpFlat : Fin n → Φ.Ptr .flat
  vpInd : Fin n → Φ.Ptr .indirect
  ipDirect : Fin n → Fin n
  ipIndirect : Fin n → Fin n
  rng : S

/-- `env(cfg)`: three shuffles from the configured seed, and the loop that builds the
four `virtual_ptr` arrays from the shuffled pointers. -/
def Stand.build {S : Type} (g : Rng S) (cfg : Config) (Φ : VirtualPtr (Fin cfg.objects)) :
    Stand S cfg.objects Φ :=
  let (ptrs, s₁) := g.shuffle cfg.objects (g.seed cfg.seed)
  let (ipDirect, s₂) := g.shuffle cfg.objects s₁
  let (ipIndirect, s₃) := g.shuffle cfg.objects s₂
  { ptrs := ptrs
    vpVec := fun i => Φ.ofRef .vector (ptrs i)
    vpMap := fun i => Φ.ofRef .map (ptrs i)
    vpFlat := fun i => Φ.ofRef .flat (ptrs i)
    vpInd := fun i => Φ.ofRef .indirect (ptrs i)
    ipDirect := ipDirect
    ipIndirect := ipIndirect
    rng := s₃ }

/-! ## Variants -/

/-- The types `run` is instantiated with; a registry stands for the template arguments. -/
inductive Variant
  | probe | direct | touch1 | vf1 | touch2 | vf2
  | omRef1 (r : Registry) | omVp1 (r : Registry) | omRef2 (r : Registry) | omVp2 (r : Registry)
  | ipTouch1 (r : InplaceRegistry) | ipTouch2 (r : InplaceRegistry)
  | ipVf1 (r : InplaceRegistry) | ipVf2 (r : InplaceRegistry)
  | ipRef1 (r : InplaceRegistry) | ipRef2 (r : InplaceRegistry)
  | vfu1 | vfu2
  | omRefu1 (r : Registry) | omVpu1 (r : Registry) | omRefu2 (r : Registry) | omVpu2 (r : Registry)
  | ipVfu1 (r : InplaceRegistry) | ipVfu2 (r : InplaceRegistry)
  | ipRefu1 (r : InplaceRegistry) | ipRefu2 (r : InplaceRegistry)
  deriving DecidableEq, Repr

/-- `V::hier`: the main hierarchy, or that of an inplace registry. -/
inductive Hier
  | main
  | inplace (r : InplaceRegistry)
  deriving DecidableEq, Repr

namespace Variant

def hier : Variant → Hier
  | ipTouch1 r | ipTouch2 r | ipVf1 r | ipVf2 r | ipRef1 r | ipRef2 r
  | ipVfu1 r | ipVfu2 r | ipRefu1 r | ipRefu2 r => .inplace r
  | _ => .main

def arity : Variant → ℕ
  | probe | direct => 0
  | touch2 | vf2 | omRef2 _ | omVp2 _ | ipTouch2 _ | ipVf2 _ | ipRef2 _
  | vfu2 | omRefu2 _ | omVpu2 _ | ipVfu2 _ | ipRefu2 _ => 2
  | _ => 1

end Variant

/-- `V::args`: pointers into a population, or `virtual_ptr`s. -/
inductive Args {P : Type} (Φ : VirtualPtr P)
  | base (a : P)
  | pair (a b : P)
  | vp (r : Registry) (a : Φ.Ptr r)
  | vpPair (r : Registry) (a b : Φ.Ptr r)
  | ibase (r : InplaceRegistry) (a : P)
  | ipair (r : InplaceRegistry) (a b : P)

/-- The objects a call is given, as its first and second argument. -/
def Args.receivers {P : Type} {Φ : VirtualPtr P} : Args Φ → List (Hier × P)
  | base a => [(.main, a)]
  | pair a b => [(.main, a), (.main, b)]
  | vp r a => [(.main, Φ.get r a)]
  | vpPair r a b => [(.main, Φ.get r a), (.main, Φ.get r b)]
  | ibase r a => [(.inplace r, a)]
  | ipair r a b => [(.inplace r, a), (.inplace r, b)]

section Prepare

variable {S : Type} {n : ℕ} {Φ : VirtualPtr (Fin n)} (e : Stand S n Φ)

/-- `vp_traits<R>::array(e)[i]`. -/
def Stand.vp (i : Fin n) : ∀ r, Φ.Ptr r
  | .vector => e.vpVec i
  | .map => e.vpMap i
  | .flat => e.vpFlat i
  | .indirect => e.vpInd i

/-- `ip_traits<R>::pop(e).ptrs`. -/
def Stand.ip : InplaceRegistry → Fin n → Fin n
  | .inplace => e.ipDirect
  | .inplaceIndirect => e.ipIndirect

/-- `V::prepare(e, i, j)`. -/
def Stand.prepare (i j : Fin n) : Variant → Args Φ
  | .probe | .direct | .touch1 | .vf1 | .vfu1 | .omRef1 _ | .omRefu1 _ => .base (e.ptrs i)
  | .touch2 | .vf2 | .vfu2 | .omRef2 _ | .omRefu2 _ => .pair (e.ptrs i) (e.ptrs j)
  | .omVp1 r | .omVpu1 r => .vp r (e.vp i r)
  | .omVp2 r | .omVpu2 r => .vpPair r (e.vp i r) (e.vp j r)
  | .ipTouch1 r | .ipVf1 r | .ipVfu1 r | .ipRef1 r | .ipRefu1 r => .ibase r (e.ip r i)
  | .ipTouch2 r | .ipVf2 r | .ipVfu2 r | .ipRef2 r | .ipRefu2 r =>
    .ipair r (e.ip r i) (e.ip r j)

end Prepare

/-! ## Runs -/

/-- The machine the benchmark runs on, with caches, clock and scrub buffer for its state:
what a timed call and an eviction do to it. -/
structure Rig {P : Type} (Φ : VirtualPtr P) (H : Type) where
  /-- `timed_call<V>(a, cycles)`: the cycles, and the machine after it. -/
  timedCall : Variant → Args Φ → H → ℕ × H
  /-- `V::regions(a, regs)` and `e.scrub.apply(mode, regs)`. -/
  scrub : CacheMode → Variant → Args Φ → H → H

/-- What a repetition called its variant with, and what it measured. -/
structure Rep {P : Type} (Φ : VirtualPtr P) where
  args : Args Φ
  cycles : ℕ

section Run

variable {S H : Type} {n : ℕ} [NeZero n] {Φ : VirtualPtr (Fin n)} (g : Rng S) (rig : Rig Φ H)

/-- One repetition. -/
def repeatOnce (V : Variant) (mode : CacheMode) (e : Stand S n Φ) (h : H) :
    Rep Φ × Stand S n Φ × H :=
  let (i, s₁) := g.pick n e.rng
  let (j, s₂) := g.pick n s₁
  let a := e.prepare i j V
  let (_, h₁) := rig.timedCall V a h
  let (cycles, h₂) := rig.timedCall V a (rig.scrub mode V a h₁)
  (⟨a, cycles⟩, { e with rng := s₂ }, h₂)

/-- The loop over the repetitions. -/
def repetitions (V : Variant) (mode : CacheMode) :
    ℕ → Stand S n Φ → H → List (Rep Φ) × Stand S n Φ × H
  | 0, e, h => ([], e, h)
  | k + 1, e, h =>
    let (rep, e', h') := repeatOnce g rig V mode e h
    let (reps, e'', h'') := repetitions V mode k e' h'
    (rep :: reps, e'', h'')

/-- `run<V>(e, cfg, mode)`, of whose row only what it was measured on is modelled. -/
def runVariant (cfg : Config) (V : Variant) (mode : CacheMode) (e : Stand S n Φ) (h : H) :
    List (Rep Φ) × Stand S n Φ × H :=
  repetitions g rig V mode cfg.reps { e with rng := g.seed cfg.seed } h

/-- A run of a session: the variant, the mode and the repetitions. -/
structure RunRecord (Φ : VirtualPtr (Fin n)) where
  variant : Variant
  mode : CacheMode
  reps : List (Rep Φ)

/-- Runs one after another on one environment. -/
def session (cfg : Config) : List (Variant × CacheMode) → Stand S n Φ → H → List (RunRecord Φ)
  | [], _, _ => []
  | (V, mode) :: rest, e, h =>
    let (reps, e', h') := runVariant g rig cfg V mode e h
    ⟨V, mode, reps⟩ :: session cfg rest e' h'

end Run

end OMB
