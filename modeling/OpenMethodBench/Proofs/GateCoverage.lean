import OpenMethodBench.Lib.Sampling
import OpenMethodBench.Spec.Verify
import Mathlib.Algebra.Ring.Int.Defs

/-! What a passing `verify` says about the receivers `run` can draw: it settles the
leaf classes standing at the strides, and those only. -/

namespace OMB

open Sampling

theorem obj_eq_of_leaf {a b : Obj} (h : a.leaf = b.leaf) : a = b := by
  obtain ⟨l, t, ht⟩ := a
  obtain ⟨l', t', ht'⟩ := b
  simp only at h
  subst h ht ht'
  rfl

theorem derived_leaf (a : Obj) : derived a.leaf = a := obj_eq_of_leaf rfl

theorem mem_strided {step n : ℕ} {i : Fin n} : i ∈ strided step n ↔ step ∣ i.val := by
  simp [strided, Nat.dvd_iff_mod_eq_zero]

/-- The index pairs `verify` visits, as a set. -/
def Visited (n : ℕ) : Set (Fin n × Fin n) := {ij | 97 ∣ ij.1.val ∧ 89 ∣ ij.2.val}

theorem mem_visits {n : ℕ} {ij : Fin n × Fin n} : ij ∈ visits n ↔ ij ∈ Visited n := by
  simp only [visits, List.mem_flatMap, List.mem_map, mem_strided, Visited, Set.mem_ofPred_eq]
  constructor
  · rintro ⟨i, hi, j, hj, rfl⟩
    exact ⟨hi, hj⟩
  · rintro ⟨hi, hj⟩
    exact ⟨ij.1, hi, ij.2, hj, rfl⟩

/-- Every path of a site returns what its contract prescribes for these receivers. -/
structure Honours (p : Paths) (s : Site) (a b : Obj) : Prop where
  arity1 : ∀ w, p.fn1 w s a = want1 a
  arity2 : ∀ w, p.fn2 w s a b = want w a b

section Gate

variable {S : Type} {n : ℕ} (p : Paths) (e : Env S n)

theorem report1_nil_iff (pre : String) (i j : Fin n) (cs : List Check) :
    report1 pre i j cs = [] ↔ ∀ c ∈ cs, c.got = c.want := by
  simp [report1, List.filterMap_eq_nil_iff]

theorem pokeChecks_pass_iff (w : World) (f : Form) (i : Fin n) :
    (∀ c ∈ pokeChecks p e w f i, c.got = c.want) ↔
      ∀ r, p.fn1 w (.main r f) (e.receivers (.main r f) i) = want1 (e.ptrs i) := by
  simp only [pokeChecks, List.forall_mem_map]
  exact ⟨fun h r => h r (by cases r <;> decide), fun h r _ => h r⟩

theorem collideChecks_pass_iff (w : World) (f : Form) (i j : Fin n) :
    (∀ c ∈ collideChecks p e w f i j, c.got = c.want) ↔
      ∀ r, p.fn2 w (.main r f) (e.receivers (.main r f) i) (e.receivers (.main r f) j) =
        want w (e.ptrs i) (e.ptrs j) := by
  simp only [collideChecks, List.forall_mem_map]
  exact ⟨fun h r => h r (by cases r <;> decide), fun h r _ => h r⟩

/-- The yardsticks never mismatch, so the inplace checks pass on the four paths alone. -/
theorem ipChecks_pass_iff (r : InplaceRegistry) (i j : Fin n) :
    (∀ c ∈ ipChecks p e r i j, c.got = c.want) ↔
      Honours p (.inplace r) (e.ip r i) (e.ip r j) := by
  simp only [ipChecks, List.forall_mem_cons, vf_eq, dd_eq, ddu_eq, Obj.vfu, Obj.touch,
    List.not_mem_nil, false_implies, implies_true, true_and, and_true]
  constructor
  · rintro ⟨h1, h2, hu1, hu2⟩
    refine ⟨fun w => ?_, fun w => ?_⟩
    · cases w
      · exact h1
      · exact hu1
    · cases w
      · exact h2
      · exact hu2
  · rintro ⟨h1, h2⟩
    exact ⟨h1 .const, h2 .const, h1 .use, h2 .use⟩

end Gate

section Built

variable {S : Type} (g : Rng S) (numClasses : ℕ) (cfg : Config) (p : Paths)

/-- All ten sites honour their contracts on the receivers at one index pair. -/
def HonoursAt (i j : Fin cfg.objects) : Prop :=
  ∀ s, Honours p s ((Env.build g numClasses cfg).receivers s i)
    ((Env.build g numClasses cfg).receivers s j)

theorem checks_pass_iff (i j : Fin cfg.objects) :
    (∀ c ∈ checks p (Env.build g numClasses cfg) i j, c.got = c.want) ↔
      ∀ r f, Honours p (.main r f) ((Env.build g numClasses cfg).ptrs i)
        ((Env.build g numClasses cfg).ptrs j) := by
  simp only [checks, List.forall_mem_append, pokeChecks_pass_iff, collideChecks_pass_iff,
    build_receivers_main, List.forall_mem_cons, vf_eq, dd_eq, ddu_eq, Obj.vfu, Obj.touch, want1,
    List.not_mem_nil, false_implies, implies_true, true_and, and_true]
  constructor
  · rintro ⟨⟨⟨⟨⟨⟨⟨h1r, h1v⟩, h2r⟩, h2v⟩, hu1r⟩, hu1v⟩, hu2r⟩, hu2v⟩ r f
    refine ⟨fun w => ?_, fun w => ?_⟩
    · cases w <;> cases f
      · exact h1r r
      · exact h1v r
      · exact hu1r r
      · exact hu1v r
    · cases w <;> cases f
      · exact h2r r
      · exact h2v r
      · exact hu2r r
      · exact hu2v r
  · intro h
    exact ⟨⟨⟨⟨⟨⟨⟨fun r => (h r .ref).arity1 _, fun r => (h r .vp).arity1 _⟩,
      fun r => (h r .ref).arity2 _⟩, fun r => (h r .vp).arity2 _⟩,
      fun r => (h r .ref).arity1 _⟩, fun r => (h r .vp).arity1 _⟩,
      fun r => (h r .ref).arity2 _⟩, fun r => (h r .vp).arity2 _⟩

/-- `verify` passes exactly when every site honours its contracts at every pair visited. -/
theorem verify_iff_honoursAt :
    verify p (Env.build g numClasses cfg) = true ↔
      ∀ ij ∈ Visited cfg.objects, HonoursAt g numClasses cfg p ij.1 ij.2 := by
  simp only [verify, mismatches, checkIp, List.isEmpty_iff, List.append_eq_nil_iff,
    List.flatMap_eq_nil_iff, report1_nil_iff, checks_pass_iff, ipChecks_pass_iff, mem_visits]
  constructor
  · rintro ⟨⟨hmain, hdir⟩, hind⟩ ij hij s
    rcases s with ⟨r, f⟩ | r
    · rw [build_receivers_main]
      exact hmain ij hij r f
    · cases r
      · exact hdir ij hij
      · exact hind ij hij
  · intro h
    refine ⟨⟨fun ij hij r f => ?_, fun ij hij => h ij hij (.inplace .inplace)⟩,
      fun ij hij => h ij hij (.inplace .inplaceIndirect)⟩
    have := h ij hij (.main r f)
    rwa [build_receivers_main] at this

/-- The leaf classes of the pair of receivers a site is given at an index pair. -/
def leafPair (s : Site) (ij : Fin cfg.objects × Fin cfg.objects) : ℕ × ℕ :=
  (((Env.build g numClasses cfg).receivers s ij.1).leaf,
   ((Env.build g numClasses cfg).receivers s ij.2).leaf)

/-- The visited pairs form a grid: a leaf pair is sampled when its first leaf stands at
some multiple of 97 and its second at some multiple of 89. -/
theorem leafPair_sampled_iff (s : Site) (i j : Fin cfg.objects) :
    leafPair g numClasses cfg s (i, j) ∈ leafPair g numClasses cfg s '' Visited cfg.objects ↔
      ∃ i' j' : Fin cfg.objects, 97 ∣ i'.val ∧ 89 ∣ j'.val ∧
        (Env.build g numClasses cfg).receivers s i' = (Env.build g numClasses cfg).receivers s i ∧
        (Env.build g numClasses cfg).receivers s j' = (Env.build g numClasses cfg).receivers s j := by
  constructor
  · rintro ⟨⟨i', j'⟩, ⟨hi, hj⟩, h⟩
    simp only [leafPair, Prod.mk.injEq] at h
    exact ⟨i', j', hi, hj, obj_eq_of_leaf h.1, obj_eq_of_leaf h.2⟩
  · rintro ⟨i', j', hi, hj, hri, hrj⟩
    exact ⟨(i', j'), ⟨hi, hj⟩, by simp only [leafPair, hri, hrj]⟩

/-- The paths every contract is read off from. -/
def honest : Paths where
  arity1 := fun _ _ a => want1 (derived a)
  arity2 := fun w _ a b => want w (derived a) (derived b)

/-- The honest paths but for one site, where the const arity-2 path answers `f`. -/
def deviant (s : Site) (f : ℕ × ℕ → ℤ) : Paths where
  arity1 := honest.arity1
  arity2 := fun w s' a b =>
    if w = .const ∧ s' = s then f (a, b) else honest.arity2 w s' a b

theorem verify_deviant (s : Site) (f : ℕ × ℕ → ℤ)
    (hf : Passes (leafPair g numClasses cfg s) (Visited cfg.objects) f
      fun ab => want2 (derived ab.1) (derived ab.2)) :
    verify (deviant s f) (Env.build g numClasses cfg) = true := by
  rw [verify_iff_honoursAt]
  intro ij hij s'
  refine ⟨fun w => by simp only [deviant, honest, Paths.fn1, derived_leaf], fun w => ?_⟩
  simp only [deviant, honest, Paths.fn2, derived_leaf]
  split_ifs with h
  · obtain ⟨rfl, rfl⟩ := h
    simpa only [leafPair, derived_leaf, want] using hf ij hij
  · rfl

/-- What the gate guarantees at an index pair `run` may draw: a pass settles the pair
exactly when, in each population, the leaf of the first receiver also stands at some
multiple of 97 and the leaf of the second at some multiple of 89. -/
theorem gate_guarantees_iff (i j : Fin cfg.objects) :
    (∀ p : Paths, verify p (Env.build g numClasses cfg) = true →
        HonoursAt g numClasses cfg p i j) ↔
      ∀ s, ∃ i' j' : Fin cfg.objects, 97 ∣ i'.val ∧ 89 ∣ j'.val ∧
        (Env.build g numClasses cfg).receivers s i' = (Env.build g numClasses cfg).receivers s i ∧
        (Env.build g numClasses cfg).receivers s j' = (Env.build g numClasses cfg).receivers s j := by
  simp only [← leafPair_sampled_iff]
  constructor
  · intro h s
    rw [← forced_iff (leafPair g numClasses cfg s) (Visited cfg.objects)
      (fun ab => want2 (derived ab.1) (derived ab.2))]
    intro f hf
    have := (h _ (verify_deviant g numClasses cfg s f hf) s).arity2 .const
    simpa only [deviant, Paths.fn2, and_self, ite_true, leafPair, derived_leaf, want] using this
  · intro h p hp s
    obtain ⟨⟨i', j'⟩, hvis, heq⟩ := h s
    have := (verify_iff_honoursAt g numClasses cfg p).mp hp (i', j') hvis s
    simp only [leafPair, Prod.mk.injEq] at heq
    rwa [obj_eq_of_leaf heq.1, obj_eq_of_leaf heq.2] at this

end Built

/-- A generator that leaves every array in order. -/
def idleRng : Rng Unit where
  seed := fun _ => ()
  shuffle := fun _ s => (Equiv.refl _, s)
  pick := fun _ _ s => (0, s)

/-- Two objects of two leaves: the gate looks at the first only, and passes a `poke`
that is wrong on every other leaf. -/
theorem gate_misses_unvisited_leaf :
    ∃ (cfg : Config) (p : Paths), cfg.inRange 64 = true ∧
      verify p (Env.build idleRng 2 cfg) = true ∧
      ∃ i j, ¬ HonoursAt idleRng 2 cfg p i j := by
  refine ⟨{ objects := 2 }, { honest with arity1 := fun _ _ _ => 0 }, by decide, by decide,
    ⟨1, by decide⟩, ⟨0, by decide⟩, fun h => ?_⟩
  have := (h (.main .vector .ref)).arity1 .const
  revert this
  decide

end OMB
