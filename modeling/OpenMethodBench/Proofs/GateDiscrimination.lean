import OpenMethodBench.Proofs.GateCoverage

/-! Which wrong overriders the gate can tell from the right one. The const bodies
return a constant of the overrider; the use bodies compute their id from the
receivers, so two of them can answer alike. -/

namespace OMB

/-- The registered body each path runs, by the leaf classes of its receivers: the
body of some leaf at arity 1, at arity 2 also the `(Base, Base)` catch-all, `none`. -/
structure Dispatch (numClasses : ℕ) where
  poke : World → Site → ℕ → Fin numClasses
  collide : World → Site → ℕ → ℕ → Option (Fin numClasses)

/-- The body registered for a pair of leaves. -/
def diagonal (a b : ℕ) : Option ℕ := if a = b then some a else none

/-- One call `verify` makes: a method family at a site. -/
inductive Call
  | poke (w : World) (s : Site)
  | collide (w : World) (s : Site)

namespace Call

def site : Call → Site
  | .poke _ s => s
  | .collide _ s => s

def got (p : Paths) : Call → Obj → Obj → ℤ
  | .poke w s, a, _ => p.fn1 w s a
  | .collide w s, a, b => p.fn2 w s a b

/-- The oracle the call is compared with. -/
def oracle : Call → Obj → Obj → ℤ
  | .poke _ _, a, _ => want1 a
  | .collide w _, a, b => want w a b

end Call

namespace Dispatch

variable {numClasses : ℕ} (d : Dispatch numClasses)

def paths : Paths where
  arity1 := fun w s a => pokeImpl w s (d.poke w s a) (derived a)
  arity2 := fun w s a b =>
    collideImpl w s ((d.collide w s a b).map Fin.val) (derived a) (derived b)

/-- The body run is not the one registered for the receivers' own leaves. -/
def Wrong : Call → Obj → Obj → Prop
  | .poke w s, a, _ => (d.poke w s a.leaf : ℕ) ≠ a.leaf
  | .collide w s, a, b =>
      (d.collide w s a.leaf b.leaf).map Fin.val ≠ diagonal a.leaf b.leaf

instance (c : Call) (a b : Obj) : Decidable (d.Wrong c a b) :=
  match c with
  | .poke _ _ => inferInstanceAs (Decidable (_ ≠ _))
  | .collide _ _ => inferInstanceAs (Decidable (_ ≠ _))

/-- The calls whose wrong bodies answer unlike the right one: those of the const
world, and `collideu` unless one diagonal body runs in place of another. -/
def Tells : Call → Obj → Obj → Prop
  | .poke w _, _, _ => w = .const
  | .collide w s, a, b =>
      w = .const ∨ a.leaf ≠ b.leaf ∨ d.collide w s a.leaf b.leaf = none

end Dispatch

section Bodies

variable {numClasses : ℕ} (d : Dispatch numClasses)

theorem got_poke (w : World) (s : Site) (a b : Obj) :
    (Call.poke w s).got d.paths a b = pokeImpl w s (d.poke w s a.leaf) a := by
  simp only [Call.got, Paths.fn1, Dispatch.paths, derived_leaf]

theorem got_collide (w : World) (s : Site) (a b : Obj) :
    (Call.collide w s).got d.paths a b =
      collideImpl w s ((d.collide w s a.leaf b.leaf).map Fin.val) a b := by
  simp only [Call.got, Paths.fn2, Dispatch.paths, derived_leaf]

theorem want2_leaf (a b : Obj) : want2 a b = (diagonal a.leaf b.leaf).elim (-1) (fun I => (I : ℤ)) := by
  unfold want2 diagonal
  rw [ite_congr (propext (tag_eq_iff a b)) (fun _ => rfl) (fun _ => rfl), a.tag_eq]
  split_ifs <;> rfl

theorem wantu2_leaf (a b : Obj) :
    wantu2 a b = (diagonal a.leaf b.leaf).elim (-a.tag - b.tag - 1) (fun _ => a.tag + b.tag) := by
  unfold wantu2 diagonal
  rw [ite_congr (propext (tag_eq_iff a b)) (fun _ => rfl) (fun _ => rfl)]
  split_ifs <;> rfl

/-- Distinct bodies of a const method answer distinctly: `-1` is no leaf. -/
theorem const_ids_inj {v w : Option ℕ}
    (h : v.elim (-1) (fun I => (I : ℤ)) = w.elim (-1) (fun I => (I : ℤ))) : v = w := by
  cases v with
  | none =>
    cases w with
    | none => rfl
    | some J => simp only [Option.elim] at h; omega
  | some I =>
    cases w with
    | none => simp only [Option.elim] at h; omega
    | some J => simp only [Option.elim, Int.ofNat_inj] at h; rw [h]

/-- A use body answers by the parity of its id: the catch-all is odd over the sum. -/
theorem use_ids_eq_iff (t : ℤ) {v w : Option ℕ} :
    v.elim (-t - 1) (fun _ => t) = w.elim (-t - 1) (fun _ => t) ↔ (v = none ↔ w = none) := by
  cases v <;> cases w <;> simp <;> omega

theorem poke_caught_iff (w : World) (s : Site) (a b : Obj)
    (hw : d.Wrong (.poke w s) a b) :
    (Call.poke w s).got d.paths a b ≠ (Call.poke w s).oracle a b ↔
      d.Tells (.poke w s) a b := by
  rw [got_poke]
  simp only [Dispatch.Wrong] at hw
  cases w with
  | const =>
    simp only [pokeImpl_const, Call.oracle, want1, a.tag_eq, Dispatch.Tells, iff_true]
    exact fun h => hw (Int.ofNat_inj.mp h)
  | use => simp [pokeImpl_use, Call.oracle, want1, Dispatch.Tells]

theorem collide_caught_iff (w : World) (s : Site) (a b : Obj)
    (hw : d.Wrong (.collide w s) a b) :
    (Call.collide w s).got d.paths a b ≠ (Call.collide w s).oracle a b ↔
      d.Tells (.collide w s) a b := by
  rw [got_collide]
  simp only [Dispatch.Wrong] at hw
  cases w with
  | const =>
    simp only [collideImpl_const, Call.oracle, want, want2_leaf, Dispatch.Tells, true_or, iff_true]
    exact fun h => hw (const_ids_inj h)
  | use =>
    have ht : -a.tag - b.tag - 1 = -(a.tag + b.tag) - 1 := by omega
    simp only [collideImpl_use, Call.oracle, want, wantu2_leaf, Dispatch.Tells, ht, ne_eq,
      use_ids_eq_iff, reduceCtorEq, false_or, Option.map_eq_none_iff]
    unfold diagonal at hw ⊢
    -- a wrong body on the diagonal is the catch-all or another leaf's; off it, any leaf's
    by_cases hl : a.leaf = b.leaf
    · simp [hl]
    · simp only [hl, ite_false, ne_eq, Option.map_eq_none_iff] at hw
      simp [hl, hw]

theorem caught_iff (c : Call) (a b : Obj) (hw : d.Wrong c a b) :
    c.got d.paths a b ≠ c.oracle a b ↔ d.Tells c a b := by
  cases c with
  | poke w s => exact poke_caught_iff d w s a b hw
  | collide w s => exact collide_caught_iff d w s a b hw

/-- The right body always answers what the oracle wants. -/
theorem right_body_passes (c : Call) (a b : Obj) (hw : ¬ d.Wrong c a b) :
    c.got d.paths a b = c.oracle a b := by
  cases c with
  | poke w s =>
    simp only [Dispatch.Wrong, not_not] at hw
    rw [got_poke, hw]
    cases w with
    | const => rw [pokeImpl_const]; exact a.tag_eq.symm
    | use => rw [pokeImpl_use]; rfl
  | collide w s =>
    simp only [Dispatch.Wrong, not_not] at hw
    rw [got_collide, hw]
    cases w with
    | const => rw [collideImpl_const]; exact (want2_leaf a b).symm
    | use => rw [collideImpl_use]; exact (wantu2_leaf a b).symm

end Bodies

theorem honours_iff_calls (p : Paths) (s : Site) (a b : Obj) :
    Honours p s a b ↔ ∀ c : Call, c.site = s → c.got p a b = c.oracle a b := by
  refine ⟨fun h c hc => ?_, fun h => ⟨fun w => h (.poke w s) rfl, fun w => h (.collide w s) rfl⟩⟩
  subst hc
  cases c with
  | poke w s => exact h.arity1 w
  | collide w s => exact h.arity2 w

section Gate

variable {S : Type} (g : Rng S) {numClasses : ℕ} (cfg : Config) (d : Dispatch numClasses)

/-- A whole run of the gate passes exactly when every wrong body it meets is one it
cannot tell from the right one. -/
theorem verify_dispatch_iff :
    verify d.paths (Env.build g numClasses cfg) = true ↔
      ∀ ij ∈ Visited cfg.objects, ∀ c : Call,
        d.Wrong c ((Env.build g numClasses cfg).receivers c.site ij.1)
          ((Env.build g numClasses cfg).receivers c.site ij.2) →
        ¬ d.Tells c ((Env.build g numClasses cfg).receivers c.site ij.1)
          ((Env.build g numClasses cfg).receivers c.site ij.2) := by
  rw [verify_iff_honoursAt]
  refine ⟨fun h ij hij c hw ht => ?_, fun h ij hij s => ?_⟩
  · have hc := (honours_iff_calls _ _ _ _).mp (h ij hij c.site) c rfl
    exact (caught_iff d c _ _ hw).mpr ht hc
  · rw [honours_iff_calls]
    rintro c rfl
    by_cases hw : d.Wrong c ((Env.build g numClasses cfg).receivers c.site ij.1)
        ((Env.build g numClasses cfg).receivers c.site ij.2)
    · by_contra hne
      exact h ij hij c hw ((caught_iff d c _ _ hw).mp hne)
    · exact right_body_passes d c _ _ hw

/-- At a pair `verify` visits, a wrong body answers unlike the oracle and fails the gate
exactly when its call is one that tells. -/
theorem wrong_body_fails_gate_iff (c : Call) (i j : Fin cfg.objects)
    (hi : 97 ∣ i.val) (hj : 89 ∣ j.val)
    (hw : d.Wrong c ((Env.build g numClasses cfg).receivers c.site i)
      ((Env.build g numClasses cfg).receivers c.site j)) :
    (c.got d.paths ((Env.build g numClasses cfg).receivers c.site i)
          ((Env.build g numClasses cfg).receivers c.site j) ≠
        c.oracle ((Env.build g numClasses cfg).receivers c.site i)
          ((Env.build g numClasses cfg).receivers c.site j) ∧
      verify d.paths (Env.build g numClasses cfg) = false) ↔
    d.Tells c ((Env.build g numClasses cfg).receivers c.site i)
      ((Env.build g numClasses cfg).receivers c.site j) := by
  rw [← caught_iff d c _ _ hw]
  refine ⟨fun h => h.1, fun hne => ⟨hne, ?_⟩⟩
  by_contra hv
  rw [Bool.not_eq_false, verify_dispatch_iff] at hv
  exact hv (i, j) ⟨hi, hj⟩ c hw ((caught_iff d c _ _ hw).mp hne)

end Gate

/-- Every body right but for the use world, where leaf 0 is answered by leaf 1. -/
def swappedUse : Dispatch 2 where
  poke := fun w _ a => if w = .use ∧ a = 0 then 1 else if a = 0 then 0 else 1
  collide := fun w _ a b =>
    if a = b then some (if w = .use ∧ a = 0 then 1 else if a = 0 then 0 else 1) else none

theorem swapped_const_collide_fails_gate :
    let d : Dispatch 2 := { swappedUse with collide := fun _ _ _ _ => none }
    (Call.collide .const (.main .map .vp)).got d.paths (derived 0) (derived 0) ≠ 0 ∧
      verify d.paths (Env.build idleRng 2 { objects := 2 }) = false :=
  (wrong_body_fails_gate_iff idleRng { objects := 2 }
    { swappedUse with collide := fun _ _ _ _ => none }
    (.collide .const (.main .map .vp)) ⟨0, by decide⟩ ⟨0, by decide⟩ (by decide) (by decide)
    (by decide)).mpr (Or.inl rfl)

/-- The gate passes a build whose use-world overriders of leaf 0 are all leaf 1's. -/
theorem swapped_use_passes_gate :
    ∃ (cfg : Config) (i j : Fin cfg.objects), cfg.inRange 64 = true ∧
      97 ∣ i.val ∧ 89 ∣ j.val ∧
      (∀ s, swappedUse.Wrong (.poke .use s) ((Env.build idleRng 2 cfg).receivers s i)
        ((Env.build idleRng 2 cfg).receivers s j)) ∧
      (∀ s, swappedUse.Wrong (.collide .use s) ((Env.build idleRng 2 cfg).receivers s i)
        ((Env.build idleRng 2 cfg).receivers s j)) ∧
      verify swappedUse.paths (Env.build idleRng 2 cfg) = true := by
  refine ⟨{ objects := 2 }, ⟨0, by decide⟩, ⟨0, by decide⟩, by decide, by decide, by decide,
    fun s => ?_, fun s => ?_, by decide⟩
  · rcases s with ⟨r, f⟩ | r
    · cases r <;> cases f <;> decide
    · cases r <;> decide
  · rcases s with ⟨r, f⟩ | r
    · cases r <;> cases f <;> decide
    · cases r <;> decide

end OMB
