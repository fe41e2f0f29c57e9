import OpenMethodBench.Spec.Run

/-! Paired draws: every run on one environment replays the same receivers. -/

namespace OMB

section Draws

variable {S : Type} (g : Rng S) (n : ℕ) [NeZero n]

/-- The generator after `k` repetitions: each has drawn twice. -/
def rngAfter (s : S) : ℕ → S
  | 0 => s
  | k + 1 => rngAfter (g.pick n (g.pick n s).2).2 k

/-- The indices repetition `k` draws. -/
def drawn (s : S) (k : ℕ) : Fin n × Fin n :=
  let s := rngAfter g n s k
  ((g.pick n s).1, (g.pick n (g.pick n s).2).1)

@[simp] theorem drawn_zero (s : S) : drawn g n s 0 = ((g.pick n s).1, (g.pick n (g.pick n s).2).1) :=
  rfl

@[simp] theorem drawn_succ (s : S) (k : ℕ) :
    drawn g n s (k + 1) = drawn g n (g.pick n (g.pick n s).2).2 k := rfl

end Draws

section Receivers

variable {S : Type} {n : ℕ} {Φ : VirtualPtr (Fin n)}

/-- The `virtual_ptr` arrays run parallel to the pointers they were built from. -/
def Stand.Parallel (e : Stand S n Φ) : Prop := ∀ r i, Φ.get r (e.vp i r) = e.ptrs i

/-- The pointers of a hierarchy's population. -/
def Stand.population (e : Stand S n Φ) : Hier → Fin n → Fin n
  | .main => e.ptrs
  | .inplace r => e.ip r

/-- What a variant is called with depends on its hierarchy and arity alone. -/
theorem Stand.Parallel.receivers {e : Stand S n Φ} (he : e.Parallel) (V : Variant) (i j : Fin n) :
    (e.prepare i j V).receivers =
      (V.hier, e.population V.hier i) ::
        if V.arity = 2 then [(V.hier, e.population V.hier j)] else [] := by
  cases V <;>
    simp [Stand.prepare, Args.receivers, Variant.hier, Variant.arity, Stand.population, he _ _]

theorem build_parallel (g : Rng S) (cfg : Config) (Φ : VirtualPtr (Fin cfg.objects)) :
    (Stand.build g cfg Φ).Parallel := by
  intro r i
  cases r <;> exact Φ.get_ofRef _ _

end Receivers

section Run

variable {S H : Type} {n : ℕ} [NeZero n] {Φ : VirtualPtr (Fin n)} (g : Rng S) (rig : Rig Φ H)

/-- Repetition `k` is called with what the draws `2k` and `2k + 1` after the seed select,
whatever the machine does. -/
theorem repetitions_args (V : Variant) (mode : CacheMode) (reps : ℕ) (e : Stand S n Φ) (h : H) :
    (repetitions g rig V mode reps e h).1.map Rep.args =
      (List.range reps).map fun k =>
        e.prepare (drawn g n e.rng k).1 (drawn g n e.rng k).2 V := by
  induction reps generalizing e h with
  | zero => rfl
  | succ reps ih =>
    rw [List.range_succ_eq_map, List.map_cons, List.map_map]
    simp only [repetitions, List.map_cons]
    rw [ih]
    rfl

/-- A run changes nothing of the environment but its generator. -/
theorem repetitions_frame (V : Variant) (mode : CacheMode) (reps : ℕ) (e : Stand S n Φ) (h : H) :
    (repetitions g rig V mode reps e h).2.1 = { e with rng := rngAfter g n e.rng reps } := by
  induction reps generalizing e h with
  | zero => rfl
  | succ reps ih =>
    simp only [repetitions]
    rw [ih]
    rfl

/-- What any run of a session was called with, on the arrays the session began with and
from the configured seed. -/
theorem session_args (cfg : Config) (runs : List (Variant × CacheMode)) (e : Stand S n Φ) (h : H)
    {x : RunRecord Φ} (hx : x ∈ session g rig cfg runs e h) :
    x.reps.map Rep.args = (List.range cfg.reps).map fun k =>
      e.prepare (drawn g n (g.seed cfg.seed) k).1 (drawn g n (g.seed cfg.seed) k).2 x.variant := by
  induction runs generalizing e h with
  | nil => simp [session] at hx
  | cons run rest ih =>
    obtain ⟨V, mode⟩ := run
    simp only [session, runVariant, List.mem_cons] at hx
    rcases hx with rfl | hx
    · exact repetitions_args g rig V mode cfg.reps _ h
    · -- the run before left the arrays as they were, and the generator is reset
      have hrest := ih _ _ hx
      rw [repetitions_frame] at hrest
      exact hrest

end Run

/-- Any two runs of a session on the built environment, of variants of one hierarchy, are
given the same objects in the same repetitions. -/
theorem paired_draws {S H : Type} (g : Rng S) (cfg : Config) [NeZero cfg.objects]
    (Φ : VirtualPtr (Fin cfg.objects)) (rig : Rig Φ H) (runs : List (Variant × CacheMode)) (h : H) :
    ∀ x ∈ session g rig cfg runs (Stand.build g cfg Φ) h,
    ∀ y ∈ session g rig cfg runs (Stand.build g cfg Φ) h, x.variant.hier = y.variant.hier →
      x.reps.length = cfg.reps ∧ y.reps.length = cfg.reps ∧
      ∀ (k : ℕ) (a b : Rep Φ), x.reps[k]? = some a → y.reps[k]? = some b →
        a.args.receivers.head? = b.args.receivers.head? ∧
        (x.variant.arity = 2 → y.variant.arity = 2 → a.args.receivers = b.args.receivers) := by
  intro x hx y hy hhier
  have hax := session_args g rig cfg runs _ h hx
  have hay := session_args g rig cfg runs _ h hy
  refine ⟨by simpa using congrArg List.length hax, by simpa using congrArg List.length hay, ?_⟩
  intro k a b ha hb
  -- both called with what the same two draws select
  have hka := congrArg (·[k]?) hax
  have hkb := congrArg (·[k]?) hay
  simp only [List.getElem?_map, ha, hb, Option.map_some] at hka hkb
  have hk : k < cfg.reps := by
    by_contra hk
    rw [List.getElem?_eq_none (by simpa using hk)] at hka
    simp at hka
  rw [List.getElem?_range hk, Option.map_some, Option.some.injEq] at hka hkb
  have hpar := build_parallel g cfg Φ
  rw [hka, hkb, hpar.receivers, hpar.receivers, hhier]
  refine ⟨rfl, fun h2 h2' => ?_⟩
  rw [if_pos h2, if_pos h2']

/-- A generator that counts its draws, shuffles by reversing, and picks by its count. -/
def countingRng : Rng ℕ where
  seed := id
  shuffle n s := (Fin.revPerm, s + n)
  pick n _ s := (Fin.ofNat n s, s + 1)

/-- A `virtual_ptr` that is the pointer and its registry. -/
def plainPtr (P : Type) : VirtualPtr P where
  Ptr _ := P
  ofRef _ p := p
  get _ p := p
  get_ofRef _ _ := rfl

/-- A machine that counts the calls it has timed. -/
def countingRig (n : ℕ) : Rig (plainPtr (Fin n)) ℕ where
  timedCall _ _ h := (h, h + 1)
  scrub _ _ _ h := h

theorem paired_draws_three_objects :
    let cfg : Config := { reps := 2, objects := 3 }
    let runs := [(Variant.omVp2 .flat, CacheMode.sweep), (.vf2, .warm), (.omVp1 .indirect, .clflush)]
    let rows := session countingRng (countingRig 3) cfg runs
      (Stand.build countingRng cfg (plainPtr (Fin 3))) 0
    rows.map (fun x => x.variant) = [.omVp2 .flat, .vf2, .omVp1 .indirect] ∧
    ∀ x ∈ rows, ∀ y ∈ rows, x.variant.hier = y.variant.hier →
      x.reps.length = 2 ∧ y.reps.length = 2 ∧
      ∀ (k : ℕ) (a b : Rep (plainPtr (Fin 3))), x.reps[k]? = some a → y.reps[k]? = some b →
        a.args.receivers.head? = b.args.receivers.head? ∧
        (x.variant.arity = 2 → y.variant.arity = 2 → a.args.receivers = b.args.receivers) := by
  intro cfg runs rows
  have hcfg : NeZero cfg.objects := ⟨by decide⟩
  exact ⟨rfl, paired_draws countingRng cfg (plainPtr (Fin 3)) (countingRig 3) runs 0⟩

end OMB
