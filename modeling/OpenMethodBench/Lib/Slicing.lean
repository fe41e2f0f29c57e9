import OpenMethodBench.Lib.DefUse

/-! Backward slices of straight-line programs: what a coarser view of the same
instructions keeps in excess, and that running a slice which drops nothing that
matters ends like running everything. -/

namespace DefUse

/-! ## Two views of one program -/

/-- `y` reads and keeps at least what `x` does, and writes the same. -/
structure Covers {R : Type*} (x y : Effect R) : Prop where
  dst_eq : y.dst = x.dst
  uses_subset : x.uses ⊆ y.uses
  matters : ∀ after, x.Matters after → y.Matters after

/-- `y` reads and keeps at least what `x` does, and writes the same, or a register it also
reads. -/
structure Widens {R : Type*} (x y : Effect R) : Prop where
  dst : y.dst = x.dst ∨ x.dst = none ∧ ∃ r ∈ y.uses, y.dst = some r
  uses_subset : x.uses ⊆ y.uses
  matters : ∀ after, x.Matters after → y.Matters after

theorem Covers.widens {R : Type*} {x y : Effect R} (h : Covers x y) : Widens x y :=
  ⟨Or.inl h.dst_eq, h.uses_subset, h.matters⟩

/-- `y` is `x` read less precisely: it may count a write as reading its own register. -/
inductive Coarsens {R : Type*} : Effect R → Effect R → Prop
  | same (x : Effect R) : Coarsens x x
  | reread (d : R) (u : List R) : Coarsens (.define d u) (.define d (d :: u))

namespace Coarsens

variable {R : Type*} {x y : Effect R}

theorem dst_eq (h : Coarsens x y) : y.dst = x.dst := by
  cases h <;> rfl

theorem uses_subset (h : Coarsens x y) : x.uses ⊆ y.uses := by
  cases h with
  | same => exact List.Subset.refl _
  | reread d u => exact List.subset_cons_self d u

theorem matters_iff (h : Coarsens x y) (after : List R) :
    y.Matters after ↔ x.Matters after := by
  cases h <;> rfl

theorem covers (h : Coarsens x y) : Covers x y :=
  ⟨h.dst_eq, h.uses_subset, fun after => (h.matters_iff after).mpr⟩

/-- A register the coarse view alone reads is the one the instruction writes. -/
theorem dst_of_mem_uses (h : Coarsens x y) {r : R} (hy : r ∈ y.uses) (hx : r ∉ x.uses) :
    x.dst = some r := by
  cases h with
  | same => exact absurd hy hx
  | reread d u =>
    rcases List.mem_cons.mp hy with rfl | hr
    · rfl
    · exact absurd hr hx

end Coarsens

variable {R : Type*} [DecidableEq R] {roots : List R}

section Views

variable {p q : List (Effect R)}

theorem live_mono {roots' : List R} (hroots : roots ⊆ roots') (h : List.Forall₂ Widens p q) :
    live roots p ⊆ live roots' q := by
  induction h with
  | nil => exact hroots
  | @cons x y p q hxy _ ih =>
    intro r hr
    rw [mem_live_cons] at hr ⊢
    rcases hr with ⟨hm, hu⟩ | ⟨hr, hd⟩
    · exact Or.inl ⟨hxy.matters _ (hm.mono ih), hxy.uses_subset hu⟩
    · by_cases hyd : y.dst = some r
      · -- `y` alone writes the register, which is live after it, and reads it
        obtain ⟨-, s, hs, hys⟩ := hxy.dst.resolve_left fun h => hd (h ▸ hyd)
        obtain rfl := Option.some.inj (hyd.symm.trans hys)
        refine Or.inl ⟨?_, hs⟩
        cases y with
        | keep u => trivial
        | define d u =>
          obtain rfl := Option.some.inj hyd
          exact ih hr
        | skip => simp [Effect.dst] at hyd
      · exact Or.inr ⟨ih hr, hyd⟩

/-- The wider view keeps at least what the other one does. -/
theorem reaches_mono {roots' : List R} (hroots : roots ⊆ roots') (h : List.Forall₂ Widens p q) :
    ∀ i, Reaches roots p i → Reaches roots' q i := by
  induction h with
  | nil => exact fun i h => absurd h.lt_length (by simp)
  | @cons x y p q hxy hpq ih =>
    intro i hi
    cases i with
    | zero => exact hxy.matters _ (Effect.Matters.mono (live_mono hroots hpq) hi)
    | succ i => exact ih i hi

/-- The next write of `r` reaches the roots without reading `r`, but the coarse view
counts it as a read. -/
def Reread (roots : List R) (p q : List (Effect R)) (r : R) (m : ℕ) : Prop :=
  (∃ x y, p[m]? = some x ∧ q[m]? = some y ∧ x.Overwrites r ∧ r ∈ y.uses) ∧
    Reaches roots p m ∧ ∀ k < m, ∀ x, p[k]? = some x → x.dst ≠ some r

theorem Reread.cons {r : R} {m : ℕ} (h : Reread roots p q r m) {x : Effect R}
    (hx : x.dst ≠ some r) (y : Effect R) : Reread roots (x :: p) (y :: q) r (m + 1) := by
  obtain ⟨hxy, hm, hbefore⟩ := h
  refine ⟨hxy, hm, fun k hk z hz => ?_⟩
  cases k with
  | zero =>
    simp only [List.getElem?_cons_zero, Option.some.injEq] at hz
    exact hz ▸ hx
  | succ k => exact hbefore k (by omega) z hz

/-- Where the coarse view keeps nothing in excess, a register is live in it alone
because of its next write. -/
theorem live_or_reread (h : List.Forall₂ Coarsens p q)
    (hpq : ∀ i, Reaches roots q i → Reaches roots p i) {r : R} (hr : r ∈ live roots q) :
    r ∈ live roots p ∨ ∃ m, Reread roots p q r m := by
  induction h with
  | nil => exact Or.inl hr
  | @cons x y p q hxy hrest ih =>
    have hpq' : ∀ i, Reaches roots q i → Reaches roots p i := fun i => hpq (i + 1)
    rw [mem_live_cons] at hr
    rcases hr with ⟨hm, hu⟩ | ⟨hr, hd⟩
    · have hmx : x.Matters (live roots p) := hpq 0 hm
      by_cases hux : r ∈ x.uses
      · exact Or.inl (mem_live_cons.mpr (Or.inl ⟨hmx, hux⟩))
      · exact Or.inr ⟨0, ⟨x, y, rfl, rfl, ⟨hxy.dst_of_mem_uses hu hux, hux⟩, hu⟩, hmx, by simp⟩
    · rw [hxy.dst_eq] at hd
      rcases ih hpq' hr with hp | ⟨m, hm⟩
      · exact Or.inl (mem_live_cons.mpr (Or.inr ⟨hp, hd⟩))
      · exact Or.inr ⟨m + 1, hm.cons hd y⟩

/-- A reread register is live in the coarse view. -/
theorem Reread.mem_live (h : List.Forall₂ Coarsens p q) {r : R} {m : ℕ}
    (hm : Reread roots p q r m) : r ∈ live roots q := by
  rw [mem_live_iff_readAt]
  obtain ⟨⟨x, y, -, hy, -, hu⟩, hreach, hbefore⟩ := hm
  refine ⟨m, Or.inr ⟨reaches_mono (List.Subset.refl _) (h.imp fun _ _ hxy => hxy.covers.widens) m hreach,
      y, hy, hu⟩,
    fun k hk z hz hover => ?_⟩
  obtain ⟨w, hw, hwz⟩ := h.exists_left hz
  exact hbefore k hk w hw (hwz.dst_eq ▸ hover.1)

/-- Position `i` writes a register nothing that reaches the roots reads, and whose next
write is one the coarse view counts as a read. -/
def Stale (roots : List R) (p q : List (Effect R)) (i : ℕ) : Prop :=
  ∃ d u m, p[i]? = some (.define d u) ∧ ¬ Reaches roots p i ∧
    Reread roots (p.drop (i + 1)) (q.drop (i + 1)) d m

/-- The two views keep the same instructions exactly when no dead write is stale. -/
theorem reaches_le_iff_not_stale (h : List.Forall₂ Coarsens p q) :
    (∀ i, Reaches roots q i → Reaches roots p i) ↔ ∀ i, ¬ Stale roots p q i := by
  refine ⟨fun hpq i hst => ?_, fun hst => ?_⟩
  · obtain ⟨d, u, m, hi, hdead, hm⟩ := hst
    refine hdead (hpq i ?_)
    have hlive := hm.mem_live (List.forall₂_drop (i + 1) h)
    obtain ⟨y, hy, hxy⟩ := h.exists_right hi
    cases hxy with
    | same => exact (reaches_define_iff hy).mpr hlive
    | reread => exact (reaches_define_iff hy).mpr hlive
  · -- from the end backwards: every later excess would have been stale itself
    induction h with
    | nil => exact fun _ h => h
    | @cons x y p q hxy hrest ih =>
      have hrec : ∀ i, Reaches roots q i → Reaches roots p i :=
        ih fun i ⟨d, u, m, hi, hdead, hm⟩ => hst (i + 1) ⟨d, u, m, hi, hdead, hm⟩
      intro i hi
      cases i with
      | succ i => exact hrec i hi
      | zero =>
        by_contra hdead
        rw [reaches_zero, hxy.matters_iff] at hi
        cases x with
        | keep u => exact hdead trivial
        | skip => exact hi
        | define d u =>
          rcases live_or_reread hrest hrec hi with hlive | ⟨m, hm⟩
          · exact hdead hlive
          · exact hst 0 ⟨d, u, m, rfl, hdead, hm⟩

end Views

/-! ## One instruction read less -/

section Missed

variable {S T : List R} {p q : List (Effect R)}

theorem mem_live_union {r : R} : r ∈ live (S ++ T) p ↔ r ∈ live S p ∨ r ∈ live T p := by
  induction p generalizing r with
  | nil => exact List.mem_append
  | cons x p ih =>
    have hmatters : x.Matters (live (S ++ T) p) ↔ x.Matters (live S p) ∨ x.Matters (live T p) := by
      cases x with
      | keep u => exact (or_self_iff).symm
      | define d u => exact ih
      | skip => exact (or_self_iff).symm
    rw [mem_live_cons, mem_live_cons, mem_live_cons, hmatters, ih]
    tauto

/-- What reaches one of several roots. -/
theorem reaches_union {i : ℕ} : Reaches (S ++ T) p i ↔ Reaches S p i ∨ Reaches T p i := by
  induction p generalizing i with
  | nil =>
    have hnone : ∀ roots : List R, ¬ Reaches roots [] i := fun roots h => absurd h.lt_length (by simp)
    simp [hnone]
  | cons x p ih =>
    cases i with
    | succ i => exact ih
    | zero =>
      cases x with
      | keep u => exact (or_self_iff).symm
      | define d u => exact mem_live_union
      | skip => exact (or_self_iff).symm

theorem live_append : live roots (p ++ q) = live (live roots q) p := by
  induction p with
  | nil => rfl
  | cons x p ih => rw [List.cons_append, live, live, ih]

theorem reaches_append_left {i : ℕ} (hi : i < p.length) :
    Reaches roots (p ++ q) i ↔ Reaches (live roots q) p i := by
  induction p generalizing i with
  | nil => exact absurd hi (Nat.not_lt_zero i)
  | cons x p ih =>
    cases i with
    | succ i => exact ih (Nat.lt_of_succ_lt_succ hi)
    | zero =>
      rw [List.cons_append, reaches_zero, reaches_zero, live_append]

theorem reaches_append_right {i : ℕ} : Reaches roots (p ++ q) (p.length + i) ↔ Reaches roots q i := by
  rw [← reaches_drop, List.drop_left]

/-- The registers that `x` reads and `y` does not. -/
def missed (x y : Effect R) : List R := x.uses.filter fun r => r ∉ y.uses

omit [DecidableEq R] in
/-- The narrower view of an instruction that matters reads something only where it
matters. -/
theorem Widens.matters_of_mem_uses {x y : Effect R} (h : Widens y x) {after : List R} {r : R}
    (hx : x.Matters after) (hr : r ∈ y.uses) : y.Matters after := by
  cases y with
  | keep u => trivial
  | skip => exact absurd hr List.not_mem_nil
  | define d u =>
    rcases h.dst with hd | ⟨hd, -⟩
    · cases x with
      | keep v => simp [Effect.dst] at hd
      | skip => simp [Effect.dst] at hd
      | define e v =>
        obtain rfl := Option.some.inj hd
        exact hx
    · simp [Effect.dst] at hd

/-- What is live before the wider view is live before the other, or missed there. -/
theorem live_missed {x y : Effect R} (h : Widens y x) {after : List (Effect R)} {r : R}
    (hr : r ∈ live roots (x :: after)) :
    r ∈ live roots (y :: after) ∨ x.Matters (live roots after) ∧ r ∈ missed x y := by
  rw [mem_live_cons]
  rcases mem_live_cons.mp hr with ⟨hm, hu⟩ | ⟨hr, hd⟩
  · by_cases huy : r ∈ y.uses
    · exact Or.inl (Or.inl ⟨h.matters_of_mem_uses hm huy, huy⟩)
    · exact Or.inr ⟨hm, List.mem_filter.mpr ⟨hu, by simpa using huy⟩⟩
  · refine Or.inl (Or.inr ⟨hr, fun hy => ?_⟩)
    rcases h.dst with hdst | ⟨hdst, -⟩
    · exact hd (hdst.trans hy)
    · rw [hdst] at hy
      exact absurd hy (by simp)

/-- Two programs that differ in one instruction, which the second reads less of: whatever
reaches the roots in the first does so in the second, or is in `K`, exactly when that
instruction is, and whatever the registers it misses are computed from. -/
theorem reaches_le_iff_missed {x y : Effect R} (hxy : Widens y x) {before after : List (Effect R)}
    (K : ℕ → Prop) :
    (∀ i, Reaches roots (before ++ x :: after) i → Reaches roots (before ++ y :: after) i ∨ K i) ↔
      (Reaches roots (before ++ x :: after) before.length →
        (Reaches roots (before ++ y :: after) before.length ∨ K before.length) ∧
          ∀ i, Reaches (missed x y) before i → Reaches roots (before ++ y :: after) i ∨ K i) := by
  have hsame : List.Forall₂ Widens before before :=
    List.forall₂_same.mpr fun z _ => (Coarsens.same z).covers.widens
  have hat : Reaches roots (before ++ x :: after) before.length ↔ x.Matters (live roots after) :=
    reaches_append_right (i := 0)
  constructor
  · intro h hx
    refine ⟨h _ hx, fun i hi => h i ?_⟩
    rw [reaches_append_left hi.lt_length]
    refine reaches_mono (fun r hr => ?_) hsame i hi
    exact mem_live_cons.mpr (Or.inl ⟨hat.mp hx, List.mem_of_mem_filter hr⟩)
  · intro h i hi
    rcases Nat.lt_trichotomy i before.length with hlt | rfl | hgt
    · rw [reaches_append_left hlt] at hi
      by_cases hx : Reaches roots (before ++ x :: after) before.length
      · have hsub : live roots (x :: after) ⊆ live roots (y :: after) ++ missed x y := fun r hr =>
          List.mem_append.mpr ((live_missed hxy hr).imp_right And.right)
        rcases reaches_union.mp (reaches_mono hsub hsame i hi) with hi | hi
        · exact Or.inl ((reaches_append_left hlt).mpr hi)
        · exact (h hx).2 i hi
      · have hsub : live roots (x :: after) ⊆ live roots (y :: after) := fun r hr =>
          (live_missed hxy hr).resolve_right fun hm => hx (hat.mpr hm.1)
        exact Or.inl ((reaches_append_left hlt).mpr (reaches_mono hsub hsame i hi))
    · exact (h hi).1
    · obtain ⟨j, rfl⟩ : ∃ j, i = before.length + (j + 1) := ⟨i - before.length - 1, by omega⟩
      rw [reaches_append_right] at hi ⊢
      exact Or.inl hi

end Missed

/-! ## Renamed registers -/

/-- `y` is `x` with its registers renamed by `f`; it may also read registers that are
the name of none. -/
def Renames {S : Type*} (f : R → S) : Effect R → Effect S → Prop
  | .keep u, .keep v => ∀ r, f r ∈ v ↔ r ∈ u
  | .define d u, .define e v => e = f d ∧ ∀ r, f r ∈ v ↔ r ∈ u
  | .skip, .skip => True
  | _, _ => False

section Renaming

variable {S : Type*} [DecidableEq S] {f : R → S} {rootsS : List S}
  {p : List (Effect R)} {q : List (Effect S)}

omit [DecidableEq R] [DecidableEq S] in
theorem Renames.matters_iff {x : Effect R} {y : Effect S} (h : Renames f x y)
    {after : List R} {after' : List S} (hafter : ∀ r, f r ∈ after' ↔ r ∈ after) :
    y.Matters after' ↔ x.Matters after := by
  cases x <;> cases y <;> simp only [Renames] at h
  · exact Iff.rfl
  · obtain ⟨rfl, -⟩ := h
    exact hafter _
  · exact Iff.rfl

theorem live_rename (hf : Function.Injective f) (h : List.Forall₂ (Renames f) p q)
    (hroots : ∀ r, f r ∈ rootsS ↔ r ∈ roots) (r : R) :
    f r ∈ live rootsS q ↔ r ∈ live roots p := by
  induction h generalizing r with
  | nil => exact hroots r
  | @cons x y p q hxy _ ih =>
    rw [mem_live_cons, mem_live_cons, hxy.matters_iff ih, ih]
    have huses : f r ∈ y.uses ↔ r ∈ x.uses := by
      cases x <;> cases y <;> simp only [Renames] at hxy
      · exact hxy r
      · exact hxy.2 r
      · simp [Effect.uses]
    have hdst : y.dst = some (f r) ↔ x.dst = some r := by
      cases x <;> cases y <;> simp only [Renames] at hxy
      · simp [Effect.dst]
      · obtain ⟨rfl, -⟩ := hxy
        simp [Effect.dst, hf.eq_iff]
      · simp [Effect.dst]
    rw [huses, Ne, hdst]

theorem reaches_rename (hf : Function.Injective f) (h : List.Forall₂ (Renames f) p q)
    (hroots : ∀ r, f r ∈ rootsS ↔ r ∈ roots) (i : ℕ) :
    Reaches rootsS q i ↔ Reaches roots p i := by
  induction h generalizing i with
  | nil => simp [Reaches]
  | @cons x y p q hxy hpq ih =>
    cases i with
    | zero => exact hxy.matters_iff (live_rename hf hpq hroots)
    | succ i => exact ih i

end Renaming

/-! ## Precision of a kept set -/

/-- Everything kept either acts outside the registers, or writes a register that the
exit or another kept instruction reads before it is overwritten. -/
def Precise (roots : List R) (p : List (Effect R)) (K : ℕ → Prop) : Prop :=
  ∀ i, K i → (∃ u, p[i]? = some (.keep u)) ∨
    ∃ d u, p[i]? = some (.define d u) ∧
      ∃ k, ReadAt roots (p.drop (i + 1)) (fun k => K (i + 1 + k)) d k

/-- A kept set that holds all that reaches the roots is precise exactly when it holds
nothing else. -/
theorem precise_iff_reaches {p : List (Effect R)} {K : ℕ → Prop}
    (hK : ∀ i, Reaches roots p i → K i) :
    Precise roots p K ↔ ∀ i, K i → Reaches roots p i := by
  refine ⟨fun h i => ?_, fun h i hi => ?_⟩
  · -- downwards on `i`: the reader of what `i` writes comes later and is kept
    induction hn : p.length - i using Nat.strongRecOn generalizing i with
    | ind n ih =>
      intro hi
      rcases h i hi with ⟨u, hu⟩ | ⟨d, u, hd, k, hk, hbetween⟩
      · exact reaches_keep hu
      · rw [reaches_define_iff hd, mem_live_iff_readAt]
        refine ⟨k, ?_, hbetween⟩
        rcases hk with hexit | ⟨hk, x, hx, hr⟩
        · exact Or.inl hexit
        · refine Or.inr ⟨reaches_drop.mpr (ih _ ?_ _ rfl hk), x, hx, hr⟩
          have hlt : i < p.length := (List.getElem?_eq_some_iff.mp hd).1
          omega
  · have hreach := h i hi
    obtain ⟨x, hx⟩ : ∃ x, p[i]? = some x :=
      ⟨_, List.getElem?_eq_getElem hreach.lt_length⟩
    cases x with
    | keep u => exact Or.inl ⟨u, hx⟩
    | skip => exact absurd hreach (not_reaches_skip hx)
    | define d u =>
      rw [reaches_define_iff hx, mem_live_iff_readAt] at hreach
      obtain ⟨k, hk, hbetween⟩ := hreach
      refine Or.inr ⟨d, u, hx, k, ?_, hbetween⟩
      rcases hk with hexit | ⟨hk, y, hy, hr⟩
      · exact Or.inl hexit
      · exact Or.inr ⟨hK _ (reaches_drop.mp hk), y, hy, hr⟩

/-! ## Running a slice -/

/-- Registers and everything else. -/
structure State (R V M : Type*) where
  regs : R → V
  mem : M

section Run

variable {V M : Type*}

/-- Two states no reader of `L` and of the memory can tell apart. -/
def Agree (L : List R) (s t : State R V M) : Prop :=
  s.mem = t.mem ∧ ∀ r ∈ L, s.regs r = t.regs r

/-- The step does to a state what `x` says of it. -/
def Respects (f : State R V M → State R V M) : Effect R → Prop
  | .keep u => (∀ s, (f s).regs = s.regs) ∧ ∀ s t, Agree u s t → (f s).mem = (f t).mem
  | .define d u => (∀ s, (f s).mem = s.mem) ∧ (∀ s r, r ≠ d → (f s).regs r = s.regs r) ∧
      ∀ s t, Agree u s t → (f s).regs d = (f t).regs d
  | .skip => ∀ s, f s = s

omit [DecidableEq R] in
theorem Agree.mono {L L' : List R} {s t : State R V M} (h : Agree L' s t) (hL : L ⊆ L') :
    Agree L s t :=
  ⟨h.1, fun r hr => h.2 r (hL hr)⟩

omit [DecidableEq R] in
/-- A register the instruction does not write keeps its value. -/
theorem Respects.frame {x : Effect R} {f : State R V M → State R V M} (h : Respects f x)
    (s : State R V M) {r : R} (hr : x.dst ≠ some r) : (f s).regs r = s.regs r := by
  cases x with
  | keep u => rw [h.1]
  | define d u => exact h.2.1 s r fun hd => hr (congrArg some hd.symm)
  | skip => rw [h]

variable {x : Effect R} {p : List (Effect R)} {f : State R V M → State R V M}
  {s t : State R V M}

/-- One step on both sides. -/
theorem agree_step (hf : Respects f x) (h : Agree (live roots (x :: p)) s t) :
    Agree (live roots p) (f s) (f t) := by
  have hother : ∀ r ∈ live roots p, x.dst ≠ some r → (f s).regs r = (f t).regs r := by
    intro r hr hd
    rw [hf.frame s hd, hf.frame t hd]
    exact h.2 r (mem_live_cons.mpr (Or.inr ⟨hr, hd⟩))
  have huses : x.Matters (live roots p) → Agree x.uses s t := fun hm =>
    ⟨h.1, fun r hr => h.2 r (mem_live_cons.mpr (Or.inl ⟨hm, hr⟩))⟩
  cases x with
  | keep u =>
    exact ⟨hf.2 s t (huses trivial), fun r hr => hother r hr (by simp [Effect.dst])⟩
  | define d u =>
    refine ⟨by rw [hf.1, hf.1]; exact h.1, fun r hr => ?_⟩
    by_cases hd : r = d
    · subst hd
      exact hf.2.2 s t (huses hr)
    · exact hother r hr fun he => hd (Option.some.inj he).symm
  | skip =>
    refine ⟨by rw [hf, hf]; exact h.1, fun r hr => hother r hr (by simp [Effect.dst])⟩

/-- A step that does not matter, on the left alone. -/
theorem agree_dropped (hf : Respects f x) (hx : ¬ x.Matters (live roots p))
    (h : Agree (live roots (x :: p)) s t) : Agree (live roots p) (f s) t := by
  have hrest : ∀ r ∈ live roots p, x.dst ≠ some r → (f s).regs r = t.regs r := by
    intro r hr hd
    rw [hf.frame s hd]
    exact h.2 r (mem_live_cons.mpr (Or.inr ⟨hr, hd⟩))
  cases x with
  | keep u => exact absurd trivial hx
  | define d u =>
    refine ⟨by rw [hf.1]; exact h.1, fun r hr => hrest r hr fun hd => hx ?_⟩
    rw [Option.some.inj hd]
    exact hr
  | skip => exact ⟨by rw [hf]; exact h.1, fun r hr => hrest r hr (by simp [Effect.dst])⟩

/-- The elements at the positions `keep` holds of. -/
def kept {α : Type*} (keep : ℕ → Bool) : List α → List α
  | [] => []
  | x :: xs =>
    if keep 0 then x :: kept (fun i => keep (i + 1)) xs else kept (fun i => keep (i + 1)) xs

/-- Run the steps in order. -/
def run (steps : List (State R V M → State R V M)) (s : State R V M) : State R V M :=
  steps.foldl (fun s f => f s) s

/-- A slice that drops nothing that reaches the roots leaves the roots and the memory
as the whole program does. -/
theorem agree_run {p : List (Effect R)} {steps : List (State R V M → State R V M)}
    (hp : List.Forall₂ (fun x f => Respects f x) p steps) (keep : ℕ → Bool)
    (hkeep : ∀ i, Reaches roots p i → keep i = true)
    (h : Agree (live roots p) s t) : Agree roots (run steps s) (run (kept keep steps) t) := by
  induction hp generalizing keep s t with
  | nil => exact h
  | @cons x f p steps hf hp ih =>
    simp only [kept, run, List.foldl_cons]
    have hrest : ∀ i, Reaches roots p i → keep (i + 1) = true := fun i => hkeep (i + 1)
    split_ifs with hk
    · exact ih _ hrest (agree_step hf h)
    · exact ih _ hrest (agree_dropped hf (fun hm => hk (hkeep 0 hm)) h)

end Run

end DefUse
