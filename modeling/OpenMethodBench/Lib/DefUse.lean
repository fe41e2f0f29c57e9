import Mathlib.Data.List.Basic
import Mathlib.Data.List.Forall2
import Mathlib.Tactic.Common

/-! Straight-line programs seen as definitions and uses of registers: which
definitions reach the exit, and why running only those that do is enough. -/

namespace List.Forall₂

variable {α β : Type*} {R : α → β → Prop} {l : List α} {l' : List β} {k : ℕ}

/-- Lists related element by element are related at each position. -/
theorem getElem?_rel (h : List.Forall₂ R l l') (k : ℕ) : Option.Rel R l[k]? l'[k]? := by
  induction h generalizing k with
  | nil => exact Option.Rel.none
  | cons hab _ ih =>
    cases k with
    | zero => exact Option.Rel.some hab
    | succ k => exact ih k

theorem exists_left (h : List.Forall₂ R l l') {y : β} (hy : l'[k]? = some y) :
    ∃ x, l[k]? = some x ∧ R x y := by
  have hk := h.getElem?_rel k
  rw [hy] at hk
  generalize l[k]? = x at *
  cases hk with
  | some hxy => exact ⟨_, rfl, hxy⟩

theorem exists_right (h : List.Forall₂ R l l') {x : α} (hx : l[k]? = some x) :
    ∃ y, l'[k]? = some y ∧ R x y := by
  have hk := h.getElem?_rel k
  rw [hx] at hk
  generalize l'[k]? = y at *
  cases hk with
  | some hxy => exact ⟨_, rfl, hxy⟩

end List.Forall₂

namespace DefUse

/-- What one instruction means to a backward analysis. -/
inductive Effect (R : Type*)
  /-- acts outside the registers, reading `uses` -/
  | keep (uses : List R)
  /-- only writes `dst`, reading `uses` -/
  | define (dst : R) (uses : List R)
  /-- does nothing that is ever read -/
  | skip
  deriving DecidableEq, Repr

namespace Effect

variable {R : Type*}

def uses : Effect R → List R
  | .keep u => u
  | .define _ u => u
  | .skip => []

/-- The register an instruction writes. -/
def dst : Effect R → Option R
  | .define d _ => some d
  | _ => none

/-- The value `r` held before is gone, and the instruction did not read it. -/
def Overwrites (x : Effect R) (r : R) : Prop := x.dst = some r ∧ r ∉ x.uses

instance [DecidableEq R] (x : Effect R) (r : R) : Decidable (x.Overwrites r) :=
  inferInstanceAs (Decidable (_ ∧ _))

/-- Is the instruction's effect read, given what is read after it? -/
def Matters (after : List R) : Effect R → Prop
  | .keep _ => True
  | .define d _ => d ∈ after
  | .skip => False

instance [DecidableEq R] (after : List R) (x : Effect R) : Decidable (x.Matters after) :=
  match x with
  | .keep _ => isTrue trivial
  | .define d _ => inferInstanceAs (Decidable (d ∈ after))
  | .skip => isFalse id

theorem Matters.mono {a b : List R} (h : a ⊆ b) {x : Effect R} (hx : x.Matters a) :
    x.Matters b := by
  cases x with
  | keep u => trivial
  | define d u => exact h hx
  | skip => exact hx

end Effect

variable {R : Type*} [DecidableEq R]

/-- The registers read before a program that is left with `roots` still to be read. -/
def live (roots : List R) : List (Effect R) → List R
  | [] => roots
  | x :: p =>
    if x.Matters (live roots p) then
      x.uses ++ (live roots p).filter fun r => x.dst ≠ some r
    else live roots p

/-- The instruction at position `i` acts outside the registers, or what it writes
reaches the roots or such an instruction. -/
def Reaches (roots : List R) (p : List (Effect R)) (i : ℕ) : Prop :=
  match p[i]? with
  | some x => x.Matters (live roots (p.drop (i + 1)))
  | none => False

instance (roots : List R) (p : List (Effect R)) (i : ℕ) : Decidable (Reaches roots p i) :=
  decidable_of_iff
    ((p[i]?).any (fun x => decide (x.Matters (live roots (p.drop (i + 1))))) = true) <| by
    unfold Reaches
    cases p[i]? <;> simp

section Live

variable {roots : List R}

theorem mem_live_cons {x : Effect R} {p : List (Effect R)} {r : R} :
    r ∈ live roots (x :: p) ↔
      x.Matters (live roots p) ∧ r ∈ x.uses ∨ r ∈ live roots p ∧ x.dst ≠ some r := by
  rw [live]
  split_ifs with h
  · simp [h]
  · refine ⟨fun hr => Or.inr ⟨hr, fun hd => h ?_⟩, ?_⟩
    · -- an instruction that writes a live register matters
      cases x with
      | keep u => trivial
      | define d u =>
        simp only [Effect.dst, Option.some.injEq] at hd
        subst hd
        exact hr
      | skip => simp [Effect.dst] at hd
    · rintro (⟨hm, -⟩ | ⟨hr, -⟩)
      · exact absurd hm h
      · exact hr

@[simp] theorem reaches_zero {x : Effect R} {p : List (Effect R)} :
    Reaches roots (x :: p) 0 ↔ x.Matters (live roots p) := Iff.rfl

@[simp] theorem reaches_succ {x : Effect R} {p : List (Effect R)} {i : ℕ} :
    Reaches roots (x :: p) (i + 1) ↔ Reaches roots p i := Iff.rfl

theorem reaches_drop {p : List (Effect R)} {j k : ℕ} :
    Reaches roots (p.drop j) k ↔ Reaches roots p (j + k) := by
  unfold Reaches
  rw [List.getElem?_drop, List.drop_drop, Nat.add_assoc]

theorem Reaches.lt_length {p : List (Effect R)} {i : ℕ} (h : Reaches roots p i) :
    i < p.length := by
  by_contra hi
  unfold Reaches at h
  rw [List.getElem?_eq_none (Nat.le_of_not_lt hi)] at h
  exact h

/-- Some position `k` reads `r` before the program overwrites it: an instruction that
`K` holds of, or the exit. -/
def ReadAt (roots : List R) (p : List (Effect R)) (K : ℕ → Prop) (r : R) (k : ℕ) : Prop :=
  (k = p.length ∧ r ∈ roots ∨ K k ∧ ∃ x, p[k]? = some x ∧ r ∈ x.uses) ∧
    ∀ m < k, ∀ x, p[m]? = some x → ¬ x.Overwrites r

/-- A register is live exactly when an instruction that reaches the roots, or the exit,
reads it before it is overwritten. -/
theorem mem_live_iff_readAt {p : List (Effect R)} {r : R} :
    r ∈ live roots p ↔ ∃ k, ReadAt roots p (Reaches roots p) r k := by
  induction p with
  | nil =>
    refine ⟨fun hr => ⟨0, Or.inl ⟨rfl, hr⟩, by simp⟩, ?_⟩
    rintro ⟨k, ⟨-, hr⟩ | ⟨-, x, hx, -⟩, -⟩
    · exact hr
    · simp at hx
  | cons x p ih =>
    rw [mem_live_cons]
    refine ⟨?_, ?_⟩
    · rintro (⟨hm, hr⟩ | ⟨hr, hd⟩)
      · exact ⟨0, Or.inr ⟨hm, x, rfl, hr⟩, by simp⟩
      · obtain ⟨k, hk, hbetween⟩ := ih.mp hr
        refine ⟨k + 1, ?_, ?_⟩
        · rcases hk with ⟨hk, hroot⟩ | ⟨hk, y, hy, hu⟩
          · exact Or.inl ⟨by simp [hk], hroot⟩
          · exact Or.inr ⟨hk, y, hy, hu⟩
        · intro m hm y hy
          cases m with
          | zero =>
            simp only [List.getElem?_cons_zero, Option.some.injEq] at hy
            subst hy
            exact fun h => hd h.1
          | succ m => exact hbetween m (by omega) y hy
    · rintro ⟨k, hk, hbetween⟩
      cases k with
      | zero =>
        rcases hk with ⟨hk, -⟩ | ⟨hm, y, hy, hu⟩
        · simp at hk
        · simp only [List.getElem?_cons_zero, Option.some.injEq] at hy
          subst hy
          exact Or.inl ⟨hm, hu⟩
      | succ k =>
        have hlater : r ∈ live roots p := by
          refine ih.mpr ⟨k, ?_, fun m hm y hy => hbetween (m + 1) (by omega) y hy⟩
          rcases hk with ⟨hk, hroot⟩ | ⟨hk, y, hy, hu⟩
          · exact Or.inl ⟨by simpa using hk, hroot⟩
          · exact Or.inr ⟨hk, y, hy, hu⟩
        by_cases hd : x.dst = some r
        · -- a write of `r` on the way reads it, and matters because `r` is live after it
          have hu : r ∈ x.uses := by
            by_contra hu
            exact hbetween 0 (by omega) x rfl ⟨hd, hu⟩
          cases x with
          | keep u => simp [Effect.dst] at hd
          | define d u =>
            simp only [Effect.dst, Option.some.injEq] at hd
            subst hd
            exact Or.inl ⟨hlater, hu⟩
          | skip => simp [Effect.dst] at hd
        · exact Or.inr ⟨hlater, hd⟩

/-- What position `i` writes is live after it. -/
theorem reaches_define_iff {p : List (Effect R)} {i : ℕ} {d : R} {u : List R}
    (hi : p[i]? = some (.define d u)) :
    Reaches roots p i ↔ d ∈ live roots (p.drop (i + 1)) := by
  unfold Reaches
  rw [hi]
  rfl

theorem reaches_keep {p : List (Effect R)} {i : ℕ} {u : List R}
    (hi : p[i]? = some (.keep u)) : Reaches roots p i := by
  unfold Reaches
  rw [hi]
  trivial

theorem not_reaches_skip {p : List (Effect R)} {i : ℕ}
    (hi : p[i]? = some .skip) : ¬ Reaches roots p i := by
  unfold Reaches
  rw [hi]
  exact id

end Live

end DefUse
