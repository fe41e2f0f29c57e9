import Mathlib.Data.List.Forall2
import Mathlib.Tactic.Common

/-! Loops whose steps may end the run: what a run that reached the end went through. -/

namespace Outcome

universe u v w

variable {ε : Type u} {α : Type w} {β γ : Type v}

theorem bind_eq_ok_iff {x : Except ε β} {f : β → Except ε γ} {c : γ} :
    (x >>= f) = .ok c ↔ ∃ b, x = .ok b ∧ f b = .ok c := by
  rcases x with e | b <;> simp [bind, Except.bind]

/-- One step that goes on, and the rest of the run. -/
theorem bind_ok {x : Except ε β} {f : β → Except ε γ} {b : β} {c : γ} (hx : x = .ok b)
    (hf : f b = .ok c) : (x >>= f) = .ok c :=
  bind_eq_ok_iff.mpr ⟨b, hx, hf⟩

theorem exists_bind {x : Except ε β} {f : β → Except ε γ} {b : β} (hx : x = .ok b)
    (hf : ∃ c, f b = .ok c) : ∃ c, (x >>= f) = .ok c := hf.imp fun _ hc => bind_ok hx hc

theorem pure_eq_ok_iff {b c : β} : (pure b : Except ε β) = .ok c ↔ b = c := by
  simp [pure, Except.pure]

/-- A loop that reached its end, result by result. -/
theorem mapM_eq_ok_iff {f : α → Except ε β} {xs : List α} {ys : List β} :
    xs.mapM f = .ok ys ↔ List.Forall₂ (fun x y => f x = .ok y) xs ys := by
  induction xs generalizing ys with
  | nil =>
    rw [List.mapM_nil, pure_eq_ok_iff, List.forall₂_nil_left_iff]
    exact eq_comm
  | cons x xs ih =>
    rw [List.mapM_cons, bind_eq_ok_iff, List.forall₂_cons_left_iff]
    refine ⟨?_, ?_⟩
    · rintro ⟨y, hy, h⟩
      obtain ⟨zs, hzs, h⟩ := bind_eq_ok_iff.mp h
      exact ⟨y, zs, hy, ih.mp hzs, (pure_eq_ok_iff.mp h).symm⟩
    · rintro ⟨y, zs, hy, hzs, rfl⟩
      exact ⟨y, hy, bind_ok (ih.mpr hzs) rfl⟩

/-- Each result came from a step. -/
theorem exists_of_mem_right {δ : Type*} {R : α → δ → Prop} {xs : List α} {ys : List δ}
    (h : List.Forall₂ R xs ys) {y : δ} (hy : y ∈ ys) : ∃ x ∈ xs, R x y := by
  induction h with
  | nil => simp at hy
  | @cons x y' xs ys hxy _ ih =>
    rcases List.mem_cons.mp hy with rfl | hy
    · exact ⟨x, List.mem_cons_self, hxy⟩
    · obtain ⟨x', hx', hR⟩ := ih hy
      exact ⟨x', List.mem_cons_of_mem x hx', hR⟩

/-- Each step left a result. -/
theorem exists_of_mem_left {δ : Type*} {R : α → δ → Prop} {xs : List α} {ys : List δ}
    (h : List.Forall₂ R xs ys) {x : α} (hx : x ∈ xs) : ∃ y ∈ ys, R x y :=
  exists_of_mem_right h.flip hx

/-- Two loops in step, one over the other's results. -/
theorem forall₂_comp {δ ζ : Type*} {R : α → δ → Prop} {S : δ → ζ → Prop} {T : α → ζ → Prop}
    (hRS : ∀ x y z, R x y → S y z → T x z) {xs : List α} {ys : List δ} {zs : List ζ}
    (hR : List.Forall₂ R xs ys) (hS : List.Forall₂ S ys zs) : List.Forall₂ T xs zs := by
  induction hR generalizing zs with
  | nil =>
    rw [List.forall₂_nil_left_iff] at hS
    rw [hS]
    exact .nil
  | @cons x y xs ys hxy _ ih =>
    obtain ⟨z, zs', hyz, hrest, rfl⟩ := List.forall₂_cons_left_iff.mp hS
    exact .cons (hRS x y z hxy hyz) (ih hrest)

/-- A loop each of whose steps goes on reaches its end. -/
theorem exists_mapM {f : α → Except ε β} {xs : List α} (h : ∀ x ∈ xs, ∃ y, f x = .ok y) :
    ∃ ys, xs.mapM f = .ok ys := by
  induction xs with
  | nil => exact ⟨[], rfl⟩
  | cons x xs ih =>
    obtain ⟨y, hy⟩ := h x List.mem_cons_self
    obtain ⟨ys, hys⟩ := ih fun z hz => h z (List.mem_cons_of_mem x hz)
    exact ⟨y :: ys, by rw [mapM_eq_ok_iff] at hys ⊢; exact .cons hy hys⟩

/-- What a loop collects is determined by what its steps contribute. -/
theorem flatMap_of_mapM {δ : Type*} {f : α → Except ε β} {xs : List α} {ys : List β}
    (h : xs.mapM f = .ok ys) {g : α → List δ} {k : β → List δ}
    (hstep : ∀ x ∈ xs, ∀ y, f x = .ok y → k y = g x) : ys.flatMap k = xs.flatMap g := by
  rw [mapM_eq_ok_iff] at h
  induction h with
  | nil => rfl
  | @cons x y xs ys hxy _ ih =>
    rw [List.flatMap_cons, List.flatMap_cons, hstep x List.mem_cons_self y hxy,
      ih fun z hz => hstep z (List.mem_cons_of_mem x hz)]

end Outcome
