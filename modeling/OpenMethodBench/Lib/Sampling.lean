import Mathlib.Data.Set.Function
import Mathlib.Logic.Nontrivial.Defs

/-! Checking a function against an oracle at sampled points. The function sees a
point only through its class, so a passing check settles the sampled classes, and
settles no other. -/

namespace Sampling

variable {ι κ β : Type*} (cls : ι → κ) (S : Set ι)

/-- `f` agrees with the oracle `g` at every sample. -/
def Passes (f g : κ → β) : Prop := ∀ i ∈ S, f (cls i) = g (cls i)

theorem passes_iff_eqOn (f g : κ → β) : Passes cls S f g ↔ Set.EqOn f g (cls '' S) := by
  simp only [Passes, Set.EqOn, Set.forall_mem_image]

/-- A deviation at a class no sample has goes unnoticed. -/
theorem passes_update [DecidableEq κ] (g : κ → β) {k : κ} (hk : k ∉ cls '' S) (b : β) :
    Passes cls S (Function.update g k b) g := by
  intro i hi
  apply Function.update_of_ne
  rintro rfl
  exact hk (Set.mem_image_of_mem cls hi)

/-- A passing check forces the oracle's value exactly on the sampled classes. -/
theorem forced_iff [Nontrivial β] (g : κ → β) (k : κ) :
    (∀ f, Passes cls S f g → f k = g k) ↔ k ∈ cls '' S := by
  classical
  constructor
  · intro h
    by_contra hk
    obtain ⟨b, hb⟩ := exists_ne (g k)
    have := h _ (passes_update cls S g hk b)
    rw [Function.update_self] at this
    exact hb this
  · intro hk f hf
    exact (passes_iff_eqOn cls S f g).mp hf hk

end Sampling
