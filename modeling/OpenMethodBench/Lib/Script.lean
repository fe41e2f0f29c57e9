import Mathlib.Tactic.Common
import OpenMethodBench.Lib.Text

/-! Scripts that write diagnostics as they go and may end early. -/

/-- A run: the lines written to stderr, and how it ended. -/
structure Script (ε : Type*) (α : Type*) where
  err : List Text
  res : Except ε α

namespace Script

universe u v

variable {ε : Type u} {α β : Type v}

protected def pure (a : α) : Script ε α := ⟨[], .ok a⟩

protected def bind (x : Script ε α) (f : α → Script ε β) : Script ε β :=
  match x.res with
  | .ok a => ⟨x.err ++ (f a).err, (f a).res⟩
  | .error e => ⟨x.err, .error e⟩

instance : Monad (Script ε) where
  pure := Script.pure
  bind := Script.bind

/-- `print(line, file=sys.stderr)`. -/
def warn (line : Text) : Script ε Unit := ⟨[line], .ok ()⟩

/-- A step that writes nothing. -/
def ofExcept (x : Except ε α) : Script ε α := ⟨[], x⟩

instance : MonadLift (Except ε) (Script ε) := ⟨ofExcept⟩

/-- Nothing was written to stderr. -/
def Quiet (x : Script ε α) : Prop := x.err = []

theorem quiet_ofExcept (x : Except ε α) : Quiet (ofExcept x) := rfl

theorem Quiet.bind {x : Script ε α} {f : α → Script ε β} (hx : Quiet x) (hf : ∀ a, Quiet (f a)) :
    Quiet (x >>= f) := by
  change Quiet (Script.bind x f)
  rw [Quiet, Script.bind]
  rcases x.res with e | a
  · exact hx
  · change x.err ++ (f a).err = []
    rw [hx, hf a]
    rfl

@[simp] theorem res_ofExcept (x : Except ε α) : (ofExcept x).res = x := rfl

@[simp] theorem res_bind (x : Script ε α) (f : α → Script ε β) :
    (x >>= f).res = x.res >>= fun a => (f a).res := by
  change (Script.bind x f).res = _
  rw [Script.bind]
  rcases x.res with e | a <;> rfl

theorem ofExcept_ok_bind (a : α) (f : α → Script ε β) : ofExcept (.ok a) >>= f = f a := rfl

theorem err_bind_ok {x : Script ε α} {f : α → Script ε β} {a : α} (h : x.res = .ok a) :
    (x >>= f).err = x.err ++ (f a).err := by
  change (Script.bind x f).err = _
  rw [Script.bind, h]

/-- A loop whose every turn goes on writes what its turns write. -/
theorem foldlM_writes {σ : Type v} {step : σ → α → Script ε σ} {log : α → List Text}
    {xs : List α} (h : ∀ s, ∀ x ∈ xs, (∃ s', (step s x).res = .ok s') ∧ (step s x).err = log x)
    (s : σ) :
    (∃ s', (xs.foldlM step s).res = .ok s') ∧ (xs.foldlM step s).err = xs.flatMap log := by
  induction xs generalizing s with
  | nil => exact ⟨⟨s, rfl⟩, rfl⟩
  | cons x xs ih =>
    obtain ⟨⟨s', hs'⟩, hx⟩ := h s x List.mem_cons_self
    obtain ⟨⟨s'', hs''⟩, hxs⟩ := ih (fun t y hy => h t y (List.mem_cons_of_mem x hy)) s'
    rw [List.foldlM_cons, res_bind, err_bind_ok hs', hs', hx, hxs, List.flatMap_cons]
    exact ⟨⟨s'', hs''⟩, rfl⟩

end Script
