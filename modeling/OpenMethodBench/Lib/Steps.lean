import Mathlib

/-! Scripts whose steps may fail: what a run leaves that fails, or is interrupted, at any of them. -/

namespace Steps

universe u v w

variable {σ : Type u} {α : Type v} {β : Type w} (step : σ → α → Option σ)

/-- The state after all of the steps, if none of them fails. -/
def run : σ → List α → Option σ
  | s, [] => some s
  | s, a :: as => (step s a).bind fun t => run t as

/-- A state in which a run may be left, after some of its steps. -/
inductive Leaves : σ → List α → σ → Prop
  | here (s : σ) (as : List α) : Leaves s as s
  | next {s t u : σ} {a : α} {as : List α} : step s a = some t → Leaves t as u → Leaves s (a :: as) u

variable {step} {s t u : σ} {a : α} {as bs : List α}

@[simp] theorem run_nil : run step s [] = some s := rfl

theorem run_cons_iff : run step s (a :: as) = some u ↔ ∃ t, step s a = some t ∧ run step t as = some u := by
  rw [run, Option.bind_eq_some_iff]

theorem run_append_iff :
    run step s (as ++ bs) = some u ↔ ∃ t, run step s as = some t ∧ run step t bs = some u := by
  induction as generalizing s with
  | nil => simp
  | cons a as ih =>
    rw [List.cons_append, run_cons_iff]
    constructor
    · rintro ⟨t, ht, h⟩
      obtain ⟨m, hm, h⟩ := ih.mp h
      exact ⟨m, run_cons_iff.mpr ⟨t, ht, hm⟩, h⟩
    · rintro ⟨m, hm, h⟩
      obtain ⟨t, ht, hm⟩ := run_cons_iff.mp hm
      exact ⟨t, ht, ih.mpr ⟨m, hm, h⟩⟩

theorem leaves_nil_iff : Leaves step s [] t ↔ t = s := by
  refine ⟨fun h => ?_, fun h => ?_⟩
  · cases h
    rfl
  · rw [h]
    exact .here s []

theorem leaves_cons_iff :
    Leaves step s (a :: as) u ↔ u = s ∨ ∃ t, step s a = some t ∧ Leaves step t as u := by
  refine ⟨fun h => ?_, fun h => ?_⟩
  · cases h with
    | here => exact Or.inl rfl
    | next hstep h => exact Or.inr ⟨_, hstep, h⟩
  · rcases h with rfl | ⟨t, hstep, h⟩
    · exact .here u (a :: as)
    · exact .next hstep h

/-- A run whose steps never fail comes to its end. -/
theorem exists_run (h : ∀ a ∈ as, ∀ s, ∃ t, step s a = some t) : ∃ t, run step s as = some t := by
  induction as generalizing s with
  | nil => exact ⟨s, rfl⟩
  | cons a as ih =>
    obtain ⟨t, ht⟩ := h a List.mem_cons_self s
    obtain ⟨u, hu⟩ := ih (s := t) fun b hb => h b (List.mem_cons_of_mem a hb)
    exact ⟨u, run_cons_iff.mpr ⟨t, ht, hu⟩⟩

theorem leaves_of_run (h : run step s as = some t) : Leaves step s as t := by
  induction as generalizing s with
  | nil =>
    obtain rfl := Option.some.inj h
    exact .here s []
  | cons a as ih =>
    obtain ⟨m, hm, h⟩ := run_cons_iff.mp h
    exact .next hm (ih h)

/-- A run is left in its first part, or it has gone through it. -/
theorem leaves_append_iff : Leaves step s (as ++ bs) u ↔
    Leaves step s as u ∨ ∃ t, run step s as = some t ∧ Leaves step t bs u := by
  induction as generalizing s with
  | nil =>
    refine ⟨fun h => Or.inr ⟨s, rfl, h⟩, fun h => ?_⟩
    rcases h with h | ⟨t, ht, h⟩
    · rw [leaves_nil_iff.mp h]
      exact .here s bs
    · rwa [Option.some.inj ht]
  | cons a as ih =>
    rw [List.cons_append, leaves_cons_iff, leaves_cons_iff]
    constructor
    · rintro (rfl | ⟨t, ht, h⟩)
      · exact Or.inl (Or.inl rfl)
      · rcases ih.mp h with h | ⟨m, hm, h⟩
        · exact Or.inl (Or.inr ⟨t, ht, h⟩)
        · exact Or.inr ⟨m, run_cons_iff.mpr ⟨t, ht, hm⟩, h⟩
    · rintro ((rfl | ⟨t, ht, h⟩) | ⟨m, hm, h⟩)
      · exact Or.inl rfl
      · exact Or.inr ⟨t, ht, ih.mpr (Or.inl h)⟩
      · obtain ⟨t, ht, hm⟩ := run_cons_iff.mp hm
        exact Or.inr ⟨t, ht, ih.mpr (Or.inr ⟨m, hm, h⟩)⟩

/-- What every step keeps holds wherever a run is left. -/
theorem Leaves.invariant {P : σ → Prop} (hleft : Leaves step s as t)
    (hstep : ∀ a ∈ as, ∀ s t, step s a = some t → P s → P t) (hs : P s) : P t := by
  induction hleft with
  | here => exact hs
  | next ha _ ih =>
    exact ih (fun b hb => hstep b (List.mem_cons_of_mem _ hb)) (hstep _ List.mem_cons_self _ _ ha hs)

/-! ## Tests -/

section Tests

variable {ok : α → Prop}

/-- Steps that only test go on exactly when all of the tests hold. -/
theorem run_tests_iff (h : ∀ a ∈ as, ∀ t, step s a = some t ↔ ok a ∧ t = s) :
    run step s as = some t ↔ (∀ a ∈ as, ok a) ∧ t = s := by
  induction as with
  | nil => simp [eq_comm]
  | cons a as ih =>
    have hfirst := h a List.mem_cons_self
    have hrest := ih fun b hb => h b (List.mem_cons_of_mem a hb)
    rw [run_cons_iff, List.forall_mem_cons]
    constructor
    · rintro ⟨m, hm, hrun⟩
      obtain ⟨hok, rfl⟩ := (hfirst m).mp hm
      obtain ⟨hall, hend⟩ := hrest.mp hrun
      exact ⟨⟨hok, hall⟩, hend⟩
    · rintro ⟨⟨hok, hall⟩, hend⟩
      exact ⟨s, (hfirst s).mpr ⟨hok, rfl⟩, hrest.mpr ⟨hall, hend⟩⟩

theorem leaves_tests (h : ∀ a ∈ as, ∀ t, step s a = some t ↔ ok a ∧ t = s)
    (hleft : Leaves step s as t) : t = s := by
  induction as with
  | nil => exact leaves_nil_iff.mp hleft
  | cons a as ih =>
    rcases leaves_cons_iff.mp hleft with rfl | ⟨m, hm, hrest⟩
    · rfl
    · obtain ⟨-, rfl⟩ := (h a List.mem_cons_self m).mp hm
      exact ih (fun b hb => h b (List.mem_cons_of_mem a hb)) hrest

end Tests

/-! ## Loops -/

/-- What the turns of a loop do: from the state after the turns before it, a turn ends exactly
when `ok` holds of it, in the state after it. -/
structure Loop (step : σ → α → Option σ) (body : β → List α) (ok : β → Prop) (after : List β → σ)
    (xs : List β) : Prop where
  turn : ∀ pre x post, xs = pre ++ x :: post → ∀ t,
    run step (after pre) (body x) = some t ↔ ok x ∧ t = after (pre ++ [x])

section Loop

variable {body : β → List α} {ok : β → Prop} {after : List β → σ} {xs : List β}

theorem Loop.tail {x : β} (h : Loop step body ok after (x :: xs)) :
    Loop step body ok (fun pre => after (x :: pre)) xs where
  turn pre y post hxs t := h.turn (x :: pre) y post (by rw [hxs, List.cons_append]) t

theorem Loop.run_iff (h : Loop step body ok after xs) :
    run step (after []) (xs.flatMap body) = some t ↔ (∀ x ∈ xs, ok x) ∧ t = after xs := by
  induction xs generalizing after with
  | nil => simp [eq_comm]
  | cons x xs ih =>
    have hfirst := fun t => h.turn [] x xs rfl t
    rw [List.nil_append] at hfirst
    rw [List.flatMap_cons, run_append_iff, List.forall_mem_cons]
    constructor
    · rintro ⟨m, hm, hrest⟩
      obtain ⟨hok, rfl⟩ := (hfirst m).mp hm
      obtain ⟨hall, hend⟩ := (ih h.tail).mp hrest
      exact ⟨⟨hok, hall⟩, hend⟩
    · rintro ⟨⟨hok, hall⟩, hend⟩
      exact ⟨_, (hfirst _).mpr ⟨hok, rfl⟩, (ih h.tail).mpr ⟨hall, hend⟩⟩

/-- A loop is left after its last turn, or in a turn that the turns before it have let begin. -/
theorem Loop.leaves (h : Loop step body ok after xs)
    (hleft : Leaves step (after []) (xs.flatMap body) t) :
    ((∀ x ∈ xs, ok x) ∧ t = after xs) ∨ ∃ pre x post, xs = pre ++ x :: post ∧
      (∀ y ∈ pre, ok y) ∧ Leaves step (after pre) (body x) t := by
  induction xs generalizing after with
  | nil => exact Or.inl ⟨by simp, leaves_nil_iff.mp hleft⟩
  | cons x xs ih =>
    rw [List.flatMap_cons, leaves_append_iff] at hleft
    rcases hleft with hleft | ⟨m, hm, hleft⟩
    · exact Or.inr ⟨[], x, xs, rfl, by simp, hleft⟩
    · obtain ⟨hok, rfl⟩ := (h.turn [] x xs rfl m).mp hm
      rcases ih h.tail hleft with ⟨hall, hend⟩ | ⟨pre, y, post, hxs, hpre, hleft⟩
      · exact Or.inl ⟨List.forall_mem_cons.mpr ⟨hok, hall⟩, hend⟩
      · exact Or.inr ⟨x :: pre, y, post, by rw [hxs, List.cons_append],
          List.forall_mem_cons.mpr ⟨hok, hpre⟩, hleft⟩

/-- A loop of single steps is left after some of them. -/
theorem Loop.leaves_steps {f : β → α} (h : Loop step (fun x => [f x]) ok after xs)
    (hleft : Leaves step (after []) (xs.map f) t) : ∃ pre, pre <+: xs ∧ t = after pre := by
  rw [List.map_eq_flatMap] at hleft
  rcases h.leaves hleft with ⟨-, hend⟩ | ⟨pre, x, post, hxs, -, hleft⟩
  · exact ⟨xs, List.prefix_rfl, hend⟩
  · rcases leaves_cons_iff.mp hleft with hend | ⟨m, hm, hleft⟩
    · exact ⟨pre, hxs ▸ List.prefix_append pre (x :: post), hend⟩
    · obtain ⟨-, rfl⟩ := (h.turn pre x post hxs m).mp (run_cons_iff.mpr ⟨m, hm, rfl⟩)
      refine ⟨pre ++ [x], ⟨post, ?_⟩, leaves_nil_iff.mp hleft⟩
      rw [hxs, List.append_assoc, List.singleton_append]

end Loop

end Steps
