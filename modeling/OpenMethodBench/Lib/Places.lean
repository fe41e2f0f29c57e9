import OpenMethodBench.Lib.Slicing

/-! Straight-line programs whose instructions may write several places: registers, and memory
as one more. Which writes reach given registers, and when a backward analysis of the registers
alone keeps all of them. -/

namespace Places

open DefUse

variable {R : Type*}

/-- What an instruction writes: each place (`none` is memory) with those its new value is
computed from. -/
abbrev Writes (R : Type*) := List (Option R × List (Option R))

/-- Position `i` is the last before position `k` that sets the register `r` and nothing else. -/
def SetBefore (p : List (Writes R)) (r : R) (k i : ℕ) : Prop :=
  i < k ∧ (∃ us, p[i]? = some [(some r, us)]) ∧
    ∀ j, i < j → j < k → ∀ us, p[j]? ≠ some [(some r, us)]

section SetBefore

variable {p : List (Writes R)} {r : R} {k : ℕ}

theorem SetBefore.cons {i : ℕ} (h : SetBefore p r k i) (x : Writes R) :
    SetBefore (x :: p) r (k + 1) (i + 1) := by
  obtain ⟨hik, hset, hbetween⟩ := h
  refine ⟨by omega, hset, fun j hij hjk us => ?_⟩
  obtain ⟨j, rfl⟩ : ∃ m, j = m + 1 := ⟨j - 1, by omega⟩
  exact hbetween j (by omega) (by omega) us

theorem setBefore_zero {us : List (Option R)}
    (h : ∀ j < k, ∀ us, p[j]? ≠ some [(some r, us)]) :
    SetBefore ([(some r, us)] :: p) r (k + 1) 0 := by
  refine ⟨Nat.succ_pos k, ⟨us, rfl⟩, fun j hj hjk vs => ?_⟩
  obtain ⟨j, rfl⟩ : ∃ m, j = m + 1 := ⟨j - 1, by omega⟩
  exact h j (by omega) vs

end SetBefore

variable [DecidableEq R]

/-- The places read before a program whose exit reads `roots`. -/
def live (roots : List R) : List (Writes R) → List (Option R)
  | [] => roots.map some
  | x :: p =>
    (x.filter fun e => e.1 ∈ live roots p).flatMap Prod.snd ++
      (live roots p).filter fun r => r ∉ x.map Prod.fst

/-- Something that position `i` writes reaches the roots. -/
def Reaches (roots : List R) (p : List (Writes R)) (i : ℕ) : Prop :=
  ∃ x, p[i]? = some x ∧ ∃ e ∈ x, e.1 ∈ live roots (p.drop (i + 1))

section Live

variable {roots : List R} {x : Writes R} {p : List (Writes R)}

theorem mem_live_cons {r : Option R} :
    r ∈ live roots (x :: p) ↔
      (∃ e ∈ x, e.1 ∈ live roots p ∧ r ∈ e.2) ∨ r ∈ live roots p ∧ ∀ e ∈ x, e.1 ≠ r := by
  rw [live, List.mem_append, List.mem_flatMap, List.mem_filter]
  simp only [List.mem_filter, decide_eq_true_eq, List.mem_map, not_exists, not_and, and_assoc]

@[simp] theorem reaches_zero : Reaches roots (x :: p) 0 ↔ ∃ e ∈ x, e.1 ∈ live roots p := by
  simp [Reaches]

@[simp] theorem reaches_succ {i : ℕ} : Reaches roots (x :: p) (i + 1) ↔ Reaches roots p i := by
  simp [Reaches]

theorem not_reaches_nil (i : ℕ) : ¬ Reaches roots [] i := fun ⟨x, hx, _⟩ => absurd hx (by simp)

theorem Reaches.lt_length {i : ℕ} (h : Reaches roots p i) : i < p.length := by
  obtain ⟨x, hx, -⟩ := h
  exact (List.getElem?_eq_some_iff.mp hx).1

end Live

/-! ## Running a slice -/

section Run

variable {V M : Type*}

omit [DecidableEq R] in
/-- Two states hold the same in a place. -/
def Same (s t : State R V M) : Option R → Prop
  | some r => s.regs r = t.regs r
  | none => s.mem = t.mem

omit [DecidableEq R] in
theorem Same.refl (s : State R V M) (r : Option R) : Same s s r := by
  cases r <;> rfl

omit [DecidableEq R] in
theorem Same.trans {s t u : State R V M} {r : Option R} (h : Same s t r) (h' : Same t u r) :
    Same s u r := by
  cases r
  · exact Eq.trans h h'
  · exact Eq.trans h h'

omit [DecidableEq R] in
theorem Same.symm {s t : State R V M} {r : Option R} (h : Same s t r) : Same t s r := by
  cases r
  · exact Eq.symm h
  · exact Eq.symm h

omit [DecidableEq R] in
/-- The step writes what `x` says, from what `x` says, and nothing else. -/
structure Performs (f : State R V M → State R V M) (x : Writes R) : Prop where
  frame : ∀ s r, (∀ e ∈ x, e.1 ≠ r) → Same (f s) s r
  write : ∀ e ∈ x, ∀ s t, (∀ r ∈ e.2, Same s t r) → Same (f s) (f t) e.1

variable {roots : List R} {x : Writes R} {p : List (Writes R)} {f : State R V M → State R V M}
  {s t : State R V M}

/-- One step on both sides. -/
theorem same_step (hf : Performs f x) (h : ∀ r ∈ live roots (x :: p), Same s t r) :
    ∀ r ∈ live roots p, Same (f s) (f t) r := by
  intro r hr
  by_cases hw : ∀ e ∈ x, e.1 ≠ r
  · have hkept := h r (mem_live_cons.mpr (Or.inr ⟨hr, hw⟩))
    exact ((hf.frame s r hw).trans hkept).trans (hf.frame t r hw).symm
  · simp only [ne_eq, not_forall, not_not] at hw
    obtain ⟨e, he, rfl⟩ := hw
    exact hf.write e he s t fun r hr' => h r (mem_live_cons.mpr (Or.inl ⟨e, he, hr, hr'⟩))

/-- A step nothing of which reaches the roots, on the left alone. -/
theorem same_dropped (hf : Performs f x) (hx : ¬ ∃ e ∈ x, e.1 ∈ live roots p)
    (h : ∀ r ∈ live roots (x :: p), Same s t r) : ∀ r ∈ live roots p, Same (f s) t r := by
  intro r hr
  have hw : ∀ e ∈ x, e.1 ≠ r := fun e he heq => hx ⟨e, he, heq ▸ hr⟩
  exact (hf.frame s r hw).trans (h r (mem_live_cons.mpr (Or.inr ⟨hr, hw⟩)))

/-- A slice that drops nothing that reaches the roots leaves the roots as the whole program
does. -/
theorem same_run {steps : List (State R V M → State R V M)}
    (hp : List.Forall₂ (fun x f => Performs f x) p steps) (keep : ℕ → Bool)
    (hkeep : ∀ i, Reaches roots p i → keep i = true) (h : ∀ r ∈ live roots p, Same s t r) :
    ∀ r ∈ roots, (run steps s).regs r = (run (kept keep steps) t).regs r := by
  induction hp generalizing keep s t with
  | nil => exact fun r hr => h (some r) (List.mem_map_of_mem hr)
  | @cons x f p steps hf hp ih =>
    simp only [kept, run, List.foldl_cons]
    have hrest : ∀ i, Reaches roots p i → keep (i + 1) = true := fun i hi =>
      hkeep (i + 1) (reaches_succ.mpr hi)
    split_ifs with hk
    · exact ih _ hrest (same_step hf h)
    · exact ih _ hrest (same_dropped hf (fun hm => hk (hkeep 0 (reaches_zero.mpr hm))) h)

end Run

/-! ## A view of the registers alone -/

/-- What an analysis of the registers makes of an instruction: a write of memory it may see and
keep, or miss; of one that also moves the register `sp` it need not see the move. -/
inductive Views (sp : R) : Writes R → Effect R → Prop
  | define {d : R} {us : List (Option R)} {u : List R} : (∀ r, some r ∈ us → r ∈ u) →
      Views sp [(some d, us)] (.define d u)
  | store {us : List (Option R)} {u : List R} : none ∈ us → (∀ r, some r ∈ us → r ∈ u) →
      Views sp [(none, us)] (.keep u)
  | push {us : List (Option R)} {u : List R} : none ∈ us → some sp ∈ us →
      (∀ r, some r ∈ us → r = sp ∨ r ∈ u) → Views sp [(none, us), (some sp, [some sp])] (.keep u)
  | hidden {us : List (Option R)} : none ∈ us → Views sp [(none, us)] .skip
  | idle {y : Effect R} : y.dst = none → Views sp [] y

section Views

variable {sp : R} {A C : List R} {p : List (Writes R)} {q : List (Effect R)}

/-- Memory reaches the roots through a load that does. -/
theorem mem_live_memory_iff (h : List.Forall₂ (Views sp) p q) :
    none ∈ live A p ↔ ∃ j d us, p[j]? = some [(some d, us)] ∧ none ∈ us ∧ Reaches A p j := by
  induction h with
  | nil => simp [live, not_reaches_nil]
  | @cons x y p q hxy _ ih =>
    have hlater : none ∈ live A p → ∃ j d us, (x :: p)[j]? = some [(some d, us)] ∧ none ∈ us ∧
        Reaches A (x :: p) j := by
      intro hr
      obtain ⟨j, d, us, hj, hus, hreach⟩ := ih.mp hr
      exact ⟨j + 1, d, us, hj, hus, reaches_succ.mpr hreach⟩
    rw [mem_live_cons]
    constructor
    · rintro (⟨e, he, hlive, hmem⟩ | ⟨hr, -⟩)
      · cases hxy with
        | @define d us u _ =>
          obtain rfl := List.mem_singleton.mp he
          exact ⟨0, d, us, rfl, hmem, reaches_zero.mpr ⟨_, he, hlive⟩⟩
        | store _ _ =>
          obtain rfl := List.mem_singleton.mp he
          exact hlater hlive
        | hidden _ =>
          obtain rfl := List.mem_singleton.mp he
          exact hlater hlive
        | push _ _ _ =>
          simp only [List.mem_cons, List.not_mem_nil, or_false] at he
          rcases he with rfl | rfl
          · exact hlater hlive
          · exact absurd hmem (by simp)
        | idle _ => exact absurd he List.not_mem_nil
      · exact hlater hr
    · rintro ⟨j, d, us, hj, hus, hreach⟩
      cases j with
      | zero =>
        obtain rfl := Option.some.inj hj
        obtain ⟨e, he, hlive⟩ := reaches_zero.mp hreach
        obtain rfl := List.mem_singleton.mp he
        exact Or.inl ⟨_, he, hlive, hus⟩
      | succ j =>
        have hr := ih.mpr ⟨j, d, us, hj, hus, reaches_succ.mp hreach⟩
        by_cases hw : ∀ e ∈ x, e.1 ≠ none
        · exact Or.inr ⟨hr, hw⟩
        · simp only [ne_eq, not_forall, not_not] at hw
          obtain ⟨e, he, hmem⟩ := hw
          refine Or.inl ⟨e, he, hmem ▸ hr, ?_⟩
          cases hxy with
          | define _ =>
            obtain rfl := List.mem_singleton.mp he
            exact absurd hmem (by simp)
          | store hus _ => exact List.mem_singleton.mp he ▸ hus
          | hidden hus => exact List.mem_singleton.mp he ▸ hus
          | push hus _ _ =>
            simp only [List.mem_cons, List.not_mem_nil, or_false] at he
            rcases he with rfl | rfl
            · exact hus
            · exact absurd hmem (by simp)
          | idle _ => exact absurd he List.not_mem_nil

/-- What an analysis of the registers has to keep for all that reaches `A`: the last setting of
each root, that of `sp` before a push whose memory is read later; and no write of memory that it
misses may be read later. -/
structure Suffices (sp : R) (A C : List R) (p : List (Writes R)) (q : List (Effect R)) : Prop where
  roots : ∀ r ∈ A, ∀ i, SetBefore p r p.length i → DefUse.Reaches C q i
  pushes : ∀ k us, p[k]? = some [(none, us), (some sp, [some sp])] →
    none ∈ live A (p.drop (k + 1)) → ∀ i, SetBefore p sp k i → DefUse.Reaches C q i
  hidden : ∀ k us, p[k]? = some [(none, us)] → q[k]? = some .skip → none ∉ live A (p.drop (k + 1))

theorem Suffices.tail {x : Writes R} {y : Effect R} (h : Suffices sp A C (x :: p) (y :: q)) :
    Suffices sp A C p q where
  roots r hr i hi := h.roots r hr (i + 1) (hi.cons x)
  pushes k us hk hlive i hi := h.pushes (k + 1) us hk hlive (i + 1) (hi.cons x)
  hidden k us hk hq := h.hidden (k + 1) us hk hq

/-- Where that is kept, a register live for `A` is live in the view, or holds at the exit what it
holds here, or is `sp` and only pushed on before a push whose memory is read. -/
theorem live_of_suffices (hsp : sp ∉ A) (h : List.Forall₂ (Views sp) p q)
    (hs : Suffices sp A C p q) :
    (∀ r, some r ∈ live A p → r ∈ DefUse.live C q ∨
      (r ∈ A ∧ ∀ j < p.length, ∀ us, p[j]? ≠ some [(some r, us)]) ∨
      (r = sp ∧ ∃ k us, p[k]? = some [(none, us), (some sp, [some sp])] ∧
        none ∈ live A (p.drop (k + 1)) ∧ ∀ j < k, ∀ us, p[j]? ≠ some [(some sp, us)])) ∧
      ∀ i, Reaches A p i → DefUse.Reaches C q i := by
  induction h with
  | nil =>
    refine ⟨fun r hr => Or.inr (Or.inl ⟨?_, by simp⟩), fun i hi => absurd hi (not_reaches_nil i)⟩
    simpa [live] using hr
  | @cons x y p q hxy hpq ih =>
    obtain ⟨hlive, hreach⟩ := ih hs.tail
    -- what comes first matters in the view where something it writes is live
    have hhead : (∃ e ∈ x, e.1 ∈ live A p) → y.Matters (DefUse.live C q) := by
      rintro ⟨e, he, hr⟩
      cases hxy with
      | @define d us u _ =>
        obtain rfl := List.mem_singleton.mp he
        rcases hlive d hr with hd | ⟨hd, hnone⟩ | ⟨rfl, k, vs, hk, hmem, hnone⟩
        · exact hd
        · exact hs.roots d hd 0 (setBefore_zero hnone)
        · exact hs.pushes (k + 1) vs hk hmem 0 (setBefore_zero hnone)
      | store _ _ => trivial
      | push _ _ _ => trivial
      | @hidden us _ =>
        obtain rfl := List.mem_singleton.mp he
        exact absurd hr (hs.hidden 0 us rfl rfl)
      | idle _ => exact absurd he List.not_mem_nil
    refine ⟨fun r hr => ?_, fun i hi => ?_⟩
    · rw [DefUse.mem_live_cons]
      rcases mem_live_cons.mp hr with ⟨e, he, hel, hu⟩ | ⟨hr, hw⟩
      · have hy := hhead ⟨e, he, hel⟩
        cases hxy with
        | define huses =>
          obtain rfl := List.mem_singleton.mp he
          exact Or.inl (Or.inl ⟨hy, huses r hu⟩)
        | store _ huses =>
          obtain rfl := List.mem_singleton.mp he
          exact Or.inl (Or.inl ⟨hy, huses r hu⟩)
        | @push us u _ _ huses =>
          simp only [List.mem_cons, List.not_mem_nil, or_false] at he
          rcases he with rfl | rfl
          · rcases huses r hu with rfl | hu
            · exact Or.inr (Or.inr ⟨rfl, 0, us, rfl, hel, by simp⟩)
            · exact Or.inl (Or.inl ⟨hy, hu⟩)
          · obtain rfl : r = sp := by simpa using hu
            rcases hlive r hel with hd | ⟨hd, -⟩ | ⟨-, k, vs, hk, hmem, hnone⟩
            · exact Or.inl (Or.inr ⟨hd, by simp [Effect.dst]⟩)
            · exact absurd hd hsp
            · refine Or.inr (Or.inr ⟨rfl, k + 1, vs, hk, hmem, fun j hj ws => ?_⟩)
              cases j with
              | zero => simp
              | succ j => exact hnone j (by omega) ws
        | hidden _ => exact absurd hy id
        | idle _ => exact absurd he List.not_mem_nil
      · -- a register the instruction does not write
        have hdst : y.dst ≠ some r := by
          cases hxy with
          | define _ =>
            simp only [List.mem_singleton, forall_eq, ne_eq, Option.some.injEq] at hw
            simpa [Effect.dst] using hw
          | store _ _ => simp [Effect.dst]
          | push _ _ _ => simp [Effect.dst]
          | hidden _ => simp [Effect.dst]
          | idle hy => simp [hy]
        have hfirst : ∀ us, x ≠ [(some r, us)] := by
          rintro us rfl
          exact hw _ List.mem_cons_self rfl
        rcases hlive r hr with hd | ⟨hd, hnone⟩ | ⟨rfl, k, vs, hk, hmem, hnone⟩
        · exact Or.inl (Or.inr ⟨hd, hdst⟩)
        · refine Or.inr (Or.inl ⟨hd, fun j hj us => ?_⟩)
          cases j with
          | zero => simpa using hfirst us
          | succ j => exact hnone j (by simpa using hj) us
        · refine Or.inr (Or.inr ⟨rfl, k + 1, vs, hk, hmem, fun j hj us => ?_⟩)
          cases j with
          | zero => simpa using hfirst us
          | succ j => exact hnone j (by omega) us
    · cases i with
      | zero => exact hhead (reaches_zero.mp hi)
      | succ i => exact hreach i (reaches_succ.mp hi)

/-- A register that is live behind a stretch that never sets it alone is live before it. -/
theorem mem_live_of_not_set (h : List.Forall₂ (Views sp) p q) {r : R} {k : ℕ}
    (hr : some r ∈ live A (p.drop k)) (hnone : ∀ j < k, ∀ us, p[j]? ≠ some [(some r, us)]) :
    some r ∈ live A p := by
  induction h generalizing k with
  | nil => simpa using hr
  | @cons x y p q hxy _ ih =>
    rcases k with - | k
    · exact hr
    have hlater : some r ∈ live A p := ih hr fun j hj us => hnone (j + 1) (by omega) us
    rw [mem_live_cons]
    cases hxy with
    | @define d us u _ =>
      refine Or.inr ⟨hlater, ?_⟩
      have hd := hnone 0 (Nat.succ_pos k) us
      simpa using hd
    | store _ _ => exact Or.inr ⟨hlater, by simp⟩
    | hidden _ => exact Or.inr ⟨hlater, by simp⟩
    | idle _ => exact Or.inr ⟨hlater, by simp⟩
    | push _ _ _ =>
      by_cases hsp : r = sp
      · exact Or.inl ⟨(some sp, [some sp]), by simp, hsp ▸ hlater, by simp [hsp]⟩
      · exact Or.inr ⟨hlater, by simp [Ne.symm hsp]⟩

/-- The view keeps all that reaches the roots exactly where it keeps what suffices. -/
theorem reaches_le_iff_suffices (hsp : sp ∉ A) (h : List.Forall₂ (Views sp) p q) :
    (∀ i, Reaches A p i → DefUse.Reaches C q i) ↔ Suffices sp A C p q := by
  refine ⟨fun hle => ⟨fun r hr i hi => ?_, fun k us hk hmem i hi => ?_, fun k us hk hq hmem => ?_⟩,
    fun hs => (live_of_suffices hsp h hs).2⟩
  · obtain ⟨-, ⟨us, hset⟩, hnone⟩ := hi
    have hexit : some r ∈ live A (p.drop (i + 1)) := by
      refine mem_live_of_not_set (k := p.length) (List.forall₂_drop (i + 1) h) ?_ fun j hj vs => ?_
      · rw [List.drop_drop, List.drop_of_length_le (by omega)]
        exact List.mem_map_of_mem hr
      · rw [List.getElem?_drop]
        by_cases hlt : i + 1 + j < p.length
        · exact hnone _ (by omega) hlt vs
        · rw [List.getElem?_eq_none (by omega)]
          simp
    exact hle i ⟨_, hset, _, List.mem_cons_self, hexit⟩
  · obtain ⟨hik, ⟨vs, hset⟩, hnone⟩ := hi
    have hpush : some sp ∈ live A (p.drop k) := by
      have hlt := (List.getElem?_eq_some_iff.mp hk).1
      obtain ⟨y, -, hxy⟩ := h.exists_right hk
      have hstack : some sp ∈ us := by
        cases hxy with
        | push _ hstack _ => exact hstack
      rw [List.drop_eq_getElem_cons hlt, (List.getElem?_eq_some_iff.mp hk).2, mem_live_cons]
      exact Or.inl ⟨_, List.mem_cons_self, hmem, hstack⟩
    have hlive : some sp ∈ live A (p.drop (i + 1)) := by
      refine mem_live_of_not_set (k := k - (i + 1)) (List.forall₂_drop (i + 1) h) ?_ fun j hj ws => ?_
      · rw [List.drop_drop, show i + 1 + (k - (i + 1)) = k by omega]
        exact hpush
      · rw [List.getElem?_drop]
        exact hnone _ (by omega) (by omega) ws
    exact hle i ⟨_, hset, _, List.mem_cons_self, hlive⟩
  · exact not_reaches_skip hq (hle k ⟨_, hk, _, List.mem_cons_self, hmem⟩)

end Views

end Places
