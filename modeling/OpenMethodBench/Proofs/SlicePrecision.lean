import OpenMethodBench.Proofs.SliceLoop

/-! Precision of the slice. `bookkeeping` takes the three-operand forms for reads of the
register they write, where `chain` takes them for overwrites; a dead value in such a
register is then published as dispatch. -/

namespace OMB

open DefUse

/-- An instruction as `chain` reads it: whatever redefines its register does not read
it, unless through an operand. -/
def Insn.strict (x : Insn) : Effect Text :=
  if x.alwaysKept then .keep x.reads
  else match x.dst with
    | some d => .define d (if x.redefines then x.reads else d :: x.reads)
    | none => .skip

theorem redefines_of_plainMove {x : Insn} (h : plainMoves.contains x.mnem = true) :
    x.redefines = true := by
  have hsub : ∀ m ∈ plainMoves, m ∈ chainMoves := by decide
  have hmem : x.mnem ∈ chainMoves := hsub _ (by simpa using h)
  simp [Insn.redefines, hmem]

/-- The two readings differ on the redefinitions that are no plain moves. -/
theorem strict_coarsens_seen (x : Insn) : Coarsens x.strict x.seen := by
  unfold Insn.strict Insn.seen
  split_ifs with hk hr hm hm
  · exact .same _
  · cases x.dst <;> exact .same _
  · cases x.dst with
    | none => exact .same _
    | some d => exact .reread d _
  · exact absurd (redefines_of_plainMove hm) hr
  · cases x.dst <;> exact .same _

theorem map_strict_coarsens_seen (init : List Insn) :
    List.Forall₂ Coarsens (init.map Insn.strict) (init.map Insn.seen) := by
  rw [List.forall₂_map_left_iff, List.forall₂_map_right_iff]
  exact List.forall₂_same.mpr fun x _ => strict_coarsens_seen x

/-- The registers the instruction at `k` reads; the last one is the call. -/
def readsAt (win : List Insn) (k : ℕ) : List Text :=
  match win[k]? with
  | some x => if k + 1 = win.length then callRoots x else x.strict.uses
  | none => []

/-- The instruction at `i` is the final call, a store, a push or a call, or the final
call or another published instruction reads its register before anything overwrites
that register without reading it. -/
def Justified (win : List Insn) (word i : ℕ) : Prop :=
  i + 1 = win.length ∨ (∃ x, win[i]? = some x ∧ x.alwaysKept = true) ∨
    ∃ x d k, win[i]? = some x ∧ x.dst = some d ∧ i < k ∧ k < win.length ∧
      k ∉ bookkeeping win word ∧ d ∈ readsAt win k ∧
      ∀ m y, i < m → m < k → win[m]? = some y → ¬ y.strict.Overwrites d

section Window

variable {init : List Insn} {call : Insn} {word : ℕ}

theorem getElem?_init {i : ℕ} (h : i < init.length) : (init ++ [call])[i]? = init[i]? :=
  List.getElem?_append_left h

theorem getElem?_call : (init ++ [call])[init.length]? = some call := by simp

theorem readsAt_init {k : ℕ} {x : Insn} (hx : init[k]? = some x) :
    readsAt (init ++ [call]) k = x.strict.uses := by
  have hk : k < init.length := (List.getElem?_eq_some_iff.mp hx).1
  unfold readsAt
  rw [getElem?_init hk, hx]
  simp only [List.length_append, List.length_singleton, Nat.add_right_cancel_iff]
  rw [if_neg (by omega)]

theorem readsAt_call : readsAt (init ++ [call]) init.length = callRoots call := by
  unfold readsAt
  rw [getElem?_call]
  simp

theorem strict_eq_keep_iff {x : Insn} : (∃ u, x.strict = .keep u) ↔ x.alwaysKept = true := by
  unfold Insn.strict
  by_cases hk : x.alwaysKept = true
  · simp [hk]
  · cases x.dst <;> simp [hk]

theorem strict_eq_define_dst {x : Insn} {d : Text} {u : List Text}
    (h : x.strict = .define d u) : x.dst = some d := by
  unfold Insn.strict at h
  split_ifs at h
  all_goals
    cases hd : x.dst with
    | none => rw [hd] at h; simp at h
    | some e => rw [hd] at h; rw [(Effect.define.inj h).1]

theorem strict_eq_define_of_dst {x : Insn} {d : Text} (h : x.dst = some d) :
    ∃ u, x.strict = .define d u := by
  have hk : ¬ x.alwaysKept = true := fun hk => by
    rw [dst_none_of_alwaysKept x hk] at h
    exact absurd h (by simp)
  unfold Insn.strict
  rw [if_neg hk, h]
  exact ⟨_, rfl⟩

/-- A later reader in the window is a reader of the program before the call, or the
call itself at its exit. -/
theorem readAt_iff {i : ℕ} {d : Text} (hi : i < init.length) (K : ℕ → Prop)
    (hcall : K init.length) :
    (∃ k, ReadAt (callRoots call) ((init.map Insn.strict).drop (i + 1))
        (fun k => K (i + 1 + k)) d k) ↔
      ∃ k, i < k ∧ k < (init ++ [call]).length ∧ K k ∧ d ∈ readsAt (init ++ [call]) k ∧
        ∀ m y, i < m → m < k → (init ++ [call])[m]? = some y → ¬ y.strict.Overwrites d := by
  have hbetween : ∀ k, k ≤ init.length →
      ((∀ m < k - (i + 1), ∀ e, ((init.map Insn.strict).drop (i + 1))[m]? = some e →
          ¬ e.Overwrites d) ↔
        ∀ m y, i < m → m < k → (init ++ [call])[m]? = some y → ¬ y.strict.Overwrites d) := by
    intro k hk
    refine ⟨fun h m y him hmk hy => ?_, fun h m hm e he => ?_⟩
    · rw [getElem?_init (by omega)] at hy
      refine h (m - (i + 1)) (by omega) _ ?_
      rw [List.getElem?_drop, List.getElem?_map, show i + 1 + (m - (i + 1)) = m by omega, hy]
      rfl
    · rw [List.getElem?_drop, List.getElem?_map, Option.map_eq_some_iff] at he
      obtain ⟨y, hy, rfl⟩ := he
      exact h (i + 1 + m) y (by omega) (by omega) (by rw [getElem?_init (by omega), hy])
  refine ⟨?_, ?_⟩
  · rintro ⟨k, hk, hover⟩
    refine ⟨i + 1 + k, by omega, ?_⟩
    rcases hk with ⟨hexit, hroot⟩ | ⟨hK, e, he, hr⟩
    · rw [List.length_drop, List.length_map] at hexit
      have hlast : i + 1 + k = init.length := by omega
      rw [← hbetween _ (by omega), show i + 1 + k - (i + 1) = k by omega, hlast, readsAt_call]
      exact ⟨by simp, hcall, hroot, hover⟩
    · rw [List.getElem?_drop, List.getElem?_map, Option.map_eq_some_iff] at he
      obtain ⟨y, hy, rfl⟩ := he
      have hlt : i + 1 + k < init.length := (List.getElem?_eq_some_iff.mp hy).1
      rw [← hbetween _ (by omega), show i + 1 + k - (i + 1) = k by omega, readsAt_init hy]
      exact ⟨by rw [List.length_append]; omega, hK, hr, hover⟩
  · rintro ⟨k, hik, hk, hK, hr, hover⟩
    rw [List.length_append, List.length_singleton] at hk
    rw [← hbetween k (by omega)] at hover
    refine ⟨k - (i + 1), ?_, hover⟩
    by_cases hlast : k = init.length
    · subst hlast
      rw [readsAt_call] at hr
      exact Or.inl ⟨by rw [List.length_drop, List.length_map], hr⟩
    · obtain ⟨y, hy⟩ : ∃ y, init[k]? = some y :=
        ⟨_, List.getElem?_eq_getElem (show k < init.length by omega)⟩
      rw [readsAt_init hy] at hr
      have hshift : i + 1 + (k - (i + 1)) = k := by omega
      refine Or.inr ⟨by simpa only [hshift] using hK, _, ?_, hr⟩
      rw [List.getElem?_drop, List.getElem?_map, hshift, hy]
      rfl

/-- Published instructions before the call are justified exactly when the kept set is
precise for the stricter reading. -/
theorem justified_iff_precise (hpic : picSetup (init ++ [call]) = []) :
    (∀ i < (init ++ [call]).length, i ∉ bookkeeping (init ++ [call]) word →
        Justified (init ++ [call]) word i) ↔
      Precise (callRoots call) (init.map Insn.strict)
        (fun i => Reaches (callRoots call) (init.map Insn.seen) i) := by
  have hlen : (init ++ [call]).length = init.length + 1 := by simp
  have hmem : ∀ i, i ∉ bookkeeping (init ++ [call]) word ↔
      init.length ≤ i ∨ Reaches (callRoots call) (init.map Insn.seen) i := by
    intro i
    rw [mem_bookkeeping_iff hpic, not_and_or, not_lt, not_not]
  have hreader : ∀ {i d}, i < init.length →
      ((∃ k, i < k ∧ k < (init ++ [call]).length ∧ k ∉ bookkeeping (init ++ [call]) word ∧
          d ∈ readsAt (init ++ [call]) k ∧
          ∀ m y, i < m → m < k → (init ++ [call])[m]? = some y → ¬ y.strict.Overwrites d) ↔
        ∃ k, ReadAt (callRoots call) ((init.map Insn.strict).drop (i + 1))
          (fun k => Reaches (callRoots call) (init.map Insn.seen) (i + 1 + k)) d k) := by
    intro i d hi
    rw [← readAt_iff hi (fun k => k ∉ bookkeeping (init ++ [call]) word)
      ((hmem _).mpr (Or.inl le_rfl))]
    refine exists_congr fun k => and_congr (or_congr Iff.rfl ?_) Iff.rfl
    refine and_congr_left fun ⟨x, hx, _⟩ => ?_
    have hlt := (List.getElem?_eq_some_iff.mp hx).1
    rw [List.length_drop, List.length_map] at hlt
    simp only [hmem]
    exact or_iff_right (by omega)
  refine ⟨fun h i hi => ?_, fun h i hi hkept => ?_⟩
  · have hlt : i < init.length := by simpa using hi.lt_length
    rcases h i (by omega) ((hmem i).mpr (Or.inr hi)) with hend | ⟨x, hx, hk⟩ | ⟨x, d, hd⟩
    · omega
    · obtain ⟨u, hu⟩ := strict_eq_keep_iff.mpr hk
      rw [getElem?_init hlt] at hx
      exact Or.inl ⟨u, by rw [List.getElem?_map, hx, Option.map_some, hu]⟩
    · obtain ⟨k, hx, hdst, hrest⟩ := hd
      obtain ⟨u, hu⟩ := strict_eq_define_of_dst hdst
      rw [getElem?_init hlt] at hx
      exact Or.inr ⟨d, u, by rw [List.getElem?_map, hx, Option.map_some, hu],
        (hreader hlt).mp ⟨k, hrest⟩⟩
  · rcases (hmem i).mp hkept with hend | hreach
    · exact Or.inl (by omega)
    · have hlt : i < init.length := by simpa using hreach.lt_length
      rcases h i hreach with ⟨u, hu⟩ | ⟨d, u, hd, hread⟩
      · rw [List.getElem?_map, Option.map_eq_some_iff] at hu
        obtain ⟨x, hx, hxu⟩ := hu
        exact Or.inr (Or.inl ⟨x, by rw [getElem?_init hlt, hx],
          strict_eq_keep_iff.mp ⟨u, hxu⟩⟩)
      · rw [List.getElem?_map, Option.map_eq_some_iff] at hd
        obtain ⟨x, hx, hxd⟩ := hd
        obtain ⟨k, hk⟩ := (hreader hlt).mpr hread
        exact Or.inr (Or.inr ⟨x, d, k, by rw [getElem?_init hlt, hx],
          strict_eq_define_dst hxd, hk⟩)

/-- Nothing dead is published exactly when no dead value sits in a register whose next
write reaches the call and is one `bookkeeping` takes for a read of it: a three-operand
form (or a `pop`) that overwrites the register without reading it. -/
theorem published_justified_iff (init : List Insn) (call : Insn) (word : ℕ)
    (hpic : picSetup (init ++ [call]) = []) :
    (∀ i < (init ++ [call]).length, i ∉ bookkeeping (init ++ [call]) word →
        Justified (init ++ [call]) word i) ↔
      ∀ i, ¬ Stale (callRoots call) (init.map Insn.strict) (init.map Insn.seen) i := by
  have hviews := map_strict_coarsens_seen init
  rw [justified_iff_precise hpic,
    precise_iff_reaches (reaches_mono (List.Subset.refl _)
      (hviews.imp fun _ _ hxy => hxy.covers.widens)),
    reaches_le_iff_not_stale hviews]

end Window

/-- `mov rax,rbx` is published though `shrx` overwrites rax before anything reads it. -/
theorem dead_move_published :
    let win : List Insn := [⟨0, "mov rax,rbx".toList⟩, ⟨3, "shrx rax,rcx,rdx".toList⟩,
      ⟨8, "call rax".toList⟩]
    picSetup win = [] ∧ 0 ∉ bookkeeping win 8 ∧ ¬ Justified win 8 0 := by
  refine ⟨by decide, by decide, ?_⟩
  rintro (h | ⟨x, hx, hk⟩ | ⟨x, d, k, hx, hd, h0, hk, -, hr, hover⟩)
  · revert h
    decide
  · obtain rfl := Option.some.inj hx
    revert hk
    decide
  · obtain rfl := Option.some.inj hx
    have hlast : k = 2 ∨ k = 1 := by
      have : k < 3 := hk
      omega
    rcases hlast with rfl | rfl
    · refine hover 1 _ (by omega) (by omega) rfl ?_
      have : d = "ax".toList := Option.some.inj (hd.symm.trans (by decide))
      subst this
      decide
    · have : d = "ax".toList := Option.some.inj (hd.symm.trans (by decide))
      subst this
      revert hr
      decide

/-- With a plain move in place of the shift, the same instruction is published and justified. -/
theorem moves_published_justified :
    let win : List Insn := [⟨0, "mov rax,rbx".toList⟩, ⟨3, "mov rax,QWORD PTR [rax]".toList⟩,
      ⟨6, "call rax".toList⟩]
    0 ∉ bookkeeping win 8 ∧ ∀ i < win.length, i ∉ bookkeeping win 8 → Justified win 8 i := by
  refine ⟨by decide, (published_justified_iff
    [⟨0, "mov rax,rbx".toList⟩, ⟨3, "mov rax,QWORD PTR [rax]".toList⟩]
    ⟨6, "call rax".toList⟩ 8 (by decide)).mpr ?_⟩
  rintro i ⟨d, u, m, hi, hdead, -⟩
  have hlt : i < 2 := (List.getElem?_eq_some_iff.mp hi).1
  refine hdead ?_
  have hall : ∀ j < 2, Reaches (callRoots ⟨6, "call rax".toList⟩)
      ([⟨0, "mov rax,rbx".toList⟩, ⟨3, "mov rax,QWORD PTR [rax]".toList⟩].map Insn.strict) j := by
    decide
  exact hall i hlt

end OMB
