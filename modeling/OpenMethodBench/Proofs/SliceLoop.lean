import OpenMethodBench.Lib.Slicing
import OpenMethodBench.Spec.Asm

/-! The loop of `bookkeeping` is liveness over its own reading of each instruction:
`needed` holds the live registers, and what the loop keeps is what reaches the call. -/

namespace OMB

open DefUse

/-! ## Recognised registers -/

theorem legacyAt_low {t m : Text} (h : legacyAt t = some m) : ∀ c ∈ m, isLow c = true := by
  unfold legacyAt at h
  split at h
  · rename_i c a b _
    split_ifs at h with hc
    simp only [Bool.and_eq_true, Bool.or_eq_true, beq_iff_eq] at hc
    obtain ⟨⟨hc, ha⟩, hb⟩ := hc
    obtain rfl := Option.some.inj h
    simp only [List.mem_cons, List.not_mem_nil, or_false, isLow]
    rintro x (rfl | rfl | rfl)
    · rcases hc with rfl | rfl <;> rfl
    · simp [ha]
    · simp [hb]
  · simp at h

theorem digits_low {t : Text} : ∀ c ∈ t.takeWhile Char.isDigit, isLow c = true := by
  intro c hc
  have := List.mem_takeWhile_imp hc
  simp [isLow, this]

theorem numberedAt_low {t m : Text} (h : numberedAt t = some m) : ∀ c ∈ m, isLow c = true := by
  cases t with
  | nil => simp [numberedAt] at h
  | cons r t =>
    simp only [numberedAt] at h
    split_ifs at h with hc
    simp only [Bool.and_eq_true, beq_iff_eq] at hc
    obtain ⟨rfl, -⟩ := hc
    obtain rfl := Option.some.inj h
    intro x hx
    simp only [List.cons_append, List.mem_cons, List.mem_append, Option.mem_toList,
      Option.filter_eq_some_iff, Bool.or_eq_true, beq_iff_eq] at hx
    rcases hx with rfl | hx | ⟨-, (rfl | rfl) | rfl⟩
    · rfl
    · exact digits_low x hx
    all_goals rfl

theorem xmmAt_low {t m : Text} (h : xmmAt t = some m) : ∀ c ∈ m, isLow c = true := by
  simp only [xmmAt] at h
  split_ifs at h with hc
  obtain rfl := Option.some.inj h
  intro x hx
  rcases List.mem_append.mp hx with hx | hx
  · have : ∀ c ∈ "xmm".toList, isLow c = true := by decide
    exact this x hx
  · exact digits_low x hx

theorem regAt_low {t m : Text} (h : regAt t = some m) : ∀ c ∈ m, isLow c = true := by
  unfold regAt at h
  cases hl : legacyAt t with
  | some a => rw [hl] at h; exact legacyAt_low (hl.trans h)
  | none =>
    cases hn : numberedAt t with
    | some a => rw [hl, hn] at h; exact numberedAt_low (hn.trans h)
    | none => rw [hl, hn] at h; exact xmmAt_low h

theorem isReg_low {t : Text} (h : isReg t = true) : ∀ c ∈ t, isLow c = true :=
  regAt_low (beq_iff_eq.mp h)

/-! ## What the loop keeps unconditionally defines nothing -/

theorem mem_strip {c : Char} {t : Text} (hc : c ∈ t) (hs : Text.isSpace c = false) :
    c ∈ Text.strip t := by
  have hl : c ∈ Text.lstrip t := by
    rw [← List.takeWhile_append_dropWhile (p := Text.isSpace) (l := t)] at hc
    rcases List.mem_append.mp hc with hc | hc
    · rw [List.mem_takeWhile_imp hc] at hs
      exact absurd hs (by decide)
    · exact hc
  unfold Text.strip List.rdropWhile
  rw [List.mem_reverse]
  rw [← List.mem_reverse, ← List.takeWhile_append_dropWhile (p := Text.isSpace)
    (l := (Text.lstrip t).reverse)] at hl
  rcases List.mem_append.mp hl with hl | hl
  · rw [List.mem_takeWhile_imp hl] at hs
    exact absurd hs (by decide)
  · exact hl

/-- The first field of a text that starts with `u` starts with `u`, if no delimiter
occurs in `u`. -/
theorem prefix_head_splitOn {sep : Char} {u r : Text} (hu : sep ∉ u) {f : Text} {fs : List Text}
    (h : (u ++ r).splitOn sep = f :: fs) : u <+: f := by
  have hj : Text.join sep (f :: fs) = u ++ r := by
    rw [← h]
    exact List.intercalate_splitOn sep
  cases fs with
  | nil =>
    rw [Text.join_singleton] at hj
    exact ⟨r, hj.symm⟩
  | cons g gs =>
    rw [Text.join_cons_cons, List.append_eq_append_iff] at hj
    rcases hj with ⟨a, hu', ha⟩ | ⟨a, hf, -⟩
    · cases a with
      | nil => exact ⟨[], by simpa using hu'⟩
      | cons c a =>
        obtain ⟨rfl, -⟩ := List.cons.inj ha
        exact absurd (hu' ▸ List.mem_append_right f (List.mem_cons_self)) hu
    · exact ⟨a, hf.symm⟩

theorem storesTo_prefix {ops : Text} (h : storesTo ops = true) :
    ops.takeWhile isWordChar ++ " PTR [".toList <+: ops := by
  simp only [storesTo, Bool.and_eq_true, beq_iff_eq] at h
  obtain ⟨⟨⟨-, hptr⟩, -⟩, -⟩ := h
  conv_rhs => rw [← List.takeWhile_append_dropWhile (p := isWordChar) (l := ops)]
  rw [List.prefix_append_right_inj, ← hptr]
  exact List.take_prefix _ _

theorem dst_none_of_stores (x : Insn) (h : x.stores = true) : x.dst = none := by
  obtain ⟨r, hr⟩ := storesTo_prefix h
  unfold Insn.dst
  split
  · rename_i p ps hp
    unfold Insn.parts at hp
    split_ifs at hp
    cases hs : x.ops.splitOn ',' with
    | nil => exact absurd hs (List.splitOn_ne_nil _ _)
    | cons f fs =>
      rw [hs, List.map_cons] at hp
      obtain ⟨rfl, -⟩ := List.cons.inj hp
      -- the first operand holds the bracket, which no register does
      have hpre : x.ops.takeWhile isWordChar ++ " PTR [".toList <+: f := by
        rw [← hr] at hs
        refine prefix_head_splitOn ?_ hs
        rw [List.mem_append]
        rintro (hc | hc)
        · have := List.mem_takeWhile_imp hc
          revert this
          decide
        · revert hc
          decide
      have hmem : '[' ∈ Text.strip f :=
        mem_strip (hpre.subset (List.mem_append_right _ (by decide))) (by decide)
      rw [if_neg]
      intro hreg
      rw [Bool.and_eq_true] at hreg
      exact absurd (isReg_low hreg.1 '[' hmem) (by decide)
  · rfl

theorem dst_none_of_readsFirst (x : Insn) (h : readsFirst.contains x.mnem = true) :
    x.dst = none := by
  unfold Insn.dst
  split
  · rw [if_neg]
    simp only [h, Bool.not_true, Bool.and_false, Bool.false_eq_true, not_false_eq_true]
  · rfl

theorem dst_none_of_alwaysKept (x : Insn) (h : x.alwaysKept = true) : x.dst = none := by
  simp only [Insn.alwaysKept, Bool.or_eq_true, beq_iff_eq] at h
  rcases h with (h | h) | h
  · exact dst_none_of_stores x h
  · exact dst_none_of_readsFirst x (by rw [h]; decide)
  · exact dst_none_of_readsFirst x (by rw [h]; decide)

/-! ## The loop as liveness -/

/-- An instruction as `bookkeeping` reads it: whatever is no plain move reads the
register it writes. -/
def Insn.seen (x : Insn) : Effect Text :=
  if x.alwaysKept then .keep x.reads
  else match x.dst with
    | some d => .define d (if plainMoves.contains x.mnem then x.reads else d :: x.reads)
    | none => .skip

theorem wanted_iff (needed : List Text) (x : Insn) :
    wanted needed x = true ↔ x.seen.Matters needed := by
  unfold wanted Insn.seen
  by_cases hk : x.alwaysKept = true
  · simp [hk, Effect.Matters]
  · simp only [hk, Bool.false_or, Bool.false_eq_true, if_false]
    cases x.dst <;> simp [Effect.Matters]

theorem mem_neededBefore {needed : List Text} {x : Insn} {r : Text}
    (hw : wanted needed x = true) :
    r ∈ neededBefore needed x ↔ r ∈ x.seen.uses ∨ r ∈ needed ∧ x.seen.dst ≠ some r := by
  rw [wanted_iff] at hw
  unfold neededBefore
  unfold Insn.seen at hw ⊢
  by_cases hk : x.alwaysKept = true
  · simp [hk, dst_none_of_alwaysKept x hk, Effect.uses, Effect.dst, or_comm]
  · simp only [hk, Bool.false_eq_true, if_false] at hw ⊢
    cases hd : x.dst with
    | none => simp [hd, Effect.Matters] at hw
    | some d =>
      simp only [hd, Effect.Matters] at hw
      by_cases hm : plainMoves.contains x.mnem = true
      · simp only [hm, hw, Effect.uses, Effect.dst, List.contains_eq_mem, decide_true,
          Bool.and_self, if_true, List.mem_append, List.mem_filter, bne_iff_ne, ne_eq,
          Option.some.injEq, eq_comm (a := d)]
        exact or_comm
      · -- the register stays needed: the write counts as a read
        simp only [hm, Effect.uses, Effect.dst, Bool.and_false, Bool.false_eq_true, if_false,
          List.mem_append, List.mem_cons, ne_eq, Option.some.injEq]
        by_cases hrd : r = d
        · simp [hrd, hw]
        · simp [hrd, or_comm, eq_comm (a := d)]

theorem sliceLoop_cons (x : Insn) {rest : List Insn} (h : rest ≠ []) :
    sliceLoop (x :: rest) =
      if wanted (sliceLoop rest).2 x
      then (true :: (sliceLoop rest).1, neededBefore (sliceLoop rest).2 x)
      else (false :: (sliceLoop rest).1, (sliceLoop rest).2) := by
  cases rest with
  | nil => exact absurd rfl h
  | cons y ys => rfl

/-- What the call itself reads. -/
def callRoots (call : Insn) : List Text := regsOf call.text

/-- After each turn `needed` is the set of live registers. -/
theorem mem_sliceLoop_needed (init : List Insn) (call : Insn) (r : Text) :
    r ∈ (sliceLoop (init ++ [call])).2 ↔ r ∈ live (callRoots call) (init.map Insn.seen) := by
  induction init generalizing r with
  | nil => rfl
  | cons x rest ih =>
    have hmatters : x.seen.Matters (sliceLoop (rest ++ [call])).2 ↔
        x.seen.Matters (live (callRoots call) (rest.map Insn.seen)) :=
      ⟨Effect.Matters.mono fun _ => (ih _).mp, Effect.Matters.mono fun _ => (ih _).mpr⟩
    rw [List.cons_append, sliceLoop_cons x (by simp), List.map_cons, mem_live_cons, ← hmatters,
      ← wanted_iff, ← ih]
    split_ifs with hw
    · simp [mem_neededBefore hw, hw]
    · -- a register needed later is none that an unwanted instruction writes
      refine ⟨fun hr => Or.inr ⟨hr, fun hd => hw ?_⟩, fun h => ?_⟩
      · rw [wanted_iff]
        cases hs : x.seen with
        | keep u => trivial
        | skip => simp [hs, Effect.dst] at hd
        | define d u =>
          rw [hs] at hd
          obtain rfl := Option.some.inj hd
          exact hr
      · rcases h with ⟨hw', -⟩ | ⟨hr, -⟩
        · exact absurd hw' hw
        · exact hr

/-- The loop keeps the call, and before it exactly what reaches the call. -/
theorem sliceLoop_flag (init : List Insn) (call : Insn) (i : ℕ) :
    (sliceLoop (init ++ [call])).1.getD i false = true ↔
      i = init.length ∨ Reaches (callRoots call) (init.map Insn.seen) i := by
  induction init generalizing i with
  | nil =>
    cases i with
    | zero => simp [sliceLoop]
    | succ i => simp [sliceLoop, Reaches]
  | cons x rest ih =>
    have hmatters : wanted (sliceLoop (rest ++ [call])).2 x = true ↔
        x.seen.Matters (live (callRoots call) (rest.map Insn.seen)) := by
      rw [wanted_iff]
      exact ⟨Effect.Matters.mono fun _ => (mem_sliceLoop_needed rest call _).mp,
        Effect.Matters.mono fun _ => (mem_sliceLoop_needed rest call _).mpr⟩
    rw [List.cons_append, sliceLoop_cons x (by simp), List.map_cons]
    cases i with
    | zero =>
      rw [reaches_zero, ← hmatters]
      split_ifs with hw <;> simp [hw]
    | succ i =>
      rw [reaches_succ, List.length_cons, Nat.add_right_cancel_iff, ← ih i]
      split_ifs <;> rfl

theorem mem_bookkeeping {win : List Insn} {word i : ℕ} :
    i ∈ bookkeeping win word ↔ i < win.length ∧ keeps win i = false := by
  simp [bookkeeping]

/-- Outside the PIC idiom, `bookkeeping` returns what does not reach the call. -/
theorem mem_bookkeeping_iff {init : List Insn} {call : Insn} {word i : ℕ}
    (hpic : picSetup (init ++ [call]) = []) :
    i ∈ bookkeeping (init ++ [call]) word ↔
      i < init.length ∧ ¬ Reaches (callRoots call) (init.map Insn.seen) i := by
  have hflag := sliceLoop_flag init call i
  rw [mem_bookkeeping, keeps, hpic, List.contains_nil, Bool.or_false, ← Bool.not_eq_true, hflag,
    List.length_append, List.length_singleton, not_or]
  refine ⟨fun ⟨hlt, hne, hr⟩ => ⟨by omega, hr⟩, fun ⟨hlt, hr⟩ => ⟨by omega, by omega, hr⟩⟩

end OMB
