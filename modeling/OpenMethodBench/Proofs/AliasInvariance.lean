import Mathlib
import OpenMethodBench.Proofs.OpenOperand

/-! Register aliases in the def-use passes: which of its names spells a register that an
instruction reads matters to the slice and to the depth exactly where `REG` misses one of
the names and nothing else carries the value. -/

namespace OMB

open DefUse Depth

/-! ## The slice -/

section Slice

variable {x x' : Insn} (h : Respelt x x')
include h

theorem Respelt.alwaysKept : x'.alwaysKept = x.alwaysKept := by
  rw [Insn.alwaysKept, Insn.alwaysKept, h.stores, h.mnem]

theorem Respelt.reads_subset {d d' : Text} (hd : x.dst = some d) (hd' : x'.dst = some d') :
    x'.reads ⊆ x.reads := by
  have htail : ∀ {y : Insn} {d : Text}, y.dst = some d →
      y.reads = regsOf (Text.join ',' y.parts.tail) := by
    intro y d hy
    rw [Insn.reads, hy]
  rw [htail hd, htail hd']
  exact h.tail.regs

/-- `bookkeeping` sees no more in the second spelling than in the first. -/
theorem Respelt.widens : Widens x'.seen x.seen := by
  have hplain : plainMoves.contains x.mnem = true → x.mnem ∈ chainMoves := by
    have hsub : plainMoves ⊆ chainMoves := by decide
    exact fun hmove => hsub (by simpa using hmove)
  unfold Insn.seen
  rw [h.alwaysKept, h.mnem]
  by_cases hkept : x.alwaysKept = true
  · have hreads : ∀ y : Insn, y.alwaysKept = true → y.reads = regsOf y.ops := by
      intro y hy
      rw [Insn.reads, dst_none_of_alwaysKept y hy]
    rw [if_pos hkept, if_pos hkept, hreads x hkept, hreads x' (h.alwaysKept.trans hkept)]
    exact ⟨Or.inl rfl, h.ops.regs, fun _ hm => hm⟩
  rw [if_neg hkept, if_neg hkept]
  rcases hdst : x.dst with - | d
  · have hdst' : x'.dst = none := h.dst.elim (fun hd => hd.trans hdst) And.left
    rw [hdst']
    exact (Coarsens.same Effect.skip).covers.widens
  rcases h.dst with hd | ⟨hd, hmove⟩
  · have hdst' : x'.dst = some d := hd.trans hdst
    have hreads := h.reads_subset hdst hdst'
    rw [hdst']
    refine ⟨Or.inl rfl, ?_, fun _ hm => hm⟩
    split_ifs
    · exact hreads
    · exact List.cons_subset_cons d hreads
  · -- a write that is missed is also missed as a read
    have hnot : plainMoves.contains x.mnem = false := by
      by_contra hc
      exact hmove (hplain (by simpa using hc))
    rw [hd, hnot]
    exact ⟨Or.inr ⟨rfl, d, List.mem_cons_self, rfl⟩, List.nil_subset _, fun _ hm => absurd hm id⟩

end Slice

/-! ## The PIC marks -/

theorem poppedReg_low {t reg : Text} (h : poppedReg t = some reg) :
    ∀ c ∈ reg, isLow c = true := by
  obtain ⟨r, -, hr⟩ := Option.bind_eq_some_iff.mp h
  split at hr
  · rename_i e a b
    split_ifs at hr with hc
    obtain rfl := Option.some.inj hr
    simp only [Bool.and_eq_true, beq_iff_eq] at hc
    simp [isLow, hc.1.1, hc.1.2, hc.2]
  · simp at hr

section Marks

variable {win win' : List Insn} (h : List.Forall₂ Respelt win win')
include h

theorem picMarks_congr {i : ℕ} (hdirect : ∀ x ∈ win[i]?, isDispatchCall x = false)
    (hdirect' : ∀ x ∈ win'[i]?, isDispatchCall x = false) : picMarks win' i = picMarks win i := by
  have hadds : ∀ reg : Text, (∀ c ∈ reg, isLow c = true) → ∀ j : ℕ,
      (win'[j]?).any (fun x : Insn => addsTo reg x.text) =
        (win[j]?).any fun x : Insn => addsTo reg x.text := by
    intro reg hlow j
    have hj := h.getElem?_rel j
    generalize win[j]? = x at *
    generalize win'[j]? = x' at *
    cases hj with
    | none => rfl
    | some hx => exact hx.adds reg hlow
  have hlength := h.length_eq
  have hi := h.getElem?_rel i
  have hnext := h.getElem?_rel (i + 1)
  unfold picMarks
  generalize win[i]? = a at *
  generalize win'[i]? = a' at *
  generalize win[i + 1]? = b at *
  generalize win'[i + 1]? = b' at *
  cases hi with
  | none => rfl
  | some ha =>
    cases hnext with
    | none => rfl
    | some hb =>
      simp only [ha.target (hdirect _ rfl) (hdirect' _ rfl), hb.addr, hb.pops, ← hlength]
      split_ifs
      · rcases hpop : poppedReg _ with - | reg
        · rfl
        · simp only [hadds reg (poppedReg_low hpop)]
      · rfl

end Marks

/-! ## The kept set -/

namespace CallWindow

/-- The instructions before the call, as `bookkeeping` sees them. -/
def graph (w : CallWindow) : List (Effect Text) := w.body.map Insn.seen

/-- Does an instruction reach the call in the eyes of `bookkeeping`? -/
def Kept (w : CallWindow) (i : ℕ) : Prop := Reaches (callRoots w.call) w.graph i

variable {w w' : CallWindow}

theorem length_insns (w : CallWindow) : w.insns.length = w.body.length + 1 := by simp [insns]

theorem direct {i : ℕ} (hi : i < w.body.length) : ∀ x ∈ w.insns[i]?, isDispatchCall x = false := by
  intro x hx
  rw [insns, List.getElem?_append_left hi] at hx
  exact (w.passed x (List.mem_of_getElem? hx)).direct

theorem keeps_iff {i : ℕ} :
    keeps w.insns i = true ↔ i = w.body.length ∨ w.Kept i ∨ i ∈ picSetup w.insns := by
  rw [keeps, Bool.or_eq_true, insns, sliceLoop_flag, or_assoc, List.contains_iff_mem]
  rfl

section Respelling

variable (h : List.Forall₂ Respelt w.insns w'.insns)
include h

theorem length_body : w'.body.length = w.body.length := by
  have hlength := h.length_eq
  rw [length_insns, length_insns] at hlength
  omega

theorem respelt_body : List.Forall₂ Respelt w.body w'.body := by
  have htake := List.forall₂_take w.body.length h
  rwa [insns, insns, List.take_left, List.take_left' (length_body h)] at htake

theorem respelt_call : Respelt w.call w'.call := by
  have hlast := h.getElem?_rel w.body.length
  have hcall := call_getElem? (w := w')
  rw [length_body h] at hcall
  rw [call_getElem?, hcall] at hlast
  cases hlast
  assumption

theorem picSetup_congr : picSetup w'.insns = picSetup w.insns := by
  rw [picSetup, picSetup, ← h.length_eq]
  refine List.flatMap_congr fun i hi => ?_
  rw [List.mem_range, length_insns, Nat.add_sub_cancel] at hi
  exact picMarks_congr h (direct hi) (direct (by rw [length_body h]; exact hi))

/-- Nothing is kept for the second spelling that is not for the first. -/
theorem kept_of_kept {i : ℕ} (hi : w'.Kept i) : w.Kept i := by
  have hwidens : List.Forall₂ Widens w'.graph w.graph := by
    rw [graph, graph, List.forall₂_map_left_iff, List.forall₂_map_right_iff]
    exact (respelt_body h).flip.imp fun _ _ hx => hx.widens
  exact reaches_mono (respelt_call h).text.regs hwidens i hi

theorem bookkeeping_eq_iff (word : ℕ) :
    bookkeeping w.insns word = bookkeeping w'.insns word ↔
      ∀ i, w.Kept i → w'.Kept i ∨ i ∈ picSetup w.insns := by
  have hkeeps : ∀ i, keeps w'.insns i = true ↔
      i = w.body.length ∨ w'.Kept i ∨ i ∈ picSetup w.insns := by
    intro i
    rw [keeps_iff, length_body h, picSetup_congr h]
  constructor
  · intro heq i hi
    have hlt : i < w.body.length := by
      have hlt := hi.lt_length
      rwa [graph, List.length_map] at hlt
    have hkept : keeps w'.insns i = true := by
      by_contra hnot
      have hmem : i ∈ bookkeeping w'.insns word :=
        mem_bookkeeping.mpr ⟨by rw [length_insns, length_body h]; omega, by simpa using hnot⟩
      rw [← heq, mem_bookkeeping, keeps_iff.mpr (Or.inr (Or.inl hi))] at hmem
      exact absurd hmem.2 (by decide)
    exact ((hkeeps i).mp hkept).resolve_left (by omega)
  · intro hle
    rw [bookkeeping, bookkeeping, ← h.length_eq]
    refine List.filter_congr fun i _ => ?_
    have hiff : keeps w.insns i = true ↔ keeps w'.insns i = true := by
      rw [hkeeps, keeps_iff]
      have hback := kept_of_kept h (i := i)
      have hforth := hle i
      tauto
    rw [Bool.eq_iff_iff.mpr hiff]

end Respelling

end CallWindow

/-! ## The graph of `chain` -/

/-- The locations `chain` may look up: what stands in brackets is no register. -/
def IsRead (l : Loc) : Prop := ∀ r, l = .inl r → '[' ∉ r

theorem quadStem_low {t : Text} {c : Char} (h : quadStem t = some c) :
    isLow c = true ∧ ∀ d ∈ t, isLow d = true := by
  unfold quadStem at h
  split at h
  · rename_i a k
    split_ifs at h with hc
    obtain rfl := Option.some.inj h
    simp only [Bool.and_eq_true, Bool.or_eq_true, beq_iff_eq] at hc
    have ha : isLow a = true := by simp [isLow, hc.1.1]
    refine ⟨ha, List.forall_mem_cons.mpr ⟨ha, ?_⟩⟩
    rcases hc.2 with (rfl | rfl) | rfl <;> decide
  · rename_i p a k
    split_ifs at h with hc
    obtain rfl := Option.some.inj h
    simp only [Bool.and_eq_true, Bool.or_eq_true, beq_iff_eq] at hc
    obtain ⟨⟨⟨hp, hlower⟩, -⟩, rfl⟩ := hc
    have ha : isLow a = true := by simp [isLow, hlower]
    refine ⟨ha, List.forall_mem_cons.mpr ⟨?_, List.forall_mem_cons.mpr ⟨ha, by decide⟩⟩⟩
    rcases hp with rfl | rfl <;> rfl
  · simp at h

/-- What is left of the name of a pointer register without its size. -/
theorem pointer_low {body : Text}
    (h : ["si".toList, "di".toList, "bp".toList, "sp".toList].contains (body.take 2) = true)
    (hrest : (body.drop 2 == [] || body.drop 2 == ['l']) = true) :
    (∀ d ∈ body.take 2, isLow d = true) ∧ ∀ d ∈ body, isLow d = true := by
  have hstems : ∀ s ∈ ["si".toList, "di".toList, "bp".toList, "sp".toList],
      ∀ d ∈ s, isLow d = true := by decide
  have htake := hstems _ (by simpa using h)
  refine ⟨htake, ?_⟩
  rw [← List.take_append_drop 2 body]
  simp only [Bool.or_eq_true, beq_iff_eq] at hrest
  refine List.forall_mem_append.mpr ⟨htake, ?_⟩
  rcases hrest with hrest | hrest <;> rw [hrest] <;> decide

theorem pointerStem_low {t p : Text} (h : pointerStem t = some p) :
    (∀ d ∈ p, isLow d = true) ∧ ∀ d ∈ t, isLow d = true := by
  simp only [pointerStem, Bool.and_eq_true] at h
  split_ifs at h with hhead hc hc
  · obtain rfl := Option.some.inj h
    obtain ⟨hp, ht⟩ := pointer_low hc.1 hc.2
    refine ⟨hp, ?_⟩
    rcases t with - | ⟨c, t⟩
    · simp at hhead
    · refine List.forall_mem_cons.mpr ⟨?_, ht⟩
      simp only [List.head?_cons, Bool.or_eq_true, beq_iff_eq, Option.some.injEq] at hhead
      rcases hhead with rfl | rfl <;> rfl
  · obtain rfl := Option.some.inj h
    exact pointer_low hc.1 hc.2

theorem canon_bracket (t : Text) : '[' ∈ canon t ↔ '[' ∈ t := by
  have hopen : ∀ {u : Text}, (∀ c ∈ u, isLow c = true) → '[' ∉ u := fun hu hc =>
    ne_of_low (hu _ hc) (by decide) rfl
  unfold canon
  split_ifs with hn
  · have hdigits : ∀ c ∈ 'r' :: t.tail.takeWhile Char.isDigit, isLow c = true :=
      List.forall_mem_cons.mpr ⟨rfl, digits_low⟩
    exact iff_of_false (hopen hdigits) (hopen (numberedAt_low (beq_iff_eq.mp hn)))
  · rcases hq : quadStem t with - | c
    · rcases hp : pointerStem t with - | p
      · rfl
      · obtain ⟨hpl, htl⟩ := pointerStem_low hp
        exact iff_of_false (hopen hpl) (hopen htl)
    · obtain ⟨hc, ht⟩ := quadStem_low hq
      refine iff_of_false (hopen (List.forall_mem_cons.mpr ⟨hc, by decide⟩)) (hopen ht)

theorem isRead_gprs {t : Text} : ∀ l ∈ (gprsOf t).map (Sum.inl : Text → Loc), IsRead l := by
  intro l hl r hr
  subst hr
  obtain ⟨r', hr', heq⟩ := List.mem_map.mp hl
  obtain rfl := Sum.inl.inj heq
  rw [gprsOf_eq] at hr'
  obtain ⟨m, hm, rfl⟩ := List.mem_map.mp hr'
  obtain ⟨u, hu⟩ := regAt_of_mem (List.mem_of_mem_filter hm)
  rw [canon_bracket]
  exact fun hc => ne_of_low (regAt_low hu _ hc) (by decide) rfl

section Graph

variable {word : ℕ} {win win' : List Insn} (h : List.Forall₂ Respelt win win')

theorem Respelt.stored {x x' : Insn} (hx : Respelt x x') : x'.stored = x.stored := by
  rw [Insn.stored, Insn.stored, hx.stores, hx.slot]

include h

theorem deltaAt_congr (k : ℕ) : deltaAt word win' k = deltaAt word win k := by
  have htake := List.forall₂_take k h
  rw [deltaAt, deltaAt]
  generalize (0 : ℤ) = delta
  generalize win.take k = l at htake ⊢
  generalize win'.take k = l' at htake ⊢
  induction htake generalizing delta with
  | nil => rfl
  | cons hx _ ih => rw [List.foldl_cons, List.foldl_cons, hx.moves, ih]

theorem spillAt_congr (k : ℕ) : spillAt word win' k = spillAt word win k := by
  have hk := h.getElem?_rel k
  rw [spillAt, spillAt, deltaAt_congr h]
  generalize win[k]? = x at *
  generalize win'[k]? = x' at *
  cases hk with
  | none => rfl
  | some hx => simp only [Option.bind_some, hx.mnem, hx.stored]

theorem spilledBefore_congr (k : ℕ) : spilledBefore word win' k = spilledBefore word win k := by
  funext key
  rw [spilledBefore, spilledBefore]
  simp only [spillAt_congr h]

theorem forwardAt_congr {x x' : Insn} (hx : Respelt x x') (k : ℕ) :
    forwardAt word win' k x' = forwardAt word win k x := by
  rw [forwardAt, forwardAt, hx.stores, hx.slot, deltaAt_congr h, spilledBefore_congr h]

omit h in
theorem Respelt.bracket_isSome {x x' : Insn} (hx : Respelt x x') :
    (bracketed x'.ops).isSome = (bracketed x.ops).isSome := by
  have hb := hx.bracket
  generalize bracketed x.ops = b at *
  generalize bracketed x'.ops = b' at *
  cases hb <;> rfl

theorem loadsAt_congr {x x' : Insn} (hx : Respelt x x') (k : ℕ) :
    loadsAt word win' k x' = loadsAt word win k x := by
  rw [loadsAt, loadsAt, hx.stores, forwardAt_congr h hx, hx.bracket_isSome]

theorem weightAt_congr (k : ℕ) : weightAt word win' k = weightAt word win k := by
  have hk := h.getElem?_rel k
  rw [weightAt, weightAt]
  generalize win[k]? = x at *
  generalize win'[k]? = x' at *
  cases hk with
  | none => rfl
  | some hx => simp only [Option.map_some, hx.mnem, hx.stored, loadsAt_congr h hx]

theorem addrsAt_subset {x x' : Insn} (hx : Respelt x x') (k : ℕ) :
    addrsAt word win' k x' ⊆ addrsAt word win k x := by
  rw [addrsAt, addrsAt, hx.stores, forwardAt_congr h hx]
  split_ifs
  · exact List.Subset.refl _
  · have hb := hx.bracket
    generalize bracketed x.ops = b at *
    generalize bracketed x'.ops = b' at *
    cases hb with
    | none => exact List.Subset.refl _
    | some hsees => exact List.map_subset _ hsees.gprs

omit h in
theorem isRead_addrs (k : ℕ) (x : Insn) : ∀ l ∈ addrsAt word win k x, IsRead l := by
  intro l hl
  rw [addrsAt] at hl
  split_ifs at hl
  · exact absurd hl List.not_mem_nil
  · rcases hb : bracketed x.ops with - | inner
    · rw [hb] at hl
      exact absurd hl List.not_mem_nil
    · rw [hb] at hl
      exact isRead_gprs l hl

omit h in
theorem isRead_slot (key : ℤ) : IsRead (.inr key) := fun r hr => absurd hr (by simp)

omit h in
theorem isRead_gprDst {x : Insn} {d : Text} (hd : x.gprDst = some d) : IsRead (.inl d) := by
  rw [Insn.gprDst_eq, Insn.written] at hd
  obtain ⟨p, -, hp⟩ := Option.bind_eq_some_iff.mp hd
  split_ifs at hp with hc
  rw [Bool.and_eq_true] at hc
  obtain rfl := Option.some.inj hp
  intro r hr
  obtain rfl := Sum.inl.inj hr
  rw [canon_bracket]
  exact fun hb => ne_of_low (isGpr_low hc.1 _ hb) (by decide) rfl

theorem callUse_narrows {x x' : Insn} (hx : Respelt x x') (k : ℕ) :
    Narrows IsRead (callUse word win k x) (callUse word win' k x') := by
  have hvalues : ((if (bracketed x'.ops).isSome then [] else gprsOf x'.ops).map Sum.inl : List Loc) ⊆
      (if (bracketed x.ops).isSome then [] else gprsOf x.ops).map Sum.inl := by
    rw [hx.bracket_isSome]
    split_ifs
    · exact List.Subset.refl _
    · exact List.map_subset _ hx.ops.gprs
  refine ⟨Or.inl rfl, addrsAt_subset h hx k, ?_, ?_⟩
  · rw [callUse, callUse, forwardAt_congr h hx]
    exact append_subset_append (List.Subset.refl _) hvalues
  · rintro l (hl | hl)
    · exact isRead_addrs k x' l hl
    · rcases List.mem_append.mp hl with hl | hl
      · obtain ⟨key, -, rfl⟩ := List.mem_map.mp hl
        exact isRead_slot key
      · split_ifs at hl
        · exact absurd hl List.not_mem_nil
        · exact isRead_gprs l hl

theorem useOf_narrows {x x' : Insn} (hx : Respelt x x') (k : ℕ) :
    Narrows IsRead (useOf word win k x) (useOf word win' k x') := by
  have hskip : Narrows IsRead (Use.skip : Use Loc) Use.skip :=
    ⟨Or.inl rfl, List.Subset.refl _, List.Subset.refl _, fun l hl => by simp [Use.skip] at hl⟩
  rw [useOf, useOf, hx.mnem, hx.stored, deltaAt_congr h]
  by_cases hcall : (x.mnem == "call".toList) = true
  · rw [if_pos hcall, if_pos hcall]
    exact hskip
  rw [if_neg hcall, if_neg hcall]
  by_cases hpop : (x.mnem == "pop".toList) = true
  · rw [if_pos hpop, if_pos hpop]
    refine ⟨?_, List.Subset.refl _, List.Subset.refl _, fun l hl => by simp at hl⟩
    rcases hx.popped (beq_iff_eq.mp hpop) with hhead | ⟨hp, hp'⟩
    · rw [hhead]
      exact Or.inl rfl
    · -- neither is the name of a register
      have hjunk : ∀ {y : Insn}, (∀ p ∈ y.parts.head?, '[' ∈ p) →
          ∀ l ∈ y.parts.head?.map fun p => (Sum.inl (canon p) : Loc), ¬ IsRead l := by
        intro y hy l hl hread
        obtain ⟨p, hp, rfl⟩ := Option.map_eq_some_iff.mp hl
        exact hread _ rfl ((canon_bracket p).mpr (hy p hp))
      exact Or.inr (Or.inr ⟨hjunk hp, hjunk hp'⟩)
  rw [if_neg hpop, if_neg hpop]
  rcases x.stored with - | offset
  · have hkeeps : x'.keepsDst = x.keepsDst := by
      rw [Insn.keepsDst, Insn.keepsDst, hx.mnem, hx.length]
    rcases hdst : x.gprDst with - | d
    · have hdst' : x'.gprDst = none := hx.gprDst.elim (fun hd => hd.trans hdst) And.left
      rw [hdst']
      exact hskip
    rcases hx.gprDst with hd | ⟨hd, hkept⟩
    · rw [hd, hdst, forwardAt_congr h hx, hkeeps, hx.bracket_isSome]
      refine ⟨Or.inl rfl, addrsAt_subset h hx k, ?_, ?_⟩
      · refine append_subset_append (List.Subset.refl _) (List.map_subset _ ?_)
        refine append_subset_append ?_ (List.Subset.refl _)
        split_ifs
        · exact List.Subset.refl _
        · exact hx.tail.gprs
      · rintro l (hl | hl)
        · exact isRead_addrs k x' l hl
        · dsimp only at hl
          rw [List.map_append] at hl
          rcases List.mem_append.mp hl with hl | hl
          · obtain ⟨key, -, rfl⟩ := List.mem_map.mp hl
            exact isRead_slot key
          rcases List.mem_append.mp hl with hl | hl
          · split_ifs at hl
            · exact absurd hl List.not_mem_nil
            · exact isRead_gprs l hl
          · split_ifs at hl
            · rw [List.mem_singleton.mp hl]
              exact isRead_gprDst hdst
            · exact absurd hl List.not_mem_nil
    · -- a write that is missed hands on what the register held
      rw [hd]
      refine ⟨Or.inr (Or.inl ⟨rfl, .inl d, ?_, rfl⟩), List.nil_subset _, List.nil_subset _,
        fun l hl => by simp [Use.skip] at hl⟩
      simp [hkept]
  · refine ⟨Or.inl rfl, List.Subset.refl _, List.map_subset _ hx.last.gprs, ?_⟩
    rintro l (hl | hl)
    · exact absurd hl List.not_mem_nil
    · exact isRead_gprs l hl

theorem useAt_narrows {x x' : Insn} (hx : Respelt x x')
    (hcall : isDispatchCall x' = isDispatchCall x) (k : ℕ) :
    Narrows IsRead (useAt word win k x) (useAt word win' k x') := by
  rw [useAt, useAt, hcall]
  split_ifs
  · exact callUse_narrows h hx k
  · exact useOf_narrows h hx k

end Graph

/-! ## The depth -/

namespace CallWindow

variable {w w' : CallWindow} (h : List.Forall₂ Respelt w.insns w'.insns) (word : ℕ)
include h

theorem isDispatchCall_congr (k : ℕ) :
    w'.insns[k]?.map isDispatchCall = w.insns[k]?.map isDispatchCall := by
  have hbody := h.getElem?_rel k
  rcases Nat.lt_trichotomy k w.body.length with hlt | rfl | hgt
  · have hdirect := direct hlt
    have hdirect' := direct (w := w') (i := k) (by rw [length_body h]; exact hlt)
    generalize w.insns[k]? = x at *
    generalize w'.insns[k]? = x' at *
    cases hbody with
    | none => rfl
    | some => simp [hdirect _ rfl, hdirect' _ rfl]
  · have hcall := call_getElem? (w := w')
    rw [length_body h] at hcall
    rw [call_getElem?, hcall, Option.map_some, Option.map_some, w.dispatches, w'.dispatches]
  · have hlength := length_insns w
    have hlength' := h.length_eq
    rw [List.getElem?_eq_none (by omega), List.getElem?_eq_none (by omega)]

theorem usesOf_narrows :
    List.Forall₂ (Narrows IsRead) (usesOf word w.insns) (usesOf word w'.insns) := by
  have hlength := h.length_eq
  refine List.forall₂_iff_get.mpr ⟨by simp [usesOf, hlength], fun k hk hk' => ?_⟩
  rw [usesOf, List.length_mapIdx] at hk hk'
  have hcall := isDispatchCall_congr h k
  rw [List.getElem?_eq_getElem hk, List.getElem?_eq_getElem hk'] at hcall
  simp only [usesOf, List.get_eq_getElem, List.getElem_mapIdx]
  exact useAt_narrows h (h.get hk hk') (Option.some.inj hcall) k

theorem weight_congr : w'.weight word = w.weight word := funext fun k => weightAt_congr h k

/-- A path of the second spelling is one of the first. -/
theorem PathToCall.respell {counted : List ℕ} (hpath : w'.PathToCall word counted) :
    w.PathToCall word counted := by
  rw [PathToCall, length_body h] at hpath
  exact hpath.widen (usesOf_narrows h word)

theorem chain_eq_iff : chain w.insns word = chain w'.insns word ↔
    ∃ counted, Deepest (w.weight word) (w.PathToCall word) counted ∧ w'.PathToCall word counted := by
  have hgreatest := w'.isGreatest_depth word (w.weight word)
  rw [chain_eq, chain_eq, weight_congr h, Option.some.injEq, eq_comm]
  exact isGreatest_subset_eq_iff (fun counted hc => hc.respell h word)
    (w.isGreatest_depth word (w.weight word)) hgreatest

end CallWindow

/-! ## The two spellings of a window -/

namespace CallWindow

/-- The registers that an instruction is seen to read in one window and not in the other. -/
def missedAt (w w' : CallWindow) (k : ℕ) : List Text :=
  match w.graph[k]?, w'.graph[k]? with
  | some x, some y => missed x y
  | _, _ => []

/-- The registers instruction `k` is seen to read in `w` alone carry nothing that counts. -/
structure Spared (w : CallWindow) (word : ℕ) (w' : CallWindow) (k : ℕ) : Prop where
  /-- where the instruction reaches the call, it does so without them, and so does whatever
  they are computed from, or it belongs to the PIC sequence -/
  kept : w.Kept k → (w'.Kept k ∨ k ∈ picSetup w.insns) ∧
    ∀ i, Reaches (missedAt w w' k) (w.graph.take k) i → w'.Kept i ∨ i ∈ picSetup w.insns
  /-- some deepest path to the call does not need them -/
  depth : ∃ counted, Deepest (w.weight word) (w.PathToCall word) counted ∧
    w'.PathToCall word counted

variable {w w' : CallWindow} {before rest : List Insn} {o : OpenInsn} {n n' : RegName}

theorem respelt_insns (hw : w.insns = before ++ o.insn n :: rest)
    (hw' : w'.insns = before ++ o.insn n' :: rest) (h : Respelt (o.insn n) (o.insn n')) :
    List.Forall₂ Respelt w.insns w'.insns := by
  have hsame : ∀ l : List Insn, List.Forall₂ Respelt l l := fun l =>
    List.forall₂_same.mpr fun x _ => Respelt.refl x
  rw [hw, hw']
  exact List.rel_append (hsame before) (List.Forall₂.cons h (hsame rest))

/-- The reader stands before the call, or is the call. -/
theorem reader_cases (hw : w.insns = before ++ o.insn n :: rest) :
    (∃ after, rest = after ++ [w.call] ∧ w.body = before ++ o.insn n :: after) ∨
      rest = [] ∧ w.call = o.insn n := by
  rcases List.eq_nil_or_concat rest with rfl | ⟨after, c, rfl⟩
  · exact Or.inr ⟨rfl, (List.cons.inj (List.append_inj' hw rfl).2).1⟩
  · left
    rw [List.concat_eq_append, ← List.cons_append, ← List.append_assoc] at hw
    obtain ⟨hbody, hcall⟩ := List.append_inj' hw rfl
    exact ⟨after, by rw [List.concat_eq_append, hcall], hbody⟩

/-- A call goes through a name that `REG` matches. -/
theorem spotted_of_call (hn : o.Fits n) (hcall : w.call = o.insn n) : n.spotted = true := by
  have hdispatch := w.dispatches
  rw [hcall, isDispatchCall, OpenInsn.insn_mnem, Bool.and_eq_true, beq_iff_eq] at hdispatch
  have hwide : ∀ n : RegName, n.isWide = true → n.spotted = true := by decide
  exact hwide n (hn (Or.inr hdispatch.1))

/-- Two names that `REG` both matches, or neither. -/
theorem same_of_spotted (h : List.Forall₂ Respelt w.insns w'.insns)
    (h' : List.Forall₂ Respelt w'.insns w.insns) (word : ℕ) :
    bookkeeping w.insns word = bookkeeping w'.insns word ∧ chain w.insns word = chain w'.insns word := by
  refine ⟨(bookkeeping_eq_iff h word).mpr fun i hi => Or.inl (kept_of_kept h' hi),
    (chain_eq_iff h word).mpr ?_⟩
  obtain ⟨counted, hdeep⟩ := exists_deepest (w.isGreatest_depth word (w.weight word))
  exact ⟨counted, hdeep, hdeep.1.respell h' word⟩

/-- One register that only the first spelling shows. -/
theorem spared_iff (hw : w.insns = before ++ o.insn n :: rest)
    (hw' : w'.insns = before ++ o.insn n' :: rest) (hrest : rest ≠ [])
    (hx : Respelt (o.insn n) (o.insn n')) (word : ℕ) :
    (bookkeeping w.insns word = bookkeeping w'.insns word ∧
      chain w.insns word = chain w'.insns word) ↔ w.Spared word w' before.length := by
  have h := respelt_insns hw hw' hx
  obtain ⟨after, hafter, hbody⟩ := (reader_cases hw).resolve_right fun hc => hrest hc.1
  obtain ⟨after', hafter', hbody'⟩ := (reader_cases hw').resolve_right fun hc => hrest hc.1
  obtain ⟨rfl, hcalls⟩ := List.append_inj' (hafter.symm.trans hafter') rfl
  have hcall : w.call = w'.call := (List.cons.inj hcalls).1
  have hgraph : w.graph = before.map Insn.seen ++ (o.insn n).seen :: after.map Insn.seen := by
    rw [graph, hbody, List.map_append, List.map_cons]
  have hgraph' : w'.graph = before.map Insn.seen ++ (o.insn n').seen :: after.map Insn.seen := by
    rw [graph, hbody', List.map_append, List.map_cons]
  have hlength : (before.map Insn.seen).length = before.length := List.length_map _
  have hmissed : missedAt w w' before.length = missed (o.insn n).seen (o.insn n').seen := by
    rw [missedAt, hgraph, hgraph', ← hlength]
    simp
  have htake : w.graph.take before.length = before.map Insn.seen := by
    rw [hgraph, ← hlength, List.take_left]
  have hkept : (∀ i, w.Kept i → w'.Kept i ∨ i ∈ picSetup w.insns) ↔
      (w.Kept before.length → (w'.Kept before.length ∨ before.length ∈ picSetup w.insns) ∧
        ∀ i, Reaches (missedAt w w' before.length) (w.graph.take before.length) i →
          w'.Kept i ∨ i ∈ picSetup w.insns) := by
    rw [hmissed, htake]
    unfold Kept
    rw [hgraph, hgraph', ← hcall, ← hlength]
    exact reaches_le_iff_missed hx.widens fun i => i ∈ picSetup w.insns
  rw [bookkeeping_eq_iff h, chain_eq_iff h, hkept]
  exact ⟨fun hs => ⟨hs.1, hs.2⟩, fun hs => ⟨hs.kept, hs.depth⟩⟩

end CallWindow

/-- Which of the names that `canon` identifies spells a register that an instruction reads
does not matter to the kept set and the depth exactly when `REG` matches both or neither, or
what is read by the one it misses carries nothing that counts. -/
theorem alias_invariant_iff {w w' : CallWindow} {before rest : List Insn} {o : OpenInsn}
    {n n' : RegName} (hw : w.insns = before ++ o.insn n :: rest)
    (hw' : w'.insns = before ++ o.insn n' :: rest) (hn : o.Fits n) (hn' : o.Fits n')
    (hcanon : canon n.text = canon n'.text) (word : ℕ) :
    (bookkeeping w.insns word = bookkeeping w'.insns word ∧
      chain w.insns word = chain w'.insns word) ↔
    n.spotted = n'.spotted ∨ (n.spotted = true ∧ w.Spared word w' before.length) ∨
      (n'.spotted = true ∧ w'.Spared word w before.length) := by
  have hreg : n.reg = n'.reg := by
    rw [canon_name, canon_name] at hcanon
    exact common_injective hcanon
  have hmissing : ∀ {v : CallWindow} {m : RegName}, v.insns = before ++ o.insn m :: rest →
      o.Fits m → m.spotted = false → rest ≠ [] := by
    intro v m hv hm hspot hrest
    have hcall := (CallWindow.reader_cases hv).resolve_left (by simp [hrest])
    rw [CallWindow.spotted_of_call hm hcall.2] at hspot
    exact absurd hspot (by decide)
  by_cases hspot : n.spotted = n'.spotted
  · have hx := o.respelt hreg (fun h => hspot.trans h) hn hn'
    have hx' := o.respelt hreg.symm (fun h => hspot.symm.trans h) hn' hn
    exact iff_of_true (CallWindow.same_of_spotted (CallWindow.respelt_insns hw hw' hx)
      (CallWindow.respelt_insns hw' hw hx') word) (Or.inl hspot)
  rcases hn1 : n.spotted with - | -
  · have hn2 : n'.spotted = true := by
      rw [hn1] at hspot
      simpa using hspot
    have hx' := o.respelt hreg.symm (fun h => absurd (hn1.symm.trans h) (by decide)) hn' hn
    have hiff := CallWindow.spared_iff hw' hw (hmissing hw hn hn1) hx' word
    rw [eq_comm (b := bookkeeping w'.insns word), eq_comm (b := chain w'.insns word), hiff]
    simp [hn2]
  · have hn2 : n'.spotted = false := by
      rw [hn1] at hspot
      simpa using hspot
    have hx := o.respelt hreg (fun h => absurd (hn2.symm.trans h) (by decide)) hn hn'
    rw [CallWindow.spared_iff hw hw' (hmissing hw' hn' hn2) hx word]
    simp [hn2]

/-! ## A count in `cl` -/

/-- `shr rax,` and a count. -/
def shiftBy : OpenInsn where
  addr := 19
  mnem := "shr".toList
  pre := "rax,".toList
  post := []
  mnem_word := by decide
  starts := fun c hc => Option.some.inj hc ▸ rfl
  ends := fun c hc => absurd hc (by simp)
  left := fun c hc => Option.some.inj hc ▸ rfl
  right := fun c hc => absurd hc (by simp)
  blank := by decide
  source := Or.inl (by decide)
  popped := by decide
  called := by decide

/-- A load of the count, the shift, and a call of what it computes. -/
def shiftWindow (n : RegName) : CallWindow where
  body := [⟨16, "mov rcx,QWORD PTR [rdi]".toList⟩, shiftBy.insn n]
  call := ⟨22, "call rax".toList⟩
  passed := by
    revert n
    decide +kernel
  dispatches := by decide +kernel
  operand := by decide +kernel

/-- Read through `cl`, the count loses its load from the slice and from the depth. -/
theorem count_in_cl :
    canon "cl".toList = canon "rcx".toList ∧
      bookkeeping (shiftWindow (.full (.quad .c))).insns 8 = [] ∧
      bookkeeping (shiftWindow (.low (.quad .c))).insns 8 = [0] ∧
      chain (shiftWindow (.full (.quad .c))).insns 8 = some 1 ∧
      chain (shiftWindow (.low (.quad .c))).insns 8 = some 0 := by
  decide +kernel

/-- The load reaches the call by no other way. -/
theorem shiftWindow_not_spared :
    ¬ (shiftWindow (.full (.quad .c))).Spared 8 (shiftWindow (.low (.quad .c))) 1 := by
  intro hspared
  have hinsns : ∀ n, (shiftWindow n).insns =
      [⟨16, "mov rcx,QWORD PTR [rdi]".toList⟩] ++ shiftBy.insn n :: [⟨22, "call rax".toList⟩] :=
    fun _ => rfl
  have hfits : ∀ n, shiftBy.Fits n := by
    unfold OpenInsn.Fits
    decide
  have hsame := (alias_invariant_iff (hinsns (.full (.quad .c))) (hinsns (.low (.quad .c)))
    (hfits _) (hfits _) (by decide) 8).mpr (Or.inr (Or.inl ⟨rfl, hspared⟩))
  exact absurd hsame.1 (by decide +kernel)

end OMB
