import OpenMethodBench.Spec.Listing
import OpenMethodBench.Proofs.SliceRendering

/-! Stores in the listings the oracle compares: the test for a store never succeeds, so
`dispatch_ops` leaves out only those it leaves out as stack traffic. -/

namespace OMB

/-! ## Brackets in a text -/

theorem bracketed_append {pre inner post : Text} (hpre : ∀ c ∈ pre, c ≠ '[') (hne : inner ≠ [])
    (hinner : ∀ c ∈ inner, c ≠ ']') :
    bracketed (pre ++ '[' :: (inner ++ ']' :: post)) = some inner := by
  induction pre with
  | nil =>
    have htake : (inner ++ ']' :: post).takeWhile (· != ']') = inner :=
      Text.takeWhile_append_of_head (fun c hc => bne_iff_ne.mpr (hinner c hc)) (by simp)
    simp [bracketed, htake, hne]
  | cons c pre ih =>
    have hc : (c == '[') = false := beq_eq_false_iff_ne.mpr (hpre c (List.mem_cons_self))
    rw [List.cons_append, bracketed, ih fun d hd => hpre d (List.mem_cons_of_mem c hd)]
    simp [hc]

theorem onStack_eq_false {t : Text} (h : ∀ c ∈ t, c ≠ '[') : onStack t = false := by
  induction t with
  | nil => rfl
  | cons c t ih =>
    have hc : (c == '[') = false := beq_eq_false_iff_ne.mpr (h c (List.mem_cons_self))
    rw [onStack, hc, Bool.false_and, Bool.false_or, ih fun d hd => h d (List.mem_cons_of_mem c hd)]

theorem onStack_append {pre t : Text} (hpre : ∀ c ∈ pre, c ≠ '[') :
    onStack (pre ++ t) = onStack t := by
  induction pre with
  | nil => rfl
  | cons c pre ih =>
    have hc : (c == '[') = false := beq_eq_false_iff_ne.mpr (hpre c (List.mem_cons_self))
    rw [List.cons_append, onStack, hc, Bool.false_and, Bool.false_or,
      ih fun d hd => hpre d (List.mem_cons_of_mem c hd)]

/-- A name without a bracket is a prefix up to the bracket or not at all. -/
theorem take_append_bracket {name inner post : Text} (hname : ']' ∉ name) :
    ((inner ++ ']' :: post).take name.length = name) ↔ inner.take name.length = name := by
  rcases Nat.lt_or_ge inner.length name.length with hlt | hge
  · refine iff_of_false ?_ ?_
    · intro h
      refine hname (h ▸ ?_)
      obtain ⟨k, hk⟩ := Nat.exists_eq_add_of_lt hlt
      rw [hk, Nat.add_assoc, List.take_length_add_append]
      simp
    · intro h
      have := congrArg List.length h
      rw [List.length_take] at this
      omega
  · rw [List.take_append_of_le_length hge]

theorem not_space_of_wordChar {c : Char} (hc : isWordChar c = true) : Text.isSpace c = false := by
  rcases Bool.or_eq_true _ _ ▸ hc with hc | hc
  · simp only [Char.isAlphanum, Char.isAlpha, Char.isUpper, Char.isLower, Char.isDigit,
      Bool.or_eq_true, Bool.and_eq_true, decide_eq_true_eq, ge_iff_le,
      UInt32.le_iff_toNat_le] at hc
    simp only [Text.isSpace, Char.toNat, Bool.or_eq_false_iff, Bool.and_eq_false_iff,
      decide_eq_false_iff_not, beq_eq_false_iff_ne]
    have hA : ('A' : Char).val.toNat = 65 := rfl
    have hZ : ('Z' : Char).val.toNat = 90 := rfl
    have ha : ('a' : Char).val.toNat = 97 := rfl
    have hz : ('z' : Char).val.toNat = 122 := rfl
    have h0 : ('0' : Char).val.toNat = 48 := rfl
    have h9 : ('9' : Char).val.toNat = 57 := rfl
    omega
  · rw [beq_iff_eq.mp hc]
    decide

/-! ## What the counting makes of an instruction -/

section Instruction

variable (t : Rendered)

/-- The mnemonic, and what a blank parts from it. -/
theorem Rendered.mnem_append :
    Text.firstWord t.text ++ t.text.drop (Text.firstWord t.text).length = t.text ∧
      ∀ c ∈ (t.text.drop (Text.firstWord t.text).length).head?, Text.isSpace c = true := by
  have hword : Text.firstWord t.text = t.text.takeWhile fun c => !Text.isSpace c := by
    rw [Text.firstWord, Text.lstrip_of_head t.stripped]
  have hsplit := List.takeWhile_append_dropWhile (p := fun c => !Text.isSpace c) (l := t.text)
  rw [← hword] at hsplit
  have hdrop : t.text.drop (Text.firstWord t.text).length =
      t.text.dropWhile fun c => !Text.isSpace c := by
    calc t.text.drop (Text.firstWord t.text).length
        = (Text.firstWord t.text ++ t.text.dropWhile fun c => !Text.isSpace c).drop
            (Text.firstWord t.text).length := by rw [hsplit]
      _ = t.text.dropWhile fun c => !Text.isSpace c := List.drop_left
  rw [hdrop]
  refine ⟨hsplit, fun c hc => ?_⟩
  have hnot := List.head?_dropWhile_not (fun c => !Text.isSpace c) t.text
  rw [hc] at hnot
  simpa using hnot

/-- The text behind the mnemonic starts with a blank, where the pattern wants a word. -/
theorem not_storesTo_behind_mnem :
    storesTo (t.text.drop (Text.firstWord t.text).length) = false := by
  have hspace := t.mnem_append.2
  generalize t.text.drop (Text.firstWord t.text).length = u at *
  have hhead : u.takeWhile isWordChar = [] := by
    rcases u with - | ⟨c, u⟩
    · rfl
    · refine List.takeWhile_cons_of_neg fun hword => ?_
      have hc := hspace c rfl
      rw [not_space_of_wordChar hword] at hc
      exact absurd hc (by decide)
  simp [storesTo, hhead]

theorem dispatches_eq :
    dispatches t.text = (((bracketed t.text).isSome && !onStack t.text) || isArithmetic t.text) := by
  simp [dispatches, not_storesTo_behind_mnem t]

/-- An instruction is counted as it should be, unless its bracket off the stack is no read, or
it reads memory without one. -/
theorem dispatches_eq_isDispatch_iff (m : MemoryReads) :
    dispatches t.text = m.isDispatch t.text ↔ (isArithmetic t.text = false →
      (m.reads t.text = true ↔ (bracketed t.text).isSome = true ∧ onStack t.text = false)) := by
  rw [dispatches_eq, MemoryReads.isDispatch]
  cases (bracketed t.text).isSome <;> cases onStack t.text <;> cases isArithmetic t.text <;>
    cases m.reads t.text <;> simp

end Instruction

/-! ## What it makes of a store -/

namespace StoreText

variable (s : StoreText)

theorem text_eq :
    s.rendered.text =
      ("mov ".toList ++ s.size ++ " PTR ".toList) ++ '[' :: (s.inner ++ ']' :: (", ".toList ++ s.src)) := by
  simp [rendered, ops]

theorem front_no_bracket : ∀ c ∈ "mov ".toList ++ s.size ++ " PTR ".toList, c ≠ '[' := by
  intro c hc
  simp only [List.mem_append] at hc
  rcases hc with (hc | hc) | hc
  · revert c
    decide
  · rintro rfl
    exact absurd (s.size_word.2 _ hc) (by decide)
  · revert c
    decide

theorem bracketed_eq : bracketed s.rendered.text = some s.inner := by
  rw [text_eq]
  exact bracketed_append s.front_no_bracket s.inner_plain.1 fun c hc => (s.inner_plain.2 c hc).2

theorem onStack_eq : onStack s.rendered.text = s.onFrame := by
  have hrest : ∀ c ∈ s.inner ++ ']' :: (", ".toList ++ s.src), c ≠ '[' := by
    intro c hc
    simp only [List.mem_append, List.mem_cons] at hc
    rcases hc with hc | rfl | hc | hc
    · exact (s.inner_plain.2 c hc).1
    · decide
    · revert c
      decide
    · rintro rfl
      exact absurd (s.src_low.2 _ hc) (by decide)
  have hesp := @take_append_bracket "esp".toList s.inner (", ".toList ++ s.src) (by decide)
  have hrsp := @take_append_bracket "rsp".toList s.inner (", ".toList ++ s.src) (by decide)
  rw [text_eq, onStack_append s.front_no_bracket, onStack, onStack_eq_false hrest, onFrame]
  simp only [Bool.or_false, beq_self_eq_true, Bool.true_and]
  rw [Bool.eq_iff_iff, Bool.or_eq_true, Bool.or_eq_true, beq_iff_eq, beq_iff_eq, beq_iff_eq,
    beq_iff_eq]
  exact or_congr hesp hrsp

theorem firstWord_eq : Text.firstWord s.rendered.text = "mov".toList := by
  have h : s.rendered.text = "mov".toList ++ (' ' :: s.ops) := rfl
  rw [h]
  exact Text.firstWord_append (by decide) (by decide) (by simp [Text.isSpace])

theorem not_isArithmetic : isArithmetic s.rendered.text = false := by
  rw [isArithmetic, firstWord_eq]
  decide

/-- A store is counted unless it goes through the stack pointer. -/
theorem dispatches_iff : dispatches s.rendered.text = true ↔ s.onFrame = false := by
  rw [dispatches_eq, bracketed_eq, onStack_eq, not_isArithmetic]
  simp

theorem not_isDispatch (m : MemoryReads) : m.isDispatch s.rendered.text = false := by
  rw [MemoryReads.isDispatch, m.store, not_isArithmetic]
  rfl

end StoreText

/-! ## The counts of a listing -/

theorem filter_eq_filter_iff {α : Type*} {p q : α → Bool} {l : List α} :
    l.filter p = l.filter q ↔ ∀ a ∈ l, p a = q a := by
  refine ⟨fun h a ha => ?_, List.filter_congr⟩
  have hmem : a ∈ l.filter p ↔ a ∈ l.filter q := by rw [h]
  rw [List.mem_filter, List.mem_filter] at hmem
  exact Bool.eq_iff_iff.mpr (by simpa [ha] using hmem)

theorem dispatchOps_insert (L₁ L₂ : List Text) (t : Text) :
    dispatchOps (L₁ ++ t :: L₂) =
      (if dispatches t then {shape t} else 0) + dispatchOps (L₁ ++ L₂) := by
  have hperm : (L₁ ++ t :: L₂).Perm (t :: (L₁ ++ L₂)) := List.perm_middle
  have h : dispatchOps (L₁ ++ t :: L₂) = dispatchOps (t :: (L₁ ++ L₂)) :=
    Multiset.coe_eq_coe.mpr ((hperm.filter _).map _)
  rw [h, dispatchOps, dispatchOps, List.filter_cons]
  split_ifs
  · rfl
  · rw [zero_add]

/-- A store leaves the counts, and every verdict of the oracle, as they were, and what is
counted is the dispatch, exactly when the store goes through the stack pointer and every other
instruction, the hash arithmetic apart, reads memory off the stack just where it has brackets
that do not begin with the stack pointer. -/
theorem store_not_dispatch_iff (m : MemoryReads) (L₁ L₂ : List Rendered) (s : StoreText) :
    let before := (L₁ ++ L₂).map Rendered.text
    let after := (L₁ ++ s.rendered :: L₂).map Rendered.text
    (dispatchOps after = dispatchOps before ∧
        (∀ window, oracleMissing after window = oracleMissing before window) ∧
        after.filter dispatches = after.filter m.isDispatch) ↔
      (s.onFrame = true ∧ ∀ t ∈ before, isArithmetic t = false →
        (m.reads t = true ↔ (bracketed t).isSome = true ∧ onStack t = false)) := by
  intro before after
  have hinsert : dispatchOps after = dispatchOps before ↔ s.onFrame = true := by
    have hafter : after = L₁.map Rendered.text ++ s.rendered.text :: L₂.map Rendered.text := by
      simp [after]
    have hbefore : before = L₁.map Rendered.text ++ L₂.map Rendered.text := by simp [before]
    rw [hafter, hbefore, dispatchOps_insert]
    cases hf : s.onFrame
    · rw [if_pos (s.dispatches_iff.mpr hf)]
      refine iff_of_false (fun h => ?_) (by decide)
      have := congrArg Multiset.card h
      rw [Multiset.card_add, Multiset.card_singleton] at this
      omega
    · rw [if_neg (fun h => by simp [s.dispatches_iff.mp h] at hf)]
      simp
  have hmem : ∀ t, t ∈ after ↔ t = s.rendered.text ∨ t ∈ before := by
    intro t
    simp only [after, before, List.map_append, List.map_cons, List.mem_append, List.mem_cons]
    tauto
  have hothers : (∀ t ∈ before, dispatches t = m.isDispatch t) ↔
      ∀ t ∈ before, isArithmetic t = false →
        (m.reads t = true ↔ (bracketed t).isSome = true ∧ onStack t = false) := by
    refine forall₂_congr fun t ht => ?_
    obtain ⟨r, -, rfl⟩ := List.mem_map.mp ht
    exact dispatches_eq_isDispatch_iff r m
  rw [hinsert, filter_eq_filter_iff, ← hothers]
  refine ⟨fun ⟨hf, _, h⟩ => ⟨hf, fun t ht => h t ((hmem t).mpr (Or.inr ht))⟩,
    fun ⟨hf, h⟩ => ⟨hf, fun window => ?_, fun t ht => ?_⟩⟩
  · rw [oracleMissing, oracleMissing, hinsert.mpr hf]
  · rcases (hmem t).mp ht with rfl | ht
    · rw [s.not_isDispatch, Bool.eq_false_iff]
      intro hd
      rw [s.dispatches_iff.mp hd] at hf
      exact absurd hf (by decide)
    · exact h t ht

/-- `mov QWORD PTR [rdi], rax`. -/
def heapStore : StoreText where
  size := "QWORD".toList
  inner := "rdi".toList
  src := "rax".toList
  size_word := by decide
  inner_plain := by decide
  src_low := by decide

/-- The store counts as dispatch, and a probe that has it fails the oracle. -/
theorem heap_store_dispatches :
    dispatchOps [heapStore.rendered.text] = {"mov QWORD PTR [r], r".toList} ∧
      oracleMissing [heapStore.rendered.text] [] ≠ oracleMissing [] [] := by
  have h : dispatchOps [heapStore.rendered.text] = {"mov QWORD PTR [r], r".toList} := by
    decide +kernel
  refine ⟨h, ?_⟩
  rw [oracleMissing, oracleMissing, h]
  decide +kernel

end OMB
