import Mathlib.Data.List.DropRight
import Mathlib.Tactic.Common

/-! Texts as lists of characters: trimming, first words, and fields between
delimiters, after Python's string methods. -/

abbrev Text := List Char

namespace Text

/-- A claim about the characters of a text is decided along the text, whatever other way
to decide claims about characters is in scope. -/
instance (priority := high) decidableForallMem {p : Char → Prop} [DecidablePred p] (t : Text) :
    Decidable (∀ c ∈ t, p c) := List.decidableBAll p t

instance : LawfulBEq Text := inferInstanceAs (LawfulBEq (List Char))

/-- The characters `str.strip()` and `str.split()` take for white space. -/
def isSpace (c : Char) : Bool :=
  let n := c.toNat
  (9 ≤ n && n ≤ 13) || (28 ≤ n && n ≤ 32) || n == 0x85 || n == 0xa0 || n == 0x1680 ||
    (0x2000 ≤ n && n ≤ 0x200a) || n == 0x2028 || n == 0x2029 || n == 0x202f || n == 0x205f ||
    n == 0x3000

def lstrip (t : Text) : Text := t.dropWhile isSpace

def strip (t : Text) : Text := (lstrip t).rdropWhile isSpace

/-- `t.strip(c)` for one character. -/
def stripChar (c : Char) (t : Text) : Text := (t.dropWhile (· == c)).rdropWhile (· == c)

/-- `t.ljust(w)`. -/
def ljust (w : ℕ) (t : Text) : Text := t ++ List.replicate (w - t.length) ' '

/-- `t.split()[0]`. -/
def firstWord (t : Text) : Text := (lstrip t).takeWhile fun c => !isSpace c

/-- `sep.join(parts)` for a one-character separator. -/
def join (sep : Char) (parts : List Text) : Text := [sep].intercalate parts

/-- `sub in t`. -/
def occurs (sub : Text) : Text → Bool
  | [] => sub.isEmpty
  | c :: t => sub.isPrefixOf (c :: t) || occurs sub t

/-- Begins and ends with a character that is no white space. -/
def Trimmed (t : Text) : Prop :=
  (∀ c ∈ t.head?, isSpace c = false) ∧ ∀ c ∈ t.getLast?, isSpace c = false

theorem trimmed_of_forall {t : Text} (h : ∀ c ∈ t, isSpace c = false) : Trimmed t :=
  ⟨fun c hc => h c (List.mem_of_mem_head? hc), fun c hc => h c (List.mem_of_getLast? hc)⟩

theorem lstrip_of_head {t : Text} (h : ∀ c ∈ t.head?, isSpace c = false) : lstrip t = t := by
  cases t with
  | nil => rfl
  | cons c t =>
    unfold lstrip
    rw [List.dropWhile_cons_of_neg]
    simpa using h c rfl

theorem strip_eq_self {t : Text} (h : Trimmed t) : strip t = t := by
  unfold strip
  rw [lstrip_of_head h.1, List.rdropWhile_eq_self_iff]
  intro hne
  simpa using h.2 _ (List.getLast?_eq_some_getLast hne)

theorem strip_cons_space {c : Char} (hc : isSpace c = true) (t : Text) :
    strip (c :: t) = strip t := by
  unfold strip lstrip
  rw [List.dropWhile_cons_of_pos hc]

theorem strip_append_space {c : Char} (hc : isSpace c = true) (t : Text) :
    strip (t ++ [c]) = strip t := by
  have hl : lstrip (t ++ [c]) = lstrip t ++ [c] ∨ lstrip (t ++ [c]) = [] ∧ lstrip t = [] := by
    unfold lstrip
    by_cases hall : ∀ d ∈ t, isSpace d = true
    · right
      rw [List.dropWhile_append_of_pos hall]
      exact ⟨by simp [hc], List.dropWhile_eq_nil_iff.mpr hall⟩
    · left
      have hne : t.dropWhile isSpace ≠ [] := fun h => hall (List.dropWhile_eq_nil_iff.mp h)
      rw [List.dropWhile_append, if_neg (by simpa using hne)]
  unfold strip
  rcases hl with hl | ⟨hl, ht⟩
  · rw [hl, List.rdropWhile_concat_pos _ _ _ hc]
  · rw [hl, ht]

theorem strip_append_spaces (t : Text) (n : ℕ) : strip (t ++ List.replicate n ' ') = strip t := by
  induction n with
  | zero => rw [List.replicate_zero, List.append_nil]
  | succ n ih =>
    rw [List.replicate_succ', ← List.append_assoc, strip_append_space (by decide), ih]

theorem strip_sublist (t : Text) : (strip t).Sublist t :=
  (List.rdropWhile_prefix isSpace (lstrip t)).sublist.trans (List.dropWhile_sublist isSpace)

/-- What is stripped off is white space. -/
theorem exists_strip (t : Text) :
    ∃ pre post, t = pre ++ (strip t ++ post) ∧ (∀ c ∈ pre, isSpace c = true) ∧
      ∀ c ∈ post, isSpace c = true := by
  refine ⟨t.takeWhile isSpace, (lstrip t).rtakeWhile isSpace, ?_,
    fun c hc => List.mem_takeWhile_imp hc, fun c hc => List.mem_rtakeWhile_imp hc⟩
  rw [strip, List.rdropWhile_append_rtakeWhile, lstrip, List.takeWhile_append_dropWhile]

theorem trimmed_strip (t : Text) : Trimmed (strip t) := by
  have hpre : strip t <+: lstrip t := List.rdropWhile_prefix isSpace (lstrip t)
  refine ⟨fun c hc => ?_, fun c hc => ?_⟩
  · obtain ⟨u, hu⟩ := hpre
    have hhead : (lstrip t).head? = some c := by
      rw [← hu, List.head?_append_of_ne_nil _ (List.ne_nil_of_mem (List.mem_of_mem_head? hc))]
      exact hc
    have hnot := List.head?_dropWhile_not isSpace t
    rw [show (List.dropWhile isSpace t).head? = some c from hhead] at hnot
    simpa using hnot
  · have hne : strip t ≠ [] := List.ne_nil_of_mem (List.mem_of_getLast? hc)
    have hnot : ¬ isSpace ((strip t).getLast hne) = true :=
      List.rdropWhile_last_not isSpace (lstrip t) hne
    rw [List.getLast?_eq_some_getLast hne] at hc
    rw [← Option.some.inj hc]
    simpa using hnot

/-- A word between delimiters that are cut off. -/
theorem stripChar_between {c : Char} {t : Text} (hh : ∀ d ∈ t.head?, d ≠ c)
    (hl : ∀ d ∈ t.getLast?, d ≠ c) : stripChar c (c :: t ++ [c]) = t := by
  unfold stripChar
  rw [List.cons_append, List.dropWhile_cons_of_pos (by simp)]
  cases t with
  | nil => simp
  | cons d t =>
    have hd : (d == c) = false := beq_eq_false_iff_ne.mpr (hh d rfl)
    rw [List.cons_append, List.dropWhile_cons_of_neg (by simp [hd]), ← List.cons_append,
      List.rdropWhile_concat_pos _ _ _ (by simp), List.rdropWhile_eq_self_iff]
    intro hne
    simpa using hl _ (List.getLast?_eq_some_getLast hne)

theorem takeWhile_append_of_head {α : Type*} {p : α → Bool} {w r : List α}
    (hw : ∀ c ∈ w, p c = true) (hr : ∀ c ∈ r.head?, p c = false) :
    (w ++ r).takeWhile p = w := by
  rw [List.takeWhile_append_of_pos hw]
  cases r with
  | nil => simp
  | cons c r => simp [hr c rfl]

theorem dropWhile_append_of_head {α : Type*} {p : α → Bool} {w r : List α}
    (hw : ∀ c ∈ w, p c = true) (hr : ∀ c ∈ r.head?, p c = false) :
    (w ++ r).dropWhile p = r := by
  rw [List.dropWhile_append_of_pos hw]
  cases r with
  | nil => rfl
  | cons c r => simp [hr c rfl]

theorem firstWord_append {w r : Text} (hne : w ≠ []) (hw : ∀ c ∈ w, isSpace c = false)
    (hr : ∀ c ∈ r.head?, isSpace c = true) : firstWord (w ++ r) = w := by
  unfold firstWord
  rw [lstrip_of_head, takeWhile_append_of_head]
  · simpa using hw
  · simpa using hr
  · obtain ⟨c, w, rfl⟩ := List.exists_cons_of_ne_nil hne
    simpa using hw c (by simp)

theorem splitOn_join {sep : Char} {parts : List Text} (hne : parts ≠ [])
    (h : ∀ p ∈ parts, sep ∉ p) : (join sep parts).splitOn sep = parts :=
  List.splitOn_intercalate sep h hne

@[simp] theorem join_singleton (sep : Char) (p : Text) : join sep [p] = p := by
  simp [join, List.intercalate]

@[simp] theorem join_cons_cons (sep : Char) (p q : Text) (ps : List Text) :
    join sep (p :: q :: ps) = p ++ sep :: join sep (q :: ps) := by
  simp [join, List.intercalate]

theorem mem_join {sep c : Char} {parts : List Text} (h : c ∈ join sep parts) :
    c = sep ∨ ∃ p ∈ parts, c ∈ p := by
  induction parts with
  | nil => simp [join, List.intercalate] at h
  | cons p ps ih =>
    rcases ps with - | ⟨q, qs⟩
    · exact Or.inr ⟨p, List.mem_cons_self, by simpa using h⟩
    · rw [join_cons_cons, List.mem_append, List.mem_cons] at h
      rcases h with h | h | h
      · exact Or.inr ⟨p, List.mem_cons_self, h⟩
      · exact Or.inl h
      · exact (ih h).imp_right fun ⟨r, hr, hc⟩ => ⟨r, List.mem_cons_of_mem p hr, hc⟩

/-- No field of a text holds the separator. -/
theorem not_mem_of_mem_splitOn {sep : Char} {t p : Text} (h : p ∈ t.splitOn sep) : sep ∉ p := by
  induction hn : t.length using Nat.strongRecOn generalizing t with
  | ind n ih =>
    by_cases hsep : sep ∈ t
    · obtain ⟨u, v, rfl, hu⟩ := List.eq_append_cons_of_mem hsep
      rw [List.splitOn_append_cons_self_of_not_mem hu] at h
      rcases List.mem_cons.mp h with rfl | h
      · exact hu
      · refine ih v.length ?_ h rfl
        rw [← hn, List.length_append, List.length_cons]
        omega
    · rw [List.splitOn_eq_singleton hsep] at h
      exact List.mem_singleton.mp h ▸ hsep

theorem mem_of_mem_splitOn {sep c : Char} {t p : Text} (h : p ∈ t.splitOn sep) (hc : c ∈ p) :
    c ∈ t := by
  have hjoin : join sep (t.splitOn sep) = t := List.intercalate_splitOn sep
  obtain ⟨as, bs, hsplit⟩ := List.append_of_mem h
  rw [← hjoin, hsplit]
  clear hjoin hsplit h
  induction as with
  | nil =>
    cases bs with
    | nil => simpa using hc
    | cons b bs =>
      rw [List.nil_append, join_cons_cons]
      exact List.mem_append_left _ hc
  | cons a as ih =>
    obtain ⟨q, qs, hq⟩ := List.exists_cons_of_ne_nil (show as ++ p :: bs ≠ [] by simp)
    rw [List.cons_append, hq, join_cons_cons, ← hq]
    exact List.mem_append_right _ (List.mem_cons_of_mem _ ih)

/-- Pieces that each end in a separator, split: an empty piece follows the last. -/
theorem splitOn_terminated {sep : Char} {parts : List Text} (h : ∀ p ∈ parts, sep ∉ p) :
    (parts.flatMap fun p => p ++ [sep]).splitOn sep = parts ++ [[]] := by
  have hjoin : ∀ ps : List Text, (ps.flatMap fun p => p ++ [sep]) = join sep (ps ++ [[]]) := by
    intro ps
    induction ps with
    | nil => rfl
    | cons p ps ih =>
      obtain ⟨q, qs, hq⟩ : ∃ q qs, ps ++ [[]] = q :: qs := by
        rcases ps with - | ⟨q, qs⟩
        · exact ⟨[], [], rfl⟩
        · exact ⟨q, qs ++ [[]], rfl⟩
      rw [List.flatMap_cons, ih, List.cons_append, hq, join_cons_cons, List.append_assoc]
      rfl
  rw [hjoin, splitOn_join (by simp)]
  intro p hp
  rcases List.mem_append.mp hp with hp | hp
  · exact h p hp
  · rw [List.mem_singleton.mp hp]
    simp

end Text
