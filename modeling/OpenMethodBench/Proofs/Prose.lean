import Mathlib
import OpenMethodBench.Spec.Document

/-! `prose` re-fills what it prints: every word stays, and no line is too wide. -/

namespace OMB

/-! ## Blocks and items put together again -/

theorem intercalate_modifyHead (sep : Text) (c : Char) {ps : List Text} (h : ps ≠ []) :
    sep.intercalate (ps.modifyHead (c :: ·)) = c :: sep.intercalate ps := by
  obtain ⟨p, qs, rfl⟩ := List.exists_cons_of_ne_nil h
  exact List.intercalate_cons_cons_left

theorem splitBlocks_ne_nil (t : Text) : splitBlocks t ≠ [] := by
  induction t using splitBlocks.induct with
  | case1 t ih => simp [splitBlocks]
  | case2 c t hnot ih => simpa [splitBlocks] using ih
  | case3 => simp [splitBlocks]

theorem intercalate_splitBlocks (t : Text) : "\n\n".toList.intercalate (splitBlocks t) = t := by
  induction t using splitBlocks.induct with
  | case1 t ih =>
    rw [splitBlocks, List.intercalate_cons_of_ne_nil (splitBlocks_ne_nil t), ih]
    rfl
  | case2 c t hnot ih =>
    rw [splitBlocks, intercalate_modifyHead _ _ (splitBlocks_ne_nil t), ih]
    exact hnot
  | case3 => rfl

theorem splitItems_ne_nil (t : Text) : splitItems t ≠ [] := by
  induction t with
  | nil => simp [splitItems]
  | cons c t ih =>
    rw [splitItems]
    split_ifs
    · simp
    · simpa using ih

theorem join_splitItems (t : Text) : Text.join '\n' (splitItems t) = t := by
  induction t with
  | nil => rfl
  | cons c t ih =>
    rw [splitItems]
    split_ifs with h
    · have hc : c = '\n' := by
        rw [Bool.and_eq_true, beq_iff_eq] at h
        exact h.1
      rw [Text.join, List.intercalate_cons_of_ne_nil (splitItems_ne_nil t), ← Text.join, ih, hc]
      rfl
    · rw [Text.join, intercalate_modifyHead _ _ (splitItems_ne_nil t), ← Text.join, ih]

/-! ## Words -/

theorem words_lines (ps : List Text) : Text.words (Text.join '\n' ps) = ps.flatMap Text.words :=
  Text.words_intercalate (by simp) (by decide) ps

theorem words_indented (item : Text) {e : List Text × ℕ} (h : ∀ w ∈ e.1, Text.IsWord w) :
    Text.words (indented (hanging item) e) = e.1 := by
  have hblank : ∀ c ∈ (if e.2 = 0 then [] else hanging item), Text.isSpace c = true := by
    rw [hanging]
    split_ifs <;> decide
  rw [indented, Text.words, Words.words_seps_append hblank]
  exact Text.words_join h

theorem words_fillItem (item : Text) : Text.words (fillItem item) = Text.words item := by
  have hline : ∀ e ∈ (Fill.fill List.length (itemRoom (hanging item)) (Text.words item)).zipIdx,
      Text.words (indented (hanging item) e) = e.1 := fun e he =>
    words_indented item fun w hw =>
      Text.isWord_of_mem (Fill.subset_of_mem_fill (List.fst_mem_of_mem_zipIdx he) hw)
  rw [fillItem, words_lines, List.flatMap_map, List.flatMap_congr hline, List.flatMap_def,
    List.zipIdx_map_fst, Fill.flatten_fill]

theorem words_proseBlock (block : Text) : Text.words (proseBlock block) = Text.words block := by
  rw [proseBlock]
  split_ifs
  · rfl
  · rw [words_lines, List.flatMap_map]
    simp only [words_fillItem]
    rw [← words_lines, join_splitItems]

/-- No word of the prose is lost, printed twice or moved. -/
theorem words_prose (text : Text) : Text.words (prose text) = Text.words text := by
  have hsplit : ∀ ps : List Text, Text.words ("\n\n".toList.intercalate ps) = ps.flatMap Text.words :=
    Text.words_intercalate (by decide) (by decide)
  rw [prose, Text.words_append_of_blank _ (by decide), hsplit, List.flatMap_map]
  simp only [words_proseBlock]
  rw [← hsplit, intercalate_splitBlocks]
  exact Text.words_stripChar (by decide) text

/-- Apart from blanks, the prose holds what its text does. -/
theorem mem_of_mem_prose {text : Text} {c : Char} (h : c ∈ prose text)
    (hc : Text.isSpace c = false) : c ∈ text := by
  obtain ⟨w, hw, hcw⟩ := Words.exists_word h hc
  have hword : w ∈ Text.words text := words_prose text ▸ hw
  exact Text.mem_of_mem_words hword hcw

/-! ## Lines -/

/-- The lines of a text. -/
def linesOf (t : Text) : List Text := t.splitOn '\n'

theorem linesOf_append_cons (t u : Text) : linesOf (t ++ '\n' :: u) = linesOf t ++ linesOf u :=
  List.splitOn_append_cons_self t u

theorem linesOf_join {ps : List Text} (h : ps ≠ []) :
    linesOf (Text.join '\n' ps) = ps.flatMap linesOf := by
  induction ps with
  | nil => exact absurd rfl h
  | cons p ps ih =>
    rcases ps with - | ⟨q, qs⟩
    · rw [Text.join_singleton, List.flatMap_singleton]
    · rw [Text.join_cons_cons, linesOf_append_cons, ih (List.cons_ne_nil q qs)]
      rfl

theorem join_linesOf (t : Text) : Text.join '\n' (linesOf t) = t := List.intercalate_splitOn '\n'

/-- The words of a line are words of the text. -/
theorem words_subset_of_mem_linesOf {t l : Text} (h : l ∈ linesOf t) : Text.words l ⊆ Text.words t := by
  intro w hw
  rw [← join_linesOf t, words_lines]
  exact List.mem_flatMap.mpr ⟨l, h, hw⟩

theorem mem_linesOf_intercalate {ps : List Text} {l : Text}
    (h : l ∈ linesOf ("\n\n".toList.intercalate ps)) : l = [] ∨ ∃ p ∈ ps, l ∈ linesOf p := by
  induction ps with
  | nil => exact Or.inl (List.mem_singleton.mp h)
  | cons p ps ih =>
    rcases ps with - | ⟨q, qs⟩
    · rw [List.intercalate_singleton] at h
      exact Or.inr ⟨p, List.mem_cons_self, h⟩
    · rw [List.intercalate_cons_cons] at h
      change l ∈ linesOf (p ++ ['\n', '\n'] ++ "\n\n".toList.intercalate (q :: qs)) at h
      rw [List.append_assoc, List.cons_append, linesOf_append_cons, List.singleton_append] at h
      rcases List.mem_append.mp h with h | h
      · exact Or.inr ⟨p, List.mem_cons_self, h⟩
      · have hnil := linesOf_append_cons [] ("\n\n".toList.intercalate (q :: qs))
        rw [List.nil_append] at hnil
        rw [hnil] at h
        rcases List.mem_append.mp h with h | h
        · exact Or.inl (List.mem_singleton.mp h)
        · exact (ih h).imp_right fun ⟨r, hr, hl⟩ => ⟨r, List.mem_cons_of_mem p hr, hl⟩

theorem length_joined (ws : List Text) : (Text.join ' ' ws).length = Fill.width List.length ws := by
  induction ws with
  | nil => rfl
  | cons w ws ih =>
    rcases ws with - | ⟨v, vs⟩
    · rw [Text.join_singleton]
      rfl
    · rw [Text.join_cons_cons, List.length_append, List.length_cons, ih,
        Fill.width_cons (List.cons_ne_nil v vs)]
      omega

/-- A filled line, with its indent, is a single word or within the 78 columns. -/
theorem width_fillItem {item l : Text} (h : l ∈ linesOf (fillItem item)) :
    l.length ≤ 78 ∨ (Text.words l).length = 1 := by
  rcases hfill : (Fill.fill List.length (itemRoom (hanging item)) (Text.words item)).zipIdx with - | ⟨e, es⟩
  · rw [fillItem, hfill] at h
    rw [List.mem_singleton.mp h]
    exact Or.inl (Nat.zero_le 78)
  · have hword : ∀ e ∈ (Fill.fill List.length (itemRoom (hanging item)) (Text.words item)).zipIdx,
        ∀ w ∈ e.1, Text.IsWord w := fun e he w hw =>
      Text.isWord_of_mem (Fill.subset_of_mem_fill (List.fst_mem_of_mem_zipIdx he) hw)
    have hsingle : ∀ t ∈ (Fill.fill List.length (itemRoom (hanging item)) (Text.words item)).zipIdx.map
        (indented (hanging item)), '\n' ∉ t := by
      intro t ht hmem
      obtain ⟨e, he, rfl⟩ := List.mem_map.mp ht
      rcases List.mem_append.mp hmem with hmem | hmem
      · rw [hanging] at hmem
        split_ifs at hmem <;> exact absurd hmem (by decide)
      · rcases Text.mem_join hmem with hc | ⟨w, hw, hc⟩
        · exact absurd hc (by decide)
        · exact absurd ((hword e he w hw).solid _ hc) (by decide)
    rw [fillItem, linesOf, Text.splitOn_join (by rw [hfill]; simp) hsingle] at h
    obtain ⟨⟨line, i⟩, he, rfl⟩ := List.mem_map.mp h
    rcases Fill.fits_fill _ _ i line (List.mem_zipIdx_iff_getElem?.mp he) with hone | hfit
    · exact Or.inr (by rw [words_indented item (hword _ he)]; exact hone)
    · refine Or.inl ?_
      rw [indented, List.length_append, length_joined]
      rw [itemRoom] at hfit
      have hindent : (hanging item).length ≤ 78 := by
        rw [hanging]
        split_ifs <;> decide
      split_ifs at hfit ⊢
      · simpa using hfit
      · exact Nat.add_le_of_le_sub' hindent hfit

/-- Only a block that is printed as it is, or a word on its own, is wider. -/
theorem width_prose {text l : Text} (h : l ∈ linesOf (prose text)) :
    l.length ≤ 78 ∨ (Text.words l).length = 1 ∨
      ∃ block ∈ splitBlocks (Text.stripChar '\n' text), isVerbatim block = true ∧ l ∈ linesOf block := by
  change l ∈ linesOf (_ ++ '\n' :: []) at h
  rw [linesOf_append_cons] at h
  rcases List.mem_append.mp h with h | h
  · rcases mem_linesOf_intercalate h with rfl | ⟨p, hp, hl⟩
    · exact Or.inl (Nat.zero_le 78)
    · obtain ⟨block, hblock, rfl⟩ := List.mem_map.mp hp
      rw [proseBlock] at hl
      split_ifs at hl with hverb
      · exact Or.inr (Or.inr ⟨block, hblock, hverb, hl⟩)
      · rw [linesOf_join (by simpa using splitItems_ne_nil block)] at hl
        obtain ⟨q, hq, hl⟩ := List.mem_flatMap.mp hl
        obtain ⟨item, -, rfl⟩ := List.mem_map.mp hq
        exact (width_fillItem hl).imp_right Or.inl
  · rw [List.mem_singleton.mp h]
    exact Or.inl (Nat.zero_le 78)

/-- Re-filling keeps every word in its place, and the lines within their columns. -/
theorem prose_refilled (text : Text) :
    Text.words (prose text) = Text.words text ∧ ∀ l ∈ linesOf (prose text),
      l.length ≤ 78 ∨ (Text.words l).length = 1 ∨
        ∃ block ∈ splitBlocks (Text.stripChar '\n' text), isVerbatim block = true ∧ l ∈ linesOf block :=
  ⟨words_prose text, fun _ => width_prose⟩

end OMB
