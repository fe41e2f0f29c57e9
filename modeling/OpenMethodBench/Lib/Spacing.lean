import OpenMethodBench.Lib.Text
import OpenMethodBench.Lib.Words

/-! White space in texts: runs of it collapsed to blanks, and the words between. -/

namespace Text

/-- `t.split()`. -/
def words (t : Text) : List Text := Words.words isSpace t

/-- `" ".join(t.split())`. -/
def respaced (t : Text) : Text := join ' ' (words t)

/-- `re.sub(r"\s+", " ", t)`; the flag says that the run `t` continues has been replaced. -/
def collapse : Bool → Text → Text
  | _, [] => []
  | inRun, c :: t =>
    if isSpace c then (if inRun then collapse true t else ' ' :: collapse true t)
    else c :: collapse false t

/-- What stands between white space. -/
structure IsWord (w : Text) : Prop where
  nonempty : w ≠ []
  solid : ∀ c ∈ w, isSpace c = false

theorem IsWord.head {w : Text} (h : IsWord w) : ∃ c, w.head? = some c ∧ isSpace c = false := by
  obtain ⟨c, u, rfl⟩ := List.exists_cons_of_ne_nil h.nonempty
  exact ⟨c, rfl, h.solid c List.mem_cons_self⟩

theorem isWord_of_mem {t w : Text} (h : w ∈ words t) : IsWord w :=
  ⟨(Words.mem_words h).1, (Words.mem_words h).2.1⟩

theorem mem_of_mem_words {t w : Text} (h : w ∈ words t) {c : Char} (hc : c ∈ w) : c ∈ t :=
  (Words.mem_words h).2.2 c hc

/-- Words joined by blanks are split into the same words. -/
theorem words_join {ws : List Text} (h : ∀ w ∈ ws, IsWord w) : words (join ' ' ws) = ws := by
  induction ws with
  | nil => rfl
  | cons w ws ih =>
    have hw := h w List.mem_cons_self
    have hrest := ih fun v hv => h v (List.mem_cons_of_mem w hv)
    cases ws with
    | nil => rw [join_singleton]; exact Words.words_word hw.nonempty hw.solid
    | cons v ws =>
      rw [join_cons_cons, words, Words.words_append_cons (by decide),
        Words.words_word hw.nonempty hw.solid]
      exact congrArg (w :: ·) hrest

@[simp] theorem words_respaced (t : Text) : words (respaced t) = words t :=
  words_join fun _ hw => isWord_of_mem hw

@[simp] theorem respaced_respaced (t : Text) : respaced (respaced t) = respaced t :=
  congrArg (join ' ') (words_respaced t)

theorem join_eq_nil_iff {ws : List Text} (h : ∀ w ∈ ws, IsWord w) : join ' ' ws = [] ↔ ws = [] := by
  refine ⟨fun hnil => ?_, fun hnil => by rw [hnil]; rfl⟩
  rw [← words_join h, hnil]
  exact Words.words_nil

theorem head_join {w : Text} {ws : List Text} (hw : IsWord w) :
    (join ' ' (w :: ws)).head? = w.head? := by
  cases ws with
  | nil => rw [join_singleton]
  | cons v ws => rw [join_cons_cons, List.head?_append_of_ne_nil _ hw.nonempty]

theorem getLast_join {ws : List Text} (h : ∀ w ∈ ws, IsWord w) :
    ∀ c ∈ (join ' ' ws).getLast?, isSpace c = false := by
  induction ws with
  | nil => exact fun c hc => absurd hc (by simp [join, List.intercalate])
  | cons w ws ih =>
    intro c hc
    cases ws with
    | nil =>
      rw [join_singleton] at hc
      exact (h w List.mem_cons_self).solid c (List.mem_of_getLast? hc)
    | cons v ws =>
      have hne : join ' ' (v :: ws) ≠ [] := fun hnil =>
        absurd ((join_eq_nil_iff fun x hx => h x (List.mem_cons_of_mem w hx)).mp hnil) (by simp)
      rw [join_cons_cons, List.getLast?_append_of_ne_nil _ (by simp),
        List.getLast?_cons_of_ne_nil hne] at hc
      exact ih (fun x hx => h x (List.mem_cons_of_mem w hx)) c hc

theorem trimmed_join {ws : List Text} (h : ∀ w ∈ ws, IsWord w) : Trimmed (join ' ' ws) := by
  refine ⟨?_, getLast_join h⟩
  rcases ws with - | ⟨w, ws⟩
  · exact fun c hc => absurd hc (by simp [join, List.intercalate])
  · have hw := h w List.mem_cons_self
    rw [head_join hw]
    exact fun c hc => hw.solid c (List.mem_of_mem_head? hc)

/-- Blanks between two texts keep their words apart. -/
theorem words_append_blanks {sep : Text} (hne : sep ≠ []) (hsep : ∀ c ∈ sep, isSpace c = true)
    (t u : Text) : words (t ++ (sep ++ u)) = words t ++ words u := by
  obtain ⟨c, s, rfl⟩ := List.exists_cons_of_ne_nil hne
  rw [List.cons_append, words, words, words,
    Words.words_append_cons (hsep c List.mem_cons_self),
    Words.words_seps_append fun d hd => hsep d (List.mem_cons_of_mem c hd)]

theorem words_intercalate {sep : Text} (hne : sep ≠ []) (hsep : ∀ c ∈ sep, isSpace c = true)
    (ps : List Text) : words (sep.intercalate ps) = ps.flatMap words := by
  induction ps with
  | nil => rfl
  | cons p ps ih =>
    rcases ps with - | ⟨q, qs⟩
    · rw [List.intercalate_singleton, List.flatMap_singleton]
    · rw [List.intercalate_cons_cons, List.append_assoc, words_append_blanks hne hsep, ih]
      rfl

theorem words_append_of_blank (t : Text) {s : Text} (hs : ∀ c ∈ s, isSpace c = true) :
    words (t ++ s) = words t := Words.words_append_seps t hs

theorem words_stripChar {c : Char} (hc : isSpace c = true) (t : Text) :
    words (stripChar c t) = words t := by
  have hchar : ∀ d : Char, (d == c) = true → isSpace d = true := fun d hd => eq_of_beq hd ▸ hc
  have hback : ∀ u : Text, words (u.rdropWhile (· == c)) = words u := by
    intro u
    induction u using List.reverseRecOn with
    | nil => rfl
    | append_singleton u d ih =>
      by_cases hd : (d == c) = true
      · rw [List.rdropWhile_concat_pos (· == c) u d hd, ih, words_append_of_blank]
        simpa using hchar d hd
      · rw [List.rdropWhile_concat_neg (· == c) u d hd]
  have hfront : words (t.dropWhile (· == c)) = words t := by
    have hpre : ∀ d ∈ t.takeWhile (· == c), isSpace d = true := by
      intro d hd
      have himp := List.mem_takeWhile_imp hd
      exact hchar d himp
    conv_rhs => rw [← List.takeWhile_append_dropWhile (p := (· == c)) (l := t)]
    exact (Words.words_seps_append hpre _).symm
  rw [stripChar, hback, hfront]

section Collapse

theorem collapse_of_isSpace {b : Bool} {c : Char} (hc : isSpace c = true) (t : Text) :
    collapse b (c :: t) = if b then collapse true t else ' ' :: collapse true t := by
  rw [collapse, if_pos hc]

/-- A run that has been replaced is passed over. -/
theorem collapse_run {pre : Text} (h : ∀ c ∈ pre, isSpace c = true) (t : Text) :
    collapse true (pre ++ t) = collapse true t := by
  induction pre with
  | nil => rfl
  | cons c pre ih =>
    rw [List.cons_append, collapse_of_isSpace (h c List.mem_cons_self), if_pos rfl]
    exact ih fun d hd => h d (List.mem_cons_of_mem c hd)

theorem collapse_solid {w : Text} (hne : w ≠ []) (h : ∀ c ∈ w, isSpace c = false) (b : Bool)
    (t : Text) : collapse b (w ++ t) = w ++ collapse false t := by
  induction w generalizing b with
  | nil => exact absurd rfl hne
  | cons c w ih =>
    rw [List.cons_append, collapse, if_neg (by simp [h c List.mem_cons_self]), List.cons_append]
    rcases w with - | ⟨d, w⟩
    · rfl
    · rw [ih (by simp) (fun e he => h e (List.mem_cons_of_mem c he))]

/-- Past a run, what is left are the words, and a blank where the text ends in white space. -/
theorem collapse_words (t : Text) :
    ∃ n, collapse true t = join ' ' (words t) ++ List.replicate n ' ' := by
  induction hn : t.length using Nat.strongRecOn generalizing t with
  | ind n ih =>
    by_cases hword : ∃ c ∈ t, isSpace c = false
    · obtain ⟨pre, w, post, ht, hpre, hne, hw, hpost, hwords⟩ := Words.words_eq_cons hword
      rw [ht, collapse_run hpre, collapse_solid hne hw, ← ht, words, hwords]
      rcases post with - | ⟨c, post⟩
      · exact ⟨0, by simp [collapse]⟩
      · have hc : isSpace c = true := hpost c rfl
        have hlen : (c :: post).length < n := by
          have := List.length_pos_iff.mpr hne
          rw [← hn, ht, List.length_append, List.length_append]
          omega
        obtain ⟨k, hk⟩ := ih (c :: post).length hlen (c :: post) rfl
        have hblank : collapse false (c :: post) = ' ' :: collapse true (c :: post) := by
          rw [collapse_of_isSpace hc, collapse_of_isSpace hc, if_neg (by decide), if_pos rfl]
        rw [hblank, hk]
        rcases hv : words (c :: post) with - | ⟨v, vs⟩
        · refine ⟨k + 1, ?_⟩
          rw [show Words.words isSpace (c :: post) = [] from hv, join_singleton, List.replicate_succ]
          rfl
        · refine ⟨k, ?_⟩
          rw [show Words.words isSpace (c :: post) = v :: vs from hv, join_cons_cons]
          simp
    · have hall : ∀ c ∈ t, isSpace c = true := by simpa using hword
      refine ⟨0, ?_⟩
      have hrun := collapse_run hall []
      rw [List.append_nil] at hrun
      rw [hrun, words, Words.words_seps hall]
      rfl

/-- Collapsed and stripped, a text is its words. -/
theorem strip_collapse (t : Text) : strip (collapse false t) = respaced t := by
  obtain ⟨n, hn⟩ := collapse_words t
  have hself : strip (join ' ' (words t)) = respaced t :=
    strip_eq_self (trimmed_join fun _ hw => isWord_of_mem hw)
  have hrun : strip (collapse true t) = respaced t := by
    rw [hn, strip_append_spaces, hself]
  rcases t with - | ⟨c, t⟩
  · rfl
  · by_cases hc : isSpace c = true
    · rw [collapse_of_isSpace hc, if_pos rfl] at hrun
      rw [collapse_of_isSpace hc, if_neg (by decide), strip_cons_space (by decide), hrun]
    · rw [collapse, if_neg hc] at hrun ⊢
      exact hrun

end Collapse

end Text
