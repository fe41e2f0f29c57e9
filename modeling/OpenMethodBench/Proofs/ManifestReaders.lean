import Mathlib
import OpenMethodBench.Spec.Document
import OpenMethodBench.Spec.Scripts

/-! The two readers of the manifest, line by line: where `report.py` sees the commands the
scripts loop over. -/

namespace OMB

open Words

/-! ## The scripts, line by line -/

/-- What the scripts take from a line. -/
def loopLine (space : Char → Bool) (l : Text) : List Text :=
  if isComment space l || isBlank space l then [] else words isIfs l

theorem flatMap_dropLast {f : Text → List Text} (hf : f [] = []) {ls : List Text}
    (hl : ls.getLast? = some []) : ls.dropLast.flatMap f = ls.flatMap f := by
  have hne : ls ≠ [] := by
    rintro rfl
    exact absurd hl (by simp)
  have hsplit : ls = ls.dropLast ++ [[]] := by
    conv_lhs => rw [← List.dropLast_append_getLast? [] hl]
  conv_rhs => rw [hsplit]
  rw [List.flatMap_append, List.flatMap_singleton, hf, List.append_nil]

/-- An end of file after the last line end makes no line. -/
theorem flatMap_fileLines {f : Text → List Text} (hf : f [] = []) (t : Text) :
    (fileLines t).flatMap f = (t.splitOn '\n').flatMap f := by
  unfold fileLines
  dsimp only
  split_ifs with h
  · exact flatMap_dropLast hf h
  · rfl

theorem no_newline_fileLines {t : Text} : ∀ l ∈ fileLines t, '\n' ∉ l := by
  intro l hl
  have hmem : l ∈ t.splitOn '\n' := by
    unfold fileLines at hl
    dsimp only at hl
    split_ifs at hl
    · exact List.dropLast_subset _ hl
    · exact hl
  exact Text.not_mem_of_mem_splitOn hmem

theorem fileLines_terminated {ls : List Text} (h : ∀ l ∈ ls, '\n' ∉ l) :
    fileLines (ls.flatMap fun l => l ++ ['\n']) = ls := by
  unfold fileLines
  dsimp only
  rw [Text.splitOn_terminated h, if_pos (by simp), List.dropLast_concat]

theorem loopCommands_eq (space : Char → Bool) (conf : Text) :
    loopCommands space conf = (conf.splitOn '\n').flatMap (loopLine space) := by
  have hends : ∀ t : Text, words isIfs (t.rdropWhile (· == '\n')) = words isIfs t := by
    intro t
    have hsplit : t.rdropWhile (· == '\n') ++ t.rtakeWhile (· == '\n') = t :=
      List.rdropWhile_append_rtakeWhile
    have hseps : ∀ c ∈ t.rtakeWhile (· == '\n'), isIfs c = true := by
      intro c hc
      have hnl := List.mem_rtakeWhile_imp hc
      rw [beq_iff_eq.mp hnl]
      rfl
    conv_rhs => rw [← hsplit]
    rw [words_append_seps _ hseps]
  have hkept : ∀ l ∈ (fileLines conf).filter (fun l => !isComment space l), '\n' ∉ l :=
    fun l hl => no_newline_fileLines l (List.mem_of_mem_filter hl)
  rw [loopCommands, ccList, hends, grepV, grepV, fileLines_terminated hkept,
    words_flatMap_lines (by rfl), List.filter_filter, ← flatMap_fileLines (by rfl)]
  induction fileLines conf with
  | nil => rfl
  | cons l ls ih =>
    rw [List.filter_cons, List.flatMap_cons, ← ih, loopLine]
    cases isComment space l with
    | true => simp
    | false =>
      cases isBlank space l with
      | true => simp
      | false => simp

/-! ## `report.py`, line by line -/

/-- A line `report.py` keeps. -/
def keepsLine (l : Text) : Bool := !(Text.strip l).isEmpty && (Text.lstrip l).head? != some '#'

/-- What `report.py` takes from a line: carriage returns end lines as well. -/
def reportLine (l : Text) : List Text := ((l.splitOn '\r').filter keepsLine).map Text.strip

def isEol (c : Char) : Bool := c == '\n' || c == '\r'

theorem splitOn_cons_of_ne {sep c : Char} (h : c ≠ sep) (t : Text) :
    (c :: t).splitOn sep = (t.splitOn sep).modifyHead (c :: ·) := by
  rw [List.splitOn_cons_eq_if_modifyHead, if_neg (by simpa using h)]

/-- Splitting at either line end: the line feeds first. -/
theorem splitOnP_isEol (t : Text) :
    t.splitOnP isEol = (t.splitOn '\n').flatMap fun l => l.splitOn '\r' := by
  induction t with
  | nil => rfl
  | cons c t ih =>
    rw [List.splitOnP_cons_eq_if_modifyHead, ih]
    obtain ⟨l, ls, hls⟩ := List.exists_cons_of_ne_nil (List.splitOn_ne_nil '\n' t)
    obtain ⟨p, ps, hps⟩ := List.exists_cons_of_ne_nil (List.splitOn_ne_nil '\r' l)
    by_cases hn : c = '\n'
    · subst hn
      rw [if_pos (by rfl), List.splitOn_cons_eq_if_modifyHead, if_pos (by rfl)]
      rfl
    · rw [splitOn_cons_of_ne hn, hls, List.modifyHead_cons, List.flatMap_cons, List.flatMap_cons]
      by_cases hr : c = '\r'
      · subst hr
        rw [if_pos (by rfl), List.splitOn_cons_eq_if_modifyHead, if_pos (by rfl)]
        rfl
      · rw [if_neg (by simp [isEol, hn, hr]), splitOn_cons_of_ne hr, hps]
        rfl

/-- The lines of the file opened as text, empty ones apart. -/
theorem splitOn_universalNewlines (t : Text) :
    ((universalNewlines t).splitOn '\n').head? = (t.splitOnP isEol).head? ∧
      ((universalNewlines t).splitOn '\n').tail.filter (fun l => !l.isEmpty) =
        (t.splitOnP isEol).tail.filter fun l => !l.isEmpty := by
  have hcons : ∀ {a b : List Text}, a ≠ [] → b ≠ [] → a.head? = b.head? →
      a.tail.filter (fun l => !l.isEmpty) = b.tail.filter (fun l => !l.isEmpty) →
      a.filter (fun l => !l.isEmpty) = b.filter fun l => !l.isEmpty := by
    intro a b ha hb hh ht
    obtain ⟨x, xs, rfl⟩ := List.exists_cons_of_ne_nil ha
    obtain ⟨y, ys, rfl⟩ := List.exists_cons_of_ne_nil hb
    obtain rfl := Option.some.inj hh
    rw [List.filter_cons, List.filter_cons, show xs.filter (fun l => !l.isEmpty) = ys.filter (fun l => !l.isEmpty) from ht]
  have hend : ∀ t : Text, ('\n' :: t).splitOn '\n' = [] :: t.splitOn '\n' := fun t => by
    rw [List.splitOn_cons_eq_if_modifyHead, if_pos (by rfl)]
  have heol : ∀ (c : Char) (t : Text), isEol c = true →
      (c :: t).splitOnP isEol = [] :: t.splitOnP isEol := fun c t hc => by
    rw [List.splitOnP_cons_eq_if_modifyHead, if_pos hc]
  induction t using universalNewlines.induct with
  | case1 t ih =>
    rw [universalNewlines, hend, heol '\r' _ rfl, heol '\n' _ rfl]
    refine ⟨rfl, ?_⟩
    rw [List.tail_cons, List.tail_cons, List.filter_cons_of_neg (by simp)]
    exact hcons (List.splitOn_ne_nil _ _) (List.splitOnP_ne_nil _ _) ih.1 ih.2
  | case2 t hnot ih =>
    rw [universalNewlines.eq_2 t hnot, hend, heol '\r' _ rfl]
    exact ⟨rfl, hcons (List.splitOn_ne_nil _ _) (List.splitOnP_ne_nil _ _) ih.1 ih.2⟩
  | case3 c t hnot hr ih =>
    have hc : universalNewlines (c :: t) = c :: universalNewlines t := by
      rw [universalNewlines]
      · exact hnot
      · exact hr
    by_cases hn : c = '\n'
    · subst hn
      rw [hc, hend, heol '\n' _ rfl]
      exact ⟨rfl, hcons (List.splitOn_ne_nil _ _) (List.splitOnP_ne_nil _ _) ih.1 ih.2⟩
    · have hcr : c ≠ '\r' := fun h => hr h
      rw [hc, splitOn_cons_of_ne hn, List.splitOnP_cons_eq_if_modifyHead,
        if_neg (by simp [isEol, hn, hcr])]
      obtain ⟨x, xs, hx⟩ := List.exists_cons_of_ne_nil (List.splitOn_ne_nil '\n' (universalNewlines t))
      obtain ⟨y, ys, hy⟩ := List.exists_cons_of_ne_nil (List.splitOnP_ne_nil isEol t)
      rw [hx, hy] at ih ⊢
      obtain rfl := Option.some.inj ih.1
      exact ⟨rfl, ih.2⟩
  | case4 => exact ⟨rfl, rfl⟩

theorem filter_keepsLine {ls : List Text} :
    ls.filter keepsLine = (ls.filter fun l => !l.isEmpty).filter keepsLine := by
  rw [List.filter_filter]
  refine List.filter_congr fun l _ => ?_
  cases l with
  | nil => rfl
  | cons c l => simp

theorem compilers_eq (conf : Text) :
    compilers conf = (conf.splitOn '\n').flatMap reportLine := by
  have hlines : ((universalNewlines conf).splitOn '\n').filter keepsLine =
      (conf.splitOnP isEol).filter keepsLine := by
    obtain ⟨hh, ht⟩ := splitOn_universalNewlines conf
    obtain ⟨x, xs, hx⟩ :=
      List.exists_cons_of_ne_nil (List.splitOn_ne_nil '\n' (universalNewlines conf))
    obtain ⟨y, ys, hy⟩ := List.exists_cons_of_ne_nil (List.splitOnP_ne_nil isEol conf)
    rw [hx, hy] at hh ht ⊢
    obtain rfl := Option.some.inj hh
    rw [List.tail_cons, List.tail_cons] at ht
    rw [List.filter_cons, List.filter_cons, @filter_keepsLine xs, @filter_keepsLine ys, ht]
  have hcompilers : compilers conf =
      (((universalNewlines conf).splitOn '\n').filter keepsLine).map Text.strip := rfl
  rw [hcompilers, hlines, splitOnP_isEol, List.filter_flatMap, List.map_flatMap]
  rfl

/-! ## One line -/

section Line

variable {space : Char → Bool}

/-- Between blanks, one word that neither begins nor ends with white space. -/
structure OneWord (l : Text) (w : Text) : Prop where
  spelled : ∃ pre post, l = pre ++ (w ++ post) ∧ ∀ c ∈ pre ++ post, isIfs c = true
  ne_nil : w ≠ []
  trimmed : Text.Trimmed w
  plain : ∀ c ∈ w, isIfs c = false ∧ c ≠ '\r'

theorem isSpace_of_isIfs {c : Char} (h : isIfs c = true) : Text.isSpace c = true := by
  simp only [isIfs, Bool.or_eq_true, beq_iff_eq] at h
  rcases h with (rfl | rfl) | rfl <;> rfl

theorem ne_cr_of_isIfs {c : Char} (h : isIfs c = true) : c ≠ '\r' := by
  rintro rfl
  exact absurd h (by decide)

theorem rdropWhile_append_of_forall {p : Char → Bool} (t : Text) {u : Text}
    (h : ∀ c ∈ u, p c = true) : (t ++ u).rdropWhile p = t.rdropWhile p := by
  rw [List.rdropWhile, List.reverse_append, List.dropWhile_append_of_pos fun c hc => ?_]
  · rfl
  · exact h c (List.mem_reverse.mp hc)

theorem rdropWhile_append_of_exists {p : Char → Bool} (t : Text) {u : Text}
    (h : ∃ e ∈ u, p e = false) : (t ++ u).rdropWhile p = t ++ u.rdropWhile p := by
  obtain ⟨e, he, hpe⟩ := h
  have hne : u.reverse.dropWhile p ≠ [] := by
    intro hnil
    have hall := List.dropWhile_eq_nil_iff.mp hnil e (List.mem_reverse.mpr he)
    exact absurd hall (by simp [hpe])
  rw [List.rdropWhile, List.reverse_append, List.dropWhile_append, if_neg (by simpa using hne),
    List.reverse_append, List.reverse_reverse]
  rfl

theorem head_not_space {w : Text} (hw : Text.Trimmed w) (post : Text) (hne : w ≠ []) :
    ∀ c ∈ (w ++ post).head?, Text.isSpace c = false := by
  intro c hc
  rw [List.head?_append_of_ne_nil _ hne] at hc
  exact hw.1 c hc

theorem OneWord.no_cr {l w : Text} (h : OneWord l w) : '\r' ∉ l := by
  obtain ⟨pre, post, rfl, hblank⟩ := h.spelled
  intro hmem
  rcases List.mem_append.mp hmem with hmem | hmem
  · exact ne_cr_of_isIfs (hblank _ (List.mem_append_left _ hmem)) rfl
  rcases List.mem_append.mp hmem with hmem | hmem
  · exact (h.plain _ hmem).2 rfl
  · exact ne_cr_of_isIfs (hblank _ (List.mem_append_right _ hmem)) rfl

theorem OneWord.lstrip_eq {l w : Text} (h : OneWord l w) :
    ∃ post, Text.lstrip l = w ++ post ∧ ∀ c ∈ post, isIfs c = true := by
  obtain ⟨pre, post, rfl, hblank⟩ := h.spelled
  refine ⟨post, ?_, fun c hc => hblank c (List.mem_append_right _ hc)⟩
  have hpre : ∀ c ∈ pre, Text.isSpace c = true := fun c hc =>
    isSpace_of_isIfs (hblank c (List.mem_append_left _ hc))
  have hhead := Text.lstrip_of_head (head_not_space h.trimmed post h.ne_nil)
  rw [Text.lstrip, List.dropWhile_append_of_pos hpre]
  exact hhead

theorem OneWord.strip_eq {l w : Text} (h : OneWord l w) : Text.strip l = w := by
  obtain ⟨post, hl, hblank⟩ := h.lstrip_eq
  have hrdrop := rdropWhile_append_of_forall w fun c hc => isSpace_of_isIfs (hblank c hc)
  rw [Text.strip, hl, hrdrop, List.rdropWhile_eq_self_iff]
  intro hne
  simpa using h.trimmed.2 _ (List.getLast?_eq_some_getLast hne)

theorem OneWord.words_eq {l w : Text} (h : OneWord l w) : words isIfs l = [w] := by
  obtain ⟨pre, post, rfl, hblank⟩ := h.spelled
  rw [words_seps_append fun c hc => hblank c (List.mem_append_left _ hc),
    words_append_seps w fun c hc => hblank c (List.mem_append_right _ hc),
    words_word h.ne_nil fun c hc => (h.plain c hc).1]

/-- Without a carriage return the line is one for `report.py` too. -/
theorem reportLine_of_no_cr {l : Text} (h : '\r' ∉ l) :
    reportLine l = if keepsLine l then [Text.strip l] else [] := by
  rw [reportLine, List.splitOn_eq_singleton h, List.filter_singleton]
  cases keepsLine l <;> rfl

/-- What the locale takes for white space lies between what the shell splits at and what
Python strips. -/
structure Locale (space : Char → Bool) : Prop where
  blank : ∀ c, isIfs c = true → space c = true
  space : ∀ c, space c = true → Text.isSpace c = true

/-- After blanks, the scripts see the same first character. -/
theorem Locale.isComment_blanks (h : Locale space) {pre : Text} (hpre : ∀ c ∈ pre, isIfs c = true)
    {w : Text} (hne : w ≠ []) (hw : Text.Trimmed w) (post : Text) :
    isComment space (pre ++ (w ++ post)) = (w.head? == some '#') := by
  obtain ⟨c, w, rfl⟩ := List.exists_cons_of_ne_nil hne
  have hc : ¬space c = true := by
    intro hspace
    have hno := hw.1 c rfl
    rw [h.space c hspace] at hno
    exact absurd hno (by decide)
  rw [isComment, List.dropWhile_append_of_pos fun d hd => h.blank d (hpre d hd), List.cons_append,
    List.dropWhile_cons_of_neg hc]
  rfl

/-- On a line of one word the readers agree. -/
theorem OneWord.agrees (h : Locale space) {l w : Text} (hw : OneWord l w) :
    loopLine space l = reportLine l := by
  obtain ⟨c, w', hcw⟩ := List.exists_cons_of_ne_nil hw.ne_nil
  have hnotBlank : isBlank space l = false := by
    obtain ⟨pre, post, rfl, -⟩ := hw.spelled
    have hc : space c = false := by
      by_contra hspace
      have hno := hw.trimmed.1 c (by rw [hcw]; rfl)
      rw [h.space c (by simpa using hspace)] at hno
      exact absurd hno (by decide)
    rw [isBlank, List.all_eq_false]
    exact ⟨c, by simp [hcw], by simp [hc]⟩
  have hcomment : isComment space l = (w.head? == some '#') := by
    obtain ⟨pre, post, rfl, hblank⟩ := hw.spelled
    exact h.isComment_blanks (fun c hc => hblank c (List.mem_append_left _ hc)) hw.ne_nil
      hw.trimmed post
  have hkeeps : keepsLine l = !(w.head? == some '#') := by
    obtain ⟨post, hl, -⟩ := hw.lstrip_eq
    rw [keepsLine, hw.strip_eq, hl, List.head?_append_of_ne_nil _ hw.ne_nil, hcw]
    rfl
  rw [loopLine, reportLine_of_no_cr hw.no_cr, hnotBlank, hcomment, hkeeps, hw.words_eq, hw.strip_eq]
  cases (w.head? == some '#') <;> rfl

/-- A piece `report.py` takes no command from. -/
theorem keepsLine_eq_false_iff {q : Text} :
    keepsLine q = false ↔ (∀ c ∈ q, Text.isSpace c = true) ∨ (Text.lstrip q).head? = some '#' := by
  have hstrip : (Text.strip q).isEmpty = true ↔ ∀ c ∈ q, Text.isSpace c = true := by
    rw [List.isEmpty_iff, Text.strip, List.rdropWhile_eq_nil_iff]
    constructor
    · intro hall
      have hnil : Text.lstrip q = [] := by
        by_contra hne
        obtain ⟨c, u, hcu⟩ := List.exists_cons_of_ne_nil hne
        have hnot := List.head?_dropWhile_not Text.isSpace q
        rw [show q.dropWhile Text.isSpace = c :: u from hcu] at hnot
        have hc := hall c (by rw [hcu]; exact List.mem_cons_self)
        simp [hc] at hnot
      exact List.dropWhile_eq_nil_iff.mp hnil
    · intro hall c hc
      exact hall c ((List.dropWhile_sublist _).subset hc)
  rw [keepsLine, Bool.and_eq_false_iff, Bool.not_eq_false', hstrip]
  simp

theorem reportLine_eq_nil_iff {l : Text} :
    reportLine l = [] ↔ ∀ q ∈ l.splitOn '\r',
      (∀ c ∈ q, Text.isSpace c = true) ∨ (Text.lstrip q).head? = some '#' := by
  rw [reportLine, List.map_eq_nil_iff, List.filter_eq_nil_iff]
  refine forall₂_congr fun q _ => ?_
  rw [Bool.not_eq_true, keepsLine_eq_false_iff]

/-- A command of the scripts can be one of `report.py` only where it is trimmed, and one of
`report.py` one of the scripts only where it has no blank. Then a line with commands has
one word. -/
theorem exists_oneWord (h : Locale space) {l : Text} (hcomment : isComment space l = false)
    (hblank : isBlank space l = false) (hwords : ∀ w ∈ words isIfs l, Text.Trimmed w ∧ '\r' ∉ w)
    (hreport : ∀ q ∈ reportLine l, ∀ c ∈ q, isIfs c = false) : ∃ w, OneWord l w := by
  obtain ⟨c, hc, hcword⟩ : ∃ c ∈ l, isIfs c = false := by
    obtain ⟨c, hc, hspace⟩ := List.all_eq_false.mp hblank
    refine ⟨c, hc, ?_⟩
    by_contra hifs
    exact hspace (h.blank c (by simpa using hifs))
  obtain ⟨pre, w, post, hl, hpre, hne, hw, hpost, heq⟩ := words_eq_cons ⟨c, hc, hcword⟩
  have hfirst := hwords w (by rw [heq]; exact List.mem_cons_self)
  have hcr : ∀ v ∈ words isIfs post, Text.Trimmed v ∧ '\r' ∉ v := fun v hv =>
    hwords v (by rw [heq]; exact List.mem_cons_of_mem w hv)
  have hplain : ∀ c ∈ w, isIfs c = false ∧ c ≠ '\r' := fun c hc =>
    ⟨hw c hc, fun hr => hfirst.2 (hr ▸ hc)⟩
  by_cases hrest : ∀ c ∈ post, isIfs c = true
  · refine ⟨w, ⟨pre, post, hl, fun c hc => ?_⟩, hne, hfirst.1, hplain⟩
    exact (List.mem_append.mp hc).elim (hpre c) (hrest c)
  -- a second word: what `report.py` strips holds the blank between the two
  exfalso
  obtain ⟨d, hd, hdword⟩ : ∃ d ∈ post, isIfs d = false := by simpa using hrest
  have hnocr : '\r' ∉ l := by
    intro hmem
    obtain ⟨v, hv, hcv⟩ := exists_word hmem (show isIfs '\r' = false by decide)
    exact (hwords v hv).2 hcv
  obtain ⟨i, u, rfl⟩ := List.exists_cons_of_ne_nil (List.ne_nil_of_mem hd)
  have hi : isIfs i = true := hpost i rfl
  obtain ⟨e, he, hespace⟩ : ∃ e ∈ u, Text.isSpace e = false := by
    obtain ⟨v, hv, -⟩ := exists_word hd hdword
    obtain ⟨hvne, -, hmem⟩ := mem_words hv
    obtain ⟨e, v', hev⟩ := List.exists_cons_of_ne_nil hvne
    have hespace := (hcr v hv).1.1 e (by rw [hev]; rfl)
    refine ⟨e, (List.mem_cons.mp (hmem e (by rw [hev]; exact List.mem_cons_self))).resolve_left ?_,
      hespace⟩
    rintro rfl
    rw [isSpace_of_isIfs hi] at hespace
    exact absurd hespace (by decide)
  have hlstrip : Text.lstrip l = w ++ i :: u := by
    rw [hl, Text.lstrip, List.dropWhile_append_of_pos fun c hc => isSpace_of_isIfs (hpre c hc)]
    exact Text.lstrip_of_head (head_not_space hfirst.1 _ hne)
  have hstrip : Text.strip l = w ++ [i] ++ u.rdropWhile Text.isSpace := by
    rw [Text.strip, hlstrip, ← rdropWhile_append_of_exists (w ++ [i]) ⟨e, he, hespace⟩,
      List.append_assoc]
    rfl
  have hkeeps : keepsLine l = true := by
    rw [hl, h.isComment_blanks hpre hne hfirst.1] at hcomment
    rw [keepsLine, hstrip, hlstrip, List.head?_append_of_ne_nil _ hne]
    simpa using hcomment
  have hmem : i ∈ Text.strip l := by
    rw [hstrip]
    simp
  rw [reportLine_of_no_cr hnocr, hkeeps] at hreport
  have hplain := hreport (Text.strip l) (List.mem_singleton.mpr rfl) i hmem
  rw [hi] at hplain
  exact absurd hplain (by decide)

end Line

/-! ## The two readers -/

/-- A line both readers take the same from: it is blank, or a comment, where no carriage
return brings `report.py` back, or one word. -/
def ReadAlike (space : Char → Bool) (l : Text) : Prop :=
  (∀ c ∈ l, space c = true) ∨
    (isComment space l = true ∧ ∀ q ∈ l.splitOn '\r',
      (∀ c ∈ q, Text.isSpace c = true) ∨ (Text.lstrip q).head? = some '#') ∨
    ∃ w, OneWord l w

theorem ReadAlike.agrees {space : Char → Bool} (h : Locale space) {l : Text}
    (hl : ReadAlike space l) : loopLine space l = reportLine l := by
  rcases hl with hblank | ⟨hcomment, hpieces⟩ | ⟨w, hw⟩
  · have hnone : reportLine l = [] := reportLine_eq_nil_iff.mpr fun q hq =>
      Or.inl fun c hc => h.space c (hblank c (Text.mem_of_mem_splitOn hq hc))
    have hall : isBlank space l = true := List.all_eq_true.mpr hblank
    rw [loopLine, hall, Bool.or_true, if_pos rfl, hnone]
  · rw [loopLine, hcomment, Bool.true_or, if_pos rfl, reportLine_eq_nil_iff.mpr hpieces]
  · exact hw.agrees h

/-- The scripts loop over the commands of `report.py` exactly when every line reads alike. -/
theorem commands_agree_iff {space : Char → Bool} (h : Locale space) (conf : Text) :
    loopCommands space conf = compilers conf ↔ ∀ l ∈ conf.splitOn '\n', ReadAlike space l := by
  rw [loopCommands_eq, compilers_eq]
  constructor
  · intro heq
    have hloop : ∀ l ∈ conf.splitOn '\n', ∀ w ∈ loopLine space l, Text.Trimmed w ∧ '\r' ∉ w := by
      intro l hl w hw
      have hmem : w ∈ (conf.splitOn '\n').flatMap (loopLine space) :=
        List.mem_flatMap.mpr ⟨l, hl, hw⟩
      rw [heq] at hmem
      obtain ⟨l', -, hw'⟩ := List.mem_flatMap.mp hmem
      obtain ⟨q, hq, rfl⟩ := List.mem_map.mp hw'
      refine ⟨Text.trimmed_strip q, fun hr => ?_⟩
      exact Text.not_mem_of_mem_splitOn (List.mem_of_mem_filter hq)
        ((Text.strip_sublist q).subset hr)
    have hreport : ∀ l ∈ conf.splitOn '\n', ∀ q ∈ reportLine l, ∀ c ∈ q, isIfs c = false := by
      intro l hl q hq
      have hmem : q ∈ (conf.splitOn '\n').flatMap reportLine := List.mem_flatMap.mpr ⟨l, hl, hq⟩
      rw [← heq] at hmem
      obtain ⟨l', -, hq'⟩ := List.mem_flatMap.mp hmem
      unfold loopLine at hq'
      split_ifs at hq'
      · exact absurd hq' List.not_mem_nil
      · exact (mem_words hq').2.1
    have hlines : ∀ l ∈ conf.splitOn '\n', (loopLine space l).Sublist (reportLine l) ∧
        (reportLine l = loopLine space l → ReadAlike space l) := by
      intro l hl
      cases hcomment : isComment space l with
      | true =>
        have hnone : loopLine space l = [] := by rw [loopLine, hcomment]; rfl
        refine ⟨by rw [hnone]; exact List.nil_sublist _, fun hsame => ?_⟩
        exact Or.inr (Or.inl ⟨hcomment, reportLine_eq_nil_iff.mp (hsame.trans hnone)⟩)
      | false =>
        cases hblank : isBlank space l with
        | true =>
          have hnone : loopLine space l = [] := by rw [loopLine, hblank, Bool.or_true]; rfl
          exact ⟨by rw [hnone]; exact List.nil_sublist _,
            fun _ => Or.inl (List.all_eq_true.mp hblank)⟩
        | false =>
          have hkept : loopLine space l = words isIfs l := by
            rw [loopLine, hcomment, hblank]
            rfl
          obtain ⟨w, hw⟩ := exists_oneWord h hcomment hblank (hkept ▸ hloop l hl) (hreport l hl)
          exact ⟨by rw [hw.agrees h], fun _ => Or.inr (Or.inr ⟨w, hw⟩)⟩
    have hsame := (flatMap_eq_iff_of_sublist fun l hl => (hlines l hl).1).mp heq
    exact fun l hl => (hlines l hl).2 (hsame l hl).symm
  · exact fun hall => List.flatMap_congr fun l hl => (hall l hl).agrees h

/-! ## The probe binaries -/

def benchmarkAt (t : Text) : Option (Text × ℕ) :=
  if "benchmark-".toList.isPrefixOf t then some ("probe-".toList, 9) else none

theorem shrinks_benchmarkAt : Text.Shrinks benchmarkAt := by
  intro t new n h
  unfold benchmarkAt at h
  split_ifs at h with hpre
  obtain ⟨rfl, rfl⟩ := Prod.mk.inj (Option.some.inj h)
  have hlen := (List.isPrefixOf_iff_prefix.mp hpre).length_le
  exact ⟨by decide, hlen⟩

theorem free_benchmarkAt_iff {t : Text} :
    Text.Free benchmarkAt t ↔ ¬"benchmark-".toList <:+: t := by
  constructor
  · rintro h ⟨pre, post, rfl⟩
    have hnone := h ("benchmark-".toList ++ post) ⟨pre, by rw [List.append_assoc]⟩
    rw [benchmarkAt, if_pos (List.isPrefixOf_iff_prefix.mpr (List.prefix_append _ _))] at hnone
    exact absurd hnone (by simp)
  · intro h s hs
    rw [benchmarkAt, if_neg]
    intro hpre
    exact h ((List.isPrefixOf_iff_prefix.mp hpre).isInfix.trans hs.isInfix)

/-- The probe of a command is looked up under its name unless the command brings in another
`benchmark-`. -/
theorem probeName_benchmark_iff (c : Text) :
    probeName ("benchmark-".toList ++ c) = "probe-".toList ++ c ↔ ¬"benchmark-".toList <:+: c := by
  have hfirst : probeName ("benchmark-".toList ++ c) =
      "probe-".toList ++ Text.substitute benchmarkAt 0 c := rfl
  rw [hfirst, List.append_cancel_left_eq, Text.substitute_eq_self_iff shrinks_benchmarkAt,
    free_benchmarkAt_iff]

/-- The commands of a line hold no `benchmark-` exactly when the line, unless it is a comment,
holds none. -/
theorem loopLine_free_iff {space : Char → Bool} (h : Locale space) (l : Text) :
    (∀ w ∈ loopLine space l, ¬"benchmark-".toList <:+: w) ↔
      isComment space l = true ∨ ¬"benchmark-".toList <:+: l := by
  rw [loopLine]
  cases hcomment : isComment space l with
  | true => simp
  | false =>
    have hplain : ∀ c ∈ "benchmark-".toList, space c = false := by
      intro c hc
      by_contra hspace
      have hpy := h.space c (by simpa using hspace)
      have hnone : ∀ c ∈ "benchmark-".toList, Text.isSpace c = false := by decide
      rw [hnone c hc] at hpy
      exact absurd hpy (by decide)
    cases hblank : isBlank space l with
    | true =>
      have hno : ¬"benchmark-".toList <:+: l := by
        intro hin
        have hb := List.all_eq_true.mp hblank 'b' (hin.subset (by decide))
        rw [hplain 'b' (by decide)] at hb
        exact absurd hb (by decide)
      rw [Bool.or_true, if_pos rfl]
      exact iff_of_true (fun w hw => absurd hw List.not_mem_nil) (Or.inr hno)
    | false =>
      simp only [Bool.or_self, Bool.false_eq_true, if_false, false_or]
      constructor
      · intro hwords hin
        have hword : ∀ c ∈ "benchmark-".toList, isIfs c = false := by decide
        obtain ⟨w, hw, hwin⟩ := exists_word_of_infix (by decide) hword hin
        exact hwords w hw hwin
      · intro hno w hw hwin
        exact hno (hwin.trans (infix_of_mem_words hw))

/-- The scripts loop over the commands of `report.py`, and write the results, benchmark and probe
files that `report.py` and `asmtab.py` open, exactly when every line reads alike and no command
brings in another `benchmark-`. -/
theorem readers_agree_iff {space : Char → Bool} (h : Locale space) (conf : Text) :
    (loopCommands space conf = compilers conf ∧
        resultFiles space conf = (columns conf).map Prod.snd ∧
        benchmarkFiles space conf = (builds conf).map Prod.snd ∧
        probeFiles space conf = (builds conf).map fun b => probeName b.2) ↔
      ∀ l ∈ conf.splitOn '\n', ReadAlike space l ∧
        (isComment space l = true ∨ ¬"benchmark-".toList <:+: l) := by
  have hprobes : (loopCommands space conf = compilers conf ∧
      resultFiles space conf = (columns conf).map Prod.snd ∧
      benchmarkFiles space conf = (builds conf).map Prod.snd ∧
      probeFiles space conf = (builds conf).map fun b => probeName b.2) ↔
        loopCommands space conf = compilers conf ∧
          ∀ c ∈ loopCommands space conf, ¬"benchmark-".toList <:+: c := by
    refine and_congr_right fun heq => ?_
    have hresults : resultFiles space conf = (columns conf).map Prod.snd := by
      rw [resultFiles, heq, columns, List.map_map]
      rfl
    have hbenchmarks : benchmarkFiles space conf = (builds conf).map Prod.snd := by
      rw [benchmarkFiles, heq, builds, List.map_map]
      rfl
    rw [and_iff_right hresults, and_iff_right hbenchmarks, probeFiles, builds, List.map_map, ← heq,
      List.map_inj_left]
    refine forall₂_congr fun c _ => ?_
    rw [← probeName_benchmark_iff, eq_comm]
    rfl
  rw [hprobes, commands_agree_iff h, forall₂_and, loopCommands_eq]
  refine and_congr_right fun _ => ?_
  simp only [List.mem_flatMap, forall_exists_index, and_imp, ← loopLine_free_iff h]
  exact ⟨fun hall l hl w hw => hall w l hl hw, fun hall w l hl hw => hall l hl w hw⟩

theorem posixSpace_locale : Locale posixSpace where
  blank c h := by
    simp only [isIfs, Bool.or_eq_true, beq_iff_eq] at h
    rcases h with (rfl | rfl) | rfl <;> rfl
  space c h := by
    simp only [posixSpace, Bool.or_eq_true, Bool.and_eq_true, beq_iff_eq, decide_eq_true_eq] at h
    rcases h with rfl | ⟨hlow, hhigh⟩
    · rfl
    · simp [Text.isSpace, hlow, hhigh]

/-- Two compilers under a comment, one of them indented. -/
theorem readers_agree_two_compilers :
    let conf := "# compilers\n\nclang++-22\n  g++-15\n".toList
    (loopCommands posixSpace conf = compilers conf ∧
        resultFiles posixSpace conf = (columns conf).map Prod.snd ∧
        benchmarkFiles posixSpace conf = (builds conf).map Prod.snd ∧
        probeFiles posixSpace conf = (builds conf).map fun b => probeName b.2) ↔
      ∀ l ∈ conf.splitOn '\n', ReadAlike posixSpace l ∧
        (isComment posixSpace l = true ∨ ¬"benchmark-".toList <:+: l) :=
  readers_agree_iff posixSpace_locale _

/-- A launcher before the compiler: one command for `report.py`, two for the scripts. -/
theorem launcher_is_a_command :
    let conf := "ccache g++-15\n".toList
    loopCommands posixSpace conf = ["ccache".toList, "g++-15".toList] ∧
      compilers conf = ["ccache g++-15".toList] ∧
      ¬(loopCommands posixSpace conf = compilers conf ∧
        resultFiles posixSpace conf = (columns conf).map Prod.snd ∧
        benchmarkFiles posixSpace conf = (builds conf).map Prod.snd ∧
        probeFiles posixSpace conf = (builds conf).map fun b => probeName b.2) := by
  decide +kernel

end OMB
