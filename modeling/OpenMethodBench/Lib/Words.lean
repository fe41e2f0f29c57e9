import Mathlib.Data.List.DropRight
import Mathlib.Data.List.Flatten
import Mathlib.Tactic.Common

/-! Words: the longest runs of a list without separators. -/

namespace Words

variable {α β γ : Type*}

/-- The words of a list between separators. -/
def words (p : α → Bool) (t : List α) : List (List α) := (t.splitOnP p).filter fun w => !w.isEmpty

section Words

variable {p : α → Bool}

@[simp] theorem words_nil : words p [] = [] := by
  simp [words]

theorem words_append_cons {c : α} (hc : p c = true) (t u : List α) :
    words p (t ++ c :: u) = words p t ++ words p u := by
  rw [words, List.splitOnP_append_cons t u hc, List.filter_append]
  rfl

theorem words_cons_sep {c : α} (hc : p c = true) (t : List α) : words p (c :: t) = words p t := by
  have h := words_append_cons hc [] t
  rwa [words_nil, List.nil_append, List.nil_append] at h

/-- A word on its own. -/
theorem words_word {w : List α} (hne : w ≠ []) (hw : ∀ c ∈ w, p c = false) : words p w = [w] := by
  rw [words, List.splitOnP_eq_singleton hw]
  simpa using hne

theorem words_seps_append {u : List α} (hu : ∀ c ∈ u, p c = true) (t : List α) :
    words p (u ++ t) = words p t := by
  induction u with
  | nil => rfl
  | cons c u ih =>
    rw [List.cons_append, words_cons_sep (hu c List.mem_cons_self)]
    exact ih fun d hd => hu d (List.mem_cons_of_mem c hd)

theorem words_seps {u : List α} (hu : ∀ c ∈ u, p c = true) : words p u = [] := by
  have h := words_seps_append hu []
  rwa [List.append_nil, words_nil] at h

theorem words_append_seps (t : List α) {u : List α} (hu : ∀ c ∈ u, p c = true) :
    words p (t ++ u) = words p t := by
  cases u with
  | nil => rw [List.append_nil]
  | cons c u =>
    rw [words_append_cons (hu c List.mem_cons_self),
      words_seps fun d hd => hu d (List.mem_cons_of_mem c hd), List.append_nil]

/-- The words of lines are those of each line. -/
theorem words_flatMap_lines {c : α} (hc : p c = true) (ls : List (List α)) :
    words p (ls.flatMap fun l => l ++ [c]) = ls.flatMap (words p) := by
  induction ls with
  | nil => simp
  | cons l ls ih =>
    rw [List.flatMap_cons, List.flatMap_cons, List.append_assoc, List.singleton_append,
      words_append_cons hc, ih]

/-- The first word, and what follows it. -/
theorem words_eq_cons {t : List α} (h : ∃ c ∈ t, p c = false) :
    ∃ pre w post, t = pre ++ (w ++ post) ∧ (∀ c ∈ pre, p c = true) ∧ w ≠ [] ∧
      (∀ c ∈ w, p c = false) ∧ (∀ c ∈ post.head?, p c = true) ∧ words p t = w :: words p post := by
  obtain ⟨c, hc, hword⟩ := h
  have hne : t.dropWhile p ≠ [] := by
    intro hnil
    have := List.dropWhile_eq_nil_iff.mp hnil c hc
    rw [hword] at this
    exact absurd this (by decide)
  obtain ⟨d, u, hu⟩ := List.exists_cons_of_ne_nil hne
  have hd : p d = false := by
    have := List.head?_dropWhile_not p t
    rw [hu] at this
    simpa using this
  have hpre : ∀ c ∈ t.takeWhile p, p c = true := fun c hc => List.mem_takeWhile_imp hc
  have hw : ∀ c ∈ (d :: u).takeWhile (fun c => !p c), p c = false := fun c hc => by
    simpa using List.mem_takeWhile_imp hc
  have hsplit : t = t.takeWhile p ++
      ((d :: u).takeWhile (fun c => !p c) ++ (d :: u).dropWhile fun c => !p c) := by
    rw [List.takeWhile_append_dropWhile, ← hu, List.takeWhile_append_dropWhile]
  have hwne : (d :: u).takeWhile (fun c => !p c) ≠ [] := by
    rw [List.takeWhile_cons_of_pos (by simp [hd])]
    simp
  have hpost : ∀ c ∈ ((d :: u).dropWhile fun c => !p c).head?, p c = true := by
    intro c hc
    have := List.head?_dropWhile_not (fun c => !p c) (d :: u)
    rw [hc] at this
    simpa using this
  refine ⟨_, _, _, hsplit, hpre, hwne, hw, hpost, ?_⟩
  rw [hsplit, words_seps_append hpre]
  rcases hrest : (d :: u).dropWhile (fun c => !p c) with - | ⟨e, v⟩
  · rw [List.append_nil, words_nil, words_word hwne hw]
  · have he : p e = true := hpost e (by rw [hrest]; rfl)
    rw [words_append_cons he, words_word hwne hw, words_cons_sep he, List.singleton_append]

/-- Every character that is no separator stands in a word. -/
theorem exists_word {t : List α} {c : α} (hc : c ∈ t) (hword : p c = false) :
    ∃ w ∈ words p t, c ∈ w := by
  induction hn : t.length using Nat.strongRecOn generalizing t with
  | ind n ih =>
    obtain ⟨pre, w, post, ht, hpre, hne, -, -, hwords⟩ := words_eq_cons ⟨c, hc, hword⟩
    rw [hwords]
    rw [ht] at hc
    rcases List.mem_append.mp hc with hc | hc
    · exact absurd (hpre c hc) (by simp [hword])
    rcases List.mem_append.mp hc with hc | hc
    · exact ⟨w, List.mem_cons_self, hc⟩
    · have hlen : post.length < n := by
        have := List.length_pos_iff.mpr hne
        rw [← hn, ht, List.length_append, List.length_append]
        omega
      obtain ⟨v, hv, hcv⟩ := ih post.length hlen hc rfl
      exact ⟨v, List.mem_cons_of_mem w hv, hcv⟩

theorem mem_words {t w : List α} (h : w ∈ words p t) :
    w ≠ [] ∧ (∀ c ∈ w, p c = false) ∧ ∀ c ∈ w, c ∈ t := by
  induction hn : t.length using Nat.strongRecOn generalizing t with
  | ind n ih =>
    have hex : ∃ c ∈ t, p c = false := by
      by_contra hnot
      rw [words_seps (by simpa using hnot)] at h
      exact absurd h (by simp)
    obtain ⟨pre, v, post, ht, -, hne, hv, -, hwords⟩ := words_eq_cons hex
    rw [hwords] at h
    rcases List.mem_cons.mp h with rfl | h
    · exact ⟨hne, hv, fun c hc => by simp [ht, hc]⟩
    · have hlen : post.length < n := by
        have := List.length_pos_iff.mpr hne
        rw [← hn, ht, List.length_append, List.length_append]
        omega
      obtain ⟨hwne, hw, hmem⟩ := ih post.length hlen h rfl
      exact ⟨hwne, hw, fun c hc => by simp [ht, hmem c hc]⟩

/-- A word is a stretch of its text. -/
theorem infix_of_mem_words {t w : List α} (h : w ∈ words p t) : w <:+: t := by
  induction hn : t.length using Nat.strongRecOn generalizing t with
  | ind n ih =>
    have hex : ∃ c ∈ t, p c = false := by
      by_contra hnot
      rw [words_seps (by simpa using hnot)] at h
      exact absurd h (by simp)
    obtain ⟨pre, v, post, ht, -, hne, -, -, hwords⟩ := words_eq_cons hex
    rw [hwords] at h
    rcases List.mem_cons.mp h with rfl | h
    · exact ⟨pre, post, by rw [ht, List.append_assoc]⟩
    · have hlen : post.length < n := by
        have := List.length_pos_iff.mpr hne
        rw [← hn, ht, List.length_append, List.length_append]
        omega
      have hpost : post <:+: t := ⟨pre ++ v, [], by rw [ht, List.append_nil, List.append_assoc]⟩
      exact (ih post.length hlen h rfl).trans hpost

theorem splitOnP_append {u : List α} (hu : ∀ c ∈ u, p c = false) (t : List α) :
    ∃ x xs, (u ++ t).splitOnP p = (u ++ x) :: xs := by
  induction u with
  | nil => exact List.exists_cons_of_ne_nil (List.splitOnP_ne_nil p t)
  | cons c u ih =>
    obtain ⟨x, xs, hxs⟩ := ih fun d hd => hu d (List.mem_cons_of_mem c hd)
    refine ⟨x, xs, ?_⟩
    rw [List.cons_append, List.splitOnP_cons_eq_if_modifyHead, hu c List.mem_cons_self, hxs]
    rfl

/-- A stretch without separators lies within a word. -/
theorem exists_word_of_infix {t u : List α} (hne : u ≠ []) (hu : ∀ c ∈ u, p c = false)
    (h : u <:+: t) : ∃ w ∈ words p t, u <:+: w := by
  obtain ⟨pre, post, rfl⟩ := h
  have hpart : ∃ w ∈ (pre ++ (u ++ post)).splitOnP p, u <:+: w := by
    induction pre with
    | nil =>
      obtain ⟨x, xs, hxs⟩ := splitOnP_append hu post
      exact ⟨u ++ x, by rw [List.nil_append, hxs]; exact List.mem_cons_self,
        (List.prefix_append u x).isInfix⟩
    | cons c pre ih =>
      obtain ⟨w, hw, hinfix⟩ := ih
      rw [List.cons_append, List.splitOnP_cons_eq_if_modifyHead]
      split_ifs with hc
      · exact ⟨w, List.mem_cons_of_mem [] hw, hinfix⟩
      · obtain ⟨x, xs, hxs⟩ := List.exists_cons_of_ne_nil (List.splitOnP_ne_nil p (pre ++ (u ++ post)))
        rw [hxs] at hw ⊢
        rcases List.mem_cons.mp hw with rfl | hw
        · exact ⟨c :: w, List.mem_cons_self, hinfix.trans (List.suffix_cons c w).isInfix⟩
        · exact ⟨w, List.mem_cons_of_mem (c :: x) hw, hinfix⟩
  obtain ⟨w, hw, hinfix⟩ := hpart
  refine ⟨w, List.mem_filter.mpr ⟨by rwa [List.append_assoc], ?_⟩, hinfix⟩
  have hwne : w ≠ [] := by
    rintro rfl
    exact hne (List.infix_nil.mp hinfix)
  simpa using hwne

end Words

/-- Two ways to list what a list stands for, each part of the one within that of the other:
they agree as a whole only part by part. -/
theorem flatMap_eq_iff_of_sublist {f g : β → List γ} {xs : List β}
    (h : ∀ x ∈ xs, (f x).Sublist (g x)) :
    xs.flatMap f = xs.flatMap g ↔ ∀ x ∈ xs, f x = g x := by
  refine ⟨fun heq => ?_, fun heq => List.flatMap_congr heq⟩
  induction xs with
  | nil => simp
  | cons x xs ih =>
    have hrest : (xs.flatMap f).Sublist (xs.flatMap g) := by
      clear ih heq
      induction xs with
      | nil => simp
      | cons y ys ihy =>
        rw [List.flatMap_cons, List.flatMap_cons]
        refine (h y (by simp)).append (ihy fun z hz => ?_)
        rcases List.mem_cons.mp hz with rfl | hz
        · exact h z List.mem_cons_self
        · exact h z (by simp [hz])
    rw [List.flatMap_cons, List.flatMap_cons] at heq
    have hlen := congrArg List.length heq
    rw [List.length_append, List.length_append] at hlen
    have hx := (h x List.mem_cons_self).length_le
    have hxs := hrest.length_le
    obtain ⟨hfirst, hrest⟩ := List.append_inj heq (by omega)
    exact List.forall_mem_cons.mpr ⟨hfirst, ih (fun z hz => h z (List.mem_cons_of_mem x hz)) hrest⟩

end Words
