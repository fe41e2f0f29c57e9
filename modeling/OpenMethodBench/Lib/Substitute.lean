import OpenMethodBench.Lib.Text

/-! Replacing what a pattern matches, wherever it does, after Python's `re.sub`: what is
left alone, and what no longer matches afterwards. -/

namespace Text

/-- `re.sub` of a pattern, given how it matches at the head of a text: what replaces the
match, and how many characters it spans beyond the first. The count is of those characters
of the last match that are still to be passed over. -/
def substitute (m : Text → Option (Text × ℕ)) : ℕ → Text → Text
  | _, [] => []
  | k + 1, _ :: t => substitute m k t
  | 0, c :: t =>
    match m (c :: t) with
    | some (new, n) => new ++ substitute m n t
    | none => c :: substitute m 0 t

/-- A pattern whose matches begin with `o`, and which looks no further than the next `o`. -/
structure Opens {α : Type*} (o : Char) (p : Text → Option α) : Prop where
  head : ∀ c t, c ≠ o → p (c :: t) = none
  nil : p [] = none
  near : ∀ t u : Text, t.takeWhile (· != o) = u.takeWhile (· != o) →
    p (o :: t) = none → p (o :: u) = none

/-- Only where a pattern matches counts. -/
theorem Opens.congr {α β : Type*} {o : Char} {p : Text → Option α} {q : Text → Option β}
    (hq : Opens o q) (h : ∀ t, p t = none ↔ q t = none) : Opens o p where
  head c t hc := (h _).mpr (hq.head c t hc)
  nil := (h _).mpr hq.nil
  near t u htu ht := (h _).mpr (hq.near t u htu ((h _).mp ht))

/-- Whatever a match is replaced by begins with `o`, holds no other, and is not matched by
`p`, whatever follows. -/
def Yields {α : Type*} (o : Char) (p : Text → Option α) (m : Text → Option (Text × ℕ)) : Prop :=
  ∀ t new n, m t = some (new, n) → ∃ r, new = o :: r ∧ o ∉ r ∧ ∀ rest, p (new ++ rest) = none

section Substitute

variable {α : Type*} {o : Char} {m : Text → Option (Text × ℕ)}

/-- Up to the first `o` the text is as it was. -/
theorem takeWhile_substitute {p : Text → Option α} (hm : Opens o m) (hy : Yields o p m)
    (t : Text) : (substitute m 0 t).takeWhile (· != o) = t.takeWhile (· != o) := by
  induction t with
  | nil => rfl
  | cons c t ih =>
    rw [substitute]
    by_cases hc : c = o
    · rcases hmatch : m (c :: t) with - | ⟨new, n⟩
      · simp [hc]
      · obtain ⟨r, rfl, -, -⟩ := hy _ _ _ hmatch
        simp [hc]
    · have hhead : (c != o) = true := by simpa using hc
      rw [hm.head c t hc]
      simp only [List.takeWhile_cons, hhead, if_true, ih]

theorem suffix_append_cases {s a b : Text} (h : s <:+ a ++ b) :
    s <:+ b ∨ ∃ u, s = u ++ b ∧ u <:+ a := by
  obtain ⟨pre, hpre⟩ := h
  rcases List.append_eq_append_iff.mp hpre with ⟨u, ha, hs⟩ | ⟨u, -, hb⟩
  · exact Or.inr ⟨u, hs, pre, ha.symm⟩
  · exact Or.inl ⟨u, hb.symm⟩

/-- Where every match of `p` is replaced, and no replacement brings one in, none is left. -/
theorem not_matched_substitute {p : Text → Option α} (hm : Opens o m) (hp : Opens o p)
    (hy : Yields o p m) {t : Text} (h : ∀ s, s <:+ t → m s = none → p s = none) (k : ℕ) :
    ∀ s, s <:+ substitute m k t → p s = none := by
  induction t generalizing k with
  | nil =>
    intro s hs
    cases k <;> rw [List.suffix_nil.mp hs] <;> exact hp.nil
  | cons c t ih =>
    have htail : ∀ s, s <:+ t → m s = none → p s = none := fun s hs =>
      h s (hs.trans (List.suffix_cons c t))
    intro s hs
    rcases k with - | k
    · rw [substitute] at hs
      rcases hmatch : m (c :: t) with - | ⟨new, n⟩
      · rw [hmatch] at hs
        rcases List.suffix_cons_iff.mp hs with rfl | hs
        · by_cases hc : c = o
          · rw [hc] at hmatch ⊢
            have hnone := h (o :: t) (hc ▸ List.suffix_rfl) hmatch
            exact hp.near _ _ (takeWhile_substitute hm hy t).symm hnone
          · exact hp.head c _ hc
        · exact ih htail 0 s hs
      · rw [hmatch] at hs
        obtain ⟨r, rfl, hr, hnone⟩ := hy _ _ _ hmatch
        rcases suffix_append_cases hs with hs | ⟨u, rfl, hu⟩
        · exact ih htail n s hs
        · rcases List.suffix_cons_iff.mp hu with rfl | hu
          · exact hnone _
          · rcases u with - | ⟨d, u⟩
            · exact ih htail n _ List.suffix_rfl
            · refine hp.head d _ fun hd => hr ?_
              exact hd ▸ hu.subset List.mem_cons_self
    · rw [substitute] at hs
      exact ih htail k s hs

end Substitute

/-! ## Where a pattern matches -/

section Free

variable {α : Type*} {p : Text → Option α}

/-- A pattern matches nowhere in a text. -/
def Free (p : Text → Option α) (t : Text) : Prop := ∀ s, s <:+ t → p s = none

theorem Free.congr {β : Type*} {q : Text → Option β} (h : ∀ t, p t = none ↔ q t = none)
    {t : Text} (hq : Free q t) : Free p t := fun s hs => (h s).mpr (hq s hs)

theorem Free.suffix {s t : Text} (h : Free p t) (hs : s <:+ t) : Free p s :=
  fun u hu => h u (hu.trans hs)

/-- What matches at the head of a text matches whatever follows. -/
def Stays (p : Text → Option α) : Prop := ∀ t u, p (t ++ u) = none → p t = none

theorem Free.initial {s t : Text} (hp : Stays p) (h : Free p t) (hs : s <+: t) : Free p s := by
  obtain ⟨u, rfl⟩ := hs
  rintro v ⟨pre, rfl⟩
  exact hp v u (h (v ++ u) ⟨pre, by rw [List.append_assoc]⟩)

theorem Free.append_left {o : Char} (hp : Opens o p) {pre t : Text} (hpre : o ∉ pre)
    (h : Free p t) : Free p (pre ++ t) := by
  induction pre with
  | nil => exact h
  | cons c pre ih =>
    rw [List.mem_cons, not_or] at hpre
    intro s hs
    rcases List.suffix_cons_iff.mp hs with rfl | hs
    · exact hp.head c _ (Ne.symm hpre.1)
    · exact ih hpre.2 s hs

theorem free_of_not_mem {o : Char} (hp : Opens o p) {t : Text} (h : o ∉ t) : Free p t := by
  have hnil : Free p [] := fun s hs => by rw [List.suffix_nil.mp hs]; exact hp.nil
  have happend := hnil.append_left hp h
  rwa [List.append_nil] at happend

end Free

/-! ## Replacements that shorten -/

section Shrinks

variable {m : Text → Option (Text × ℕ)}

/-- Every match is longer than what replaces it. -/
def Shrinks (m : Text → Option (Text × ℕ)) : Prop :=
  ∀ t new n, m t = some (new, n) → new.length ≤ n ∧ n < t.length

theorem length_substitute (hm : Shrinks m) {k : ℕ} {t : Text} (hk : k ≤ t.length) :
    (substitute m k t).length + k ≤ t.length := by
  induction t generalizing k with
  | nil =>
    obtain rfl := Nat.le_zero.mp hk
    simp [substitute]
  | cons c t ih =>
    rw [List.length_cons] at hk ⊢
    rcases k with - | k
    · rw [substitute]
      rcases hmatch : m (c :: t) with - | ⟨new, n⟩
      · have hrest := ih (Nat.zero_le t.length)
        simpa using hrest
      · obtain ⟨hnew, hn⟩ := hm _ _ _ hmatch
        rw [List.length_cons] at hn
        have hrest := ih (k := n) (by omega)
        simp only [List.length_append]
        omega
    · have hrest := ih (k := k) (by omega)
      rw [substitute]
      omega

/-- Only a text without a match is left as it is. -/
theorem substitute_eq_self_iff (hm : Shrinks m) {t : Text} : substitute m 0 t = t ↔ Free m t := by
  induction t with
  | nil =>
    refine ⟨fun _ s hs => ?_, fun _ => rfl⟩
    rw [List.suffix_nil.mp hs]
    rcases hmatch : m [] with - | ⟨new, n⟩
    · rfl
    · exact absurd (hm _ _ _ hmatch).2 (Nat.not_lt_zero n)
  | cons c t ih =>
    rw [substitute]
    rcases hmatch : m (c :: t) with - | ⟨new, n⟩
    · simp only [List.cons.injEq, true_and, ih]
      refine ⟨fun h s hs => ?_, fun h => h.suffix (List.suffix_cons c t)⟩
      rcases List.suffix_cons_iff.mp hs with rfl | hs
      · exact hmatch
      · exact h s hs
    · obtain ⟨hnew, hn⟩ := hm _ _ _ hmatch
      rw [List.length_cons] at hn
      have hrest := length_substitute hm (k := n) (t := t) (by omega)
      constructor
      · intro heq
        have hlength := congrArg List.length heq
        simp only [List.length_append, List.length_cons] at hlength
        omega
      · intro h
        exact absurd (h _ List.suffix_rfl) (by simp [hmatch])

end Shrinks

/-! ## Prefixes of a given form -/

/-- A text begins with characters of given kinds, one after another. -/
def fits : List (Char → Bool) → Text → Bool
  | [], _ => true
  | _ :: _, [] => false
  | k :: ks, c :: t => k c && fits ks t

theorem exists_of_fits_cons {k : Char → Bool} {ks : List (Char → Bool)} {t : Text}
    (h : fits (k :: ks) t = true) : ∃ c u, t = c :: u ∧ k c = true ∧ fits ks u = true := by
  rcases t with - | ⟨c, u⟩
  · simp [fits] at h
  · rw [fits, Bool.and_eq_true] at h
    exact ⟨c, u, rfl, h⟩

theorem fits_append {ks : List (Char → Bool)} {t : Text} (h : fits ks t = true) (u : Text) :
    fits ks (t ++ u) = true := by
  induction ks generalizing t with
  | nil => rfl
  | cons k ks ih =>
    obtain ⟨c, t, rfl, hc, ht⟩ := exists_of_fits_cons h
    rw [List.cons_append, fits, hc, ih ht]
    rfl

/-- The kinds look no further than a character of none of them. -/
theorem fits_append_eq {ks : List (Char → Bool)} (t : Text) {u : Text}
    (h : ∀ c ∈ u.head?, ∀ k ∈ ks, k c = false) : fits ks (t ++ u) = fits ks t := by
  induction ks generalizing t with
  | nil => rfl
  | cons k ks ih =>
    rcases t with - | ⟨c, t⟩
    · rcases u with - | ⟨c, u⟩
      · rfl
      · rw [List.nil_append, fits, fits, h c rfl k List.mem_cons_self]
        rfl
    · rw [List.cons_append, fits, fits, ih t fun d hd j hj => h d hd j (List.mem_cons_of_mem k hj)]

theorem length_le_of_fits {ks : List (Char → Bool)} {t : Text} (h : fits ks t = true) :
    ks.length ≤ t.length := by
  induction ks generalizing t with
  | nil => exact Nat.zero_le _
  | cons k ks ih =>
    obtain ⟨c, u, rfl, -, hu⟩ := exists_of_fits_cons h
    exact Nat.succ_le_succ (ih hu)

end Text
