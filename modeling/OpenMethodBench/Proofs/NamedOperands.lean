import OpenMethodBench.Spec.Extract

/-! The listing names every global an instruction reads: where `render` has put a name, none
of the expressions by which `globals_read` finds a global matches the line any more. -/

namespace OMB

/-! ## Address operands -/

/-- The kinds of character of `[rip+0x`. -/
def ripKinds : List (Char → Bool) := "[rip+0x".toList.map fun c d => d == c

/-- The kinds of character of `[e..+0x`. -/
def basedKinds : List (Char → Bool) :=
  [(· == '['), (· == 'e'), Char.isLower, Char.isLower, (· == '+'), (· == '0'), (· == 'x')]

/-- Does an operand of these kinds, a number and a closing bracket stand at the head? -/
def operandAt (ks : List (Char → Bool)) (t : Text) : Option ℕ :=
  if Text.fits ks t then hexClosed (t.drop ks.length) else none

/-- A text that begins with given characters. -/
theorem fits_word {w t : Text} (h : Text.fits (w.map fun c d => d == c) t = true) :
    t = w ++ t.drop w.length := by
  induction w generalizing t with
  | nil => rfl
  | cons c w ih =>
    rcases t with - | ⟨d, t⟩
    · simp [Text.fits] at h
    · rw [List.map_cons, Text.fits, Bool.and_eq_true, beq_iff_eq] at h
      rw [h.1, List.length_cons, List.drop_succ_cons, List.cons_append, ← ih h.2]

theorem ripAt_eq_some {t : Text} {d : ℕ} (h : ripAt t = some d) :
    ∃ u, t = "[rip+0x".toList ++ u ∧ hexClosed u = some d := by
  unfold ripAt at h
  split at h
  · exact ⟨_, rfl, h⟩
  · exact nomatch h

theorem ripAt_eq_none_iff (t : Text) : ripAt t = none ↔ operandAt ripKinds t = none := by
  rw [operandAt]
  refine ⟨fun h => ?_, fun h => ?_⟩
  · split_ifs with hfits
    · rw [fits_word hfits] at h
      exact h
    · rfl
  · by_contra hsome
    obtain ⟨d, hd⟩ := Option.ne_none_iff_exists'.mp hsome
    obtain ⟨u, rfl, hu⟩ := ripAt_eq_some hd
    have hfits : Text.fits ripKinds ("[rip+0x".toList ++ u) = true :=
      Text.fits_append (t := "[rip+0x".toList) (by decide) u
    rw [if_pos hfits] at h
    exact nomatch h.symm.trans hu

theorem basedAt_eq_some {t : Text} {m : Text × ℕ} (h : basedAt t = some m) :
    ∃ a b u, t = "[e".toList ++ a :: b :: ("+0x".toList ++ u) ∧ a.isLower = true ∧
      b.isLower = true ∧ hexClosed u = some m.2 := by
  unfold basedAt at h
  split at h
  · rename_i a b u
    split_ifs at h with hlow
    obtain ⟨d, hd, rfl⟩ := Option.map_eq_some_iff.mp h
    rw [Bool.and_eq_true] at hlow
    exact ⟨a, b, u, rfl, hlow.1, hlow.2, hd⟩
  · exact nomatch h

theorem fits_based {t : Text} (h : Text.fits basedKinds t = true) :
    ∃ a b, t = "[e".toList ++ a :: b :: ("+0x".toList ++ t.drop 7) ∧ a.isLower = true ∧
      b.isLower = true := by
  obtain ⟨c, t, rfl, hopen, h⟩ := Text.exists_of_fits_cons h
  obtain ⟨e, t, rfl, he, h⟩ := Text.exists_of_fits_cons h
  obtain ⟨a, t, rfl, ha, h⟩ := Text.exists_of_fits_cons h
  obtain ⟨b, t, rfl, hb, h⟩ := Text.exists_of_fits_cons h
  have hrest := fits_word (w := "+0x".toList) h
  rw [eq_of_beq hopen, eq_of_beq he]
  exact ⟨a, b, congrArg (fun u => '[' :: 'e' :: a :: b :: u) hrest, ha, hb⟩

theorem basedAt_eq_none_iff (t : Text) : basedAt t = none ↔ operandAt basedKinds t = none := by
  rw [operandAt]
  refine ⟨fun h => ?_, fun h => ?_⟩
  · split_ifs with hfits
    · obtain ⟨a, b, ht, ha, hb⟩ := fits_based hfits
      rw [ht] at h
      change (if a.isLower && b.isLower then (hexClosed (t.drop 7)).map _ else none) = none at h
      rw [ha, hb, Bool.and_self, if_pos rfl, Option.map_eq_none_iff] at h
      exact h
    · rfl
  · by_contra hsome
    obtain ⟨m, hm⟩ := Option.ne_none_iff_exists'.mp hsome
    obtain ⟨a, b, u, rfl, ha, hb, hu⟩ := basedAt_eq_some hm
    rw [if_pos (by simp [basedKinds, Text.fits, ha, hb])] at h
    exact absurd (h.symm.trans hu) (by simp)

/-! ## How far an operand is looked for -/

theorem hexClosed_append_of_head {t r : Text} (h : ∀ c ∈ r.head?, isHex c = false ∧ c ≠ ']') :
    hexClosed (t ++ r) = hexClosed t := by
  have hr : r.takeWhile isHex = [] ∧ r.dropWhile isHex = r ∧ r.head? ≠ some ']' := by
    rcases r with - | ⟨c, r⟩
    · simp
    · have hc := h c rfl
      simp [hc.1, hc.2]
  by_cases hall : ∀ c ∈ t, isHex c = true
  · have ht : t.takeWhile isHex = t ∧ t.dropWhile isHex = [] :=
      ⟨List.takeWhile_eq_self_iff.mpr hall, List.dropWhile_eq_nil_iff.mpr hall⟩
    rw [hexClosed, hexClosed, List.dropWhile_append_of_pos hall, ht.2, hr.2.1]
    simp [hr.2.2]
  · have hne : t.dropWhile isHex ≠ [] := fun hnil => hall (List.dropWhile_eq_nil_iff.mp hnil)
    have hlen : (t.takeWhile isHex).length ≠ t.length := by
      intro hlen
      refine hall (List.takeWhile_eq_self_iff.mp ?_)
      exact (List.takeWhile_prefix isHex).eq_of_length hlen
    have htake : (t ++ r).takeWhile isHex = t.takeWhile isHex := by
      rw [List.takeWhile_append, if_neg hlen]
    have hdrop : (t ++ r).dropWhile isHex = t.dropWhile isHex ++ r := by
      rw [List.dropWhile_append, if_neg (by rwa [List.isEmpty_iff])]
    rw [hexClosed, hexClosed, htake, hdrop, List.head?_append_of_ne_nil _ hne]

theorem hexClosed_append_of_some {t : Text} {d : ℕ} (h : hexClosed t = some d) (u : Text) :
    hexClosed (t ++ u) = some d := by
  rw [hexClosed] at h
  simp only [Option.ite_none_right_eq_some, Option.some.injEq, Bool.and_eq_true,
    Bool.not_eq_true', List.isEmpty_eq_false_iff, beq_iff_eq] at h
  obtain ⟨⟨hne, hclose⟩, rfl⟩ := h
  have hhead : ∀ c ∈ (t.dropWhile isHex ++ u).head?, isHex c = false := by
    intro c hc
    rw [List.head?_append, hclose] at hc
    exact Option.some.inj hc ▸ rfl
  have hsplit : t ++ u = t.takeWhile isHex ++ (t.dropWhile isHex ++ u) := by
    rw [← List.append_assoc, List.takeWhile_append_dropWhile]
  have hdigits : ∀ c ∈ t.takeWhile isHex, isHex c = true := fun c hc => List.mem_takeWhile_imp hc
  simp only [hexClosed, hsplit, Text.takeWhile_append_of_head hdigits hhead,
    Text.dropWhile_append_of_head hdigits hhead, List.head?_append, hclose]
  simp [hne]

/-- The kinds of an address operand: the bracket, and what stands in brackets. -/
structure AddressKinds (ks : List (Char → Bool)) : Prop where
  opens : ∃ k rest, ks = k :: rest ∧ (∀ c, k c = true ↔ c = '[') ∧ ∀ j ∈ rest, j '[' = false
  solid : ∀ k ∈ ks, k ',' = false

theorem addressKinds_rip : AddressKinds ripKinds :=
  ⟨⟨_, _, rfl, fun _ => beq_iff_eq, by decide⟩, by decide⟩

theorem addressKinds_based : AddressKinds basedKinds :=
  ⟨⟨_, _, rfl, fun _ => beq_iff_eq, by decide⟩, by decide⟩

section Kinds

variable {ks : List (Char → Bool)} (h : AddressKinds ks)
include h

theorem operandAt_head (c : Char) (t : Text) (hc : c ≠ '[') : operandAt ks (c :: t) = none := by
  obtain ⟨k, rest, rfl, hk, -⟩ := h.opens
  have hfalse : k c = false := by
    rw [Bool.eq_false_iff, ne_eq, hk]
    exact hc
  rw [operandAt, Text.fits, hfalse]
  rfl

/-- The operand ends before the next one begins. -/
theorem operandAt_takeWhile (t : Text) :
    operandAt ks ('[' :: t) = operandAt ks ('[' :: t.takeWhile (· != '[')) := by
  obtain ⟨k, rest, rfl, hk, hrest⟩ := h.opens
  have hhead : ∀ c ∈ (t.dropWhile (· != '[')).head?, c = '[' := by
    intro c hc
    have := List.head?_dropWhile_not (· != '[') t
    rw [hc] at this
    simpa using this
  have hfits : Text.fits rest t = Text.fits rest (t.takeWhile (· != '[')) := by
    conv_lhs => rw [← List.takeWhile_append_dropWhile (p := (· != '[')) (l := t)]
    exact Text.fits_append_eq _ fun c hc j hj => by rw [hhead c hc]; exact hrest j hj
  rw [operandAt, operandAt, Text.fits, Text.fits, hfits]
  split_ifs with hif
  · rw [Bool.and_eq_true] at hif
    have hlen := Text.length_le_of_fits hif.2
    conv_lhs => rw [← List.takeWhile_append_dropWhile (p := (· != '[')) (l := t)]
    rw [List.length_cons, List.drop_succ_cons, List.drop_succ_cons,
      List.drop_append_of_le_length hlen]
    exact hexClosed_append_of_head fun c hc => by rw [hhead c hc]; decide
  · rfl

theorem opens_operandAt : Text.Opens '[' (operandAt ks) where
  head := operandAt_head h
  nil := by
    obtain ⟨k, rest, rfl, -, -⟩ := h.opens
    rfl
  near t u htu hnone := by
    rw [operandAt_takeWhile h] at hnone ⊢
    rwa [← htu]

omit h in
theorem stays_operandAt : Text.Stays (operandAt ks) := by
  intro t u hnone
  rw [operandAt] at hnone ⊢
  split_ifs with hfits
  · by_contra hsome
    obtain ⟨d, hd⟩ := Option.ne_none_iff_exists'.mp hsome
    rw [if_pos (Text.fits_append hfits u),
      List.drop_append_of_le_length (Text.length_le_of_fits hfits),
      hexClosed_append_of_some hd u] at hnone
    exact nomatch hnone
  · rfl

/-! ### Blanks after commas -/

omit h in
theorem spaceCommas_append (t u : Text) : spaceCommas (t ++ u) = spaceCommas t ++ spaceCommas u :=
  List.flatMap_append

omit h in
theorem spaceCommas_eq_self {t : Text} (ht : ',' ∉ t) : spaceCommas t = t := by
  induction t with
  | nil => rfl
  | cons c t ih =>
    rw [List.mem_cons, not_or] at ht
    have hc : (c == ',') = false := beq_eq_false_iff_ne.mpr (Ne.symm ht.1)
    rw [spaceCommas, List.flatMap_cons, hc]
    exact congrArg (c :: ·) (ih ht.2)

theorem operandAt_spaceCommas (t : Text) : operandAt ks (spaceCommas t) = operandAt ks t := by
  by_cases hcomma : ',' ∈ t
  · obtain ⟨u, v, rfl, hu⟩ := List.eq_append_cons_of_mem hcomma
    have hreject : ∀ w : Text, ∀ c ∈ (',' :: w).head?, ∀ k ∈ ks, k c = false := fun w c hc k hk =>
      Option.some.inj hc ▸ h.solid k hk
    have hstop : ∀ w : Text, operandAt ks (u ++ ',' :: w) = operandAt ks u := by
      intro w
      rw [operandAt, operandAt, Text.fits_append_eq u (hreject w)]
      split_ifs with hfits
      · rw [List.drop_append_of_le_length (Text.length_le_of_fits hfits)]
        exact hexClosed_append_of_head fun c hc => Option.some.inj hc ▸ by decide
      · rfl
    rw [spaceCommas_append, spaceCommas_eq_self hu, hstop]
    exact hstop (' ' :: spaceCommas v)
  · rw [spaceCommas_eq_self hcomma]

theorem free_spaceCommas {t : Text} (ht : Text.Free (operandAt ks) t) :
    Text.Free (operandAt ks) (spaceCommas t) := by
  induction t with
  | nil => exact ht
  | cons c t ih =>
    have hwhole : operandAt ks (spaceCommas (c :: t)) = none := by
      rw [operandAt_spaceCommas h]
      exact ht _ List.suffix_rfl
    have hrest := ih (ht.suffix (List.suffix_cons c t))
    intro s hs
    by_cases hc : c = ','
    · subst hc
      rcases List.suffix_cons_iff.mp hs with rfl | hs
      · exact hwhole
      · rcases List.suffix_cons_iff.mp hs with rfl | hs
        · exact operandAt_head h _ _ (by decide)
        · exact hrest s hs
    · have hcons : spaceCommas (c :: t) = c :: spaceCommas t := by
        rw [spaceCommas, List.flatMap_cons, beq_eq_false_iff_ne.mpr hc]
        rfl
      rw [hcons] at hs hwhole
      rcases List.suffix_cons_iff.mp hs with rfl | hs
      · exact hwhole
      · exact hrest s hs

end Kinds

/-! ## The named line -/

/-- `re.search` finds nothing where the pattern matches nowhere. -/
theorem searchText_eq_none_iff {α : Type*} {p : Text → Option α} (hnil : p [] = none) (t : Text) :
    searchText p t = none ↔ Text.Free p t := by
  induction t with
  | nil =>
    refine ⟨fun _ s hs => ?_, fun _ => rfl⟩
    rw [List.suffix_nil.mp hs, hnil]
  | cons c t ih =>
    have hor : searchText p (c :: t) = none ↔ p (c :: t) = none ∧ searchText p t = none := by
      rw [searchText]
      cases p (c :: t) <;> simp
    rw [hor, ih]
    refine ⟨fun ⟨hc, ht⟩ s hs => ?_, fun h => ⟨h _ List.suffix_rfl, h.suffix (List.suffix_cons c t)⟩⟩
    rcases List.suffix_cons_iff.mp hs with rfl | hs
    · exact hc
    · exact ht s hs

/-- A name for an operand: letters and underscores. -/
def OperandName (name : Text) : Prop := ∀ c ∈ name, isNameChar c = true

/-- An operand that has been given a name is none any more. -/
theorem not_fits_named {name : Text} (hname : OperandName name) (rest : Text) :
    Text.fits ripKinds ("[rip+".toList ++ (name ++ [']']) ++ rest) = false ∧
      Text.fits basedKinds ("[rip+".toList ++ (name ++ [']']) ++ rest) = false ∧
      Text.fits ripKinds ("[got+".toList ++ (name ++ [']']) ++ rest) = false ∧
      Text.fits basedKinds ("[got+".toList ++ (name ++ [']']) ++ rest) = false := by
  refine ⟨?_, rfl, rfl, rfl⟩
  have hskip : ∀ u, Text.fits ripKinds ("[rip+".toList ++ u) =
      Text.fits [(· == '0'), (· == 'x')] u := fun u => rfl
  rw [List.append_assoc, hskip]
  rcases name with - | ⟨c, name⟩
  · rfl
  · have hc : (c == '0') = false := beq_eq_false_iff_ne.mpr fun h =>
      absurd (hname c List.mem_cons_self) (by rw [h]; decide)
    rw [List.cons_append, List.cons_append, Text.fits, hc]
    rfl

theorem operandName_no_bracket {name : Text} (hname : OperandName name) (p : Text)
    (hp : '[' ∉ p) : '[' ∉ p ++ (name ++ [']']) := by
  simp only [List.mem_append, List.mem_singleton, not_or]
  exact ⟨hp, fun h => absurd (hname _ h) (by decide), by decide⟩

section Named

variable {name : Text}

theorem ripNamed_eq_none_iff (t : Text) :
    ripNamed name t = none ↔ operandAt ripKinds t = none := by
  rw [ripNamed, Option.map_eq_none_iff, ripAt_eq_none_iff]

theorem basedNamed_eq_none_iff (t : Text) :
    basedNamed name t = none ↔ operandAt basedKinds t = none := by
  rw [basedNamed, Option.map_eq_none_iff, basedAt_eq_none_iff]

theorem opens_ripNamed : Text.Opens '[' (ripNamed name) :=
  (opens_operandAt addressKinds_rip).congr ripNamed_eq_none_iff

theorem opens_basedNamed : Text.Opens '[' (basedNamed name) :=
  (opens_operandAt addressKinds_based).congr basedNamed_eq_none_iff

theorem yields_ripNamed (hname : OperandName name) :
    Text.Yields '[' (operandAt ripKinds) (ripNamed name) := by
  intro t new n h
  obtain ⟨-, -, heq⟩ := Option.map_eq_some_iff.mp h
  obtain ⟨rfl, -⟩ := Prod.mk.inj heq
  refine ⟨"rip+".toList ++ (name ++ [']']), rfl, operandName_no_bracket hname _ (by decide),
    fun rest => ?_⟩
  rw [operandAt, (not_fits_named hname rest).1]
  rfl

theorem yields_basedNamed (hname : OperandName name) {ks : List (Char → Bool)}
    (hks : ks = ripKinds ∨ ks = basedKinds) :
    Text.Yields '[' (operandAt ks) (basedNamed name) := by
  intro t new n h
  obtain ⟨-, -, heq⟩ := Option.map_eq_some_iff.mp h
  obtain ⟨rfl, -⟩ := Prod.mk.inj heq
  refine ⟨"got+".toList ++ (name ++ [']']), rfl, operandName_no_bracket hname _ (by decide),
    fun rest => ?_⟩
  obtain ⟨-, -, hrip, hbased⟩ := not_fits_named hname rest
  rcases hks with rfl | rfl
  · rw [operandAt, hrip]
    rfl
  · rw [operandAt, hbased]
    rfl

/-- Every operand is replaced, and the second replacement brings none of the first back. -/
theorem free_nameOperand (hname : OperandName name) (t : Text) :
    Text.Free (operandAt ripKinds) (nameOperand name t) ∧
      Text.Free (operandAt basedKinds) (nameOperand name t) := by
  have hrip : Text.Free (operandAt ripKinds) (Text.substitute (ripNamed name) 0 t) :=
    Text.not_matched_substitute opens_ripNamed (opens_operandAt addressKinds_rip)
      (yields_ripNamed hname) (fun s _ => (ripNamed_eq_none_iff s).mp) 0
  refine ⟨?_, ?_⟩
  · exact Text.not_matched_substitute opens_basedNamed (opens_operandAt addressKinds_rip)
      (yields_basedNamed hname (Or.inl rfl)) (fun s hs _ => hrip s hs) 0
  · exact Text.not_matched_substitute opens_basedNamed (opens_operandAt addressKinds_based)
      (yields_basedNamed hname (Or.inr rfl)) (fun s _ => (basedNamed_eq_none_iff s).mp) 0

end Named

theorem cutHash_initial (t : Text) : cutHash t <+: t := by
  induction t with
  | nil => exact List.prefix_rfl
  | cons c t ih =>
    rw [cutHash]
    split_ifs
    · exact List.nil_prefix
    · exact (List.prefix_cons_inj c).mpr ih

/-- The name of the callee stands on the line. -/
theorem directCall_name {t name : Text} {target : ℕ} (h : directCall t = some (target, name)) :
    ∃ u, u <:+ t ∧ name <+: u := by
  obtain ⟨r, hr, h⟩ := Option.bind_eq_some_iff.mp h
  have hsuffix : r <:+ t := by
    rw [afterMnem] at hr
    simp only [Option.ite_none_right_eq_some, Option.some.injEq] at hr
    obtain ⟨-, rfl⟩ := hr
    exact (List.dropWhile_suffix _).trans (List.drop_suffix _ _)
  simp only at h
  split_ifs at h with h1 h2 h3
  · obtain ⟨-, rfl⟩ := Prod.mk.inj (Option.some.inj h)
    exact ⟨t, List.suffix_rfl, List.nil_prefix⟩
  · obtain ⟨-, rfl⟩ := Prod.mk.inj (Option.some.inj h)
    exact ⟨_, ((List.drop_suffix _ _).trans (List.dropWhile_suffix _)).trans hsuffix,
      List.dropLast_prefix _⟩

section Line

variable {ks : List (Char → Bool)} (hks : AddressKinds ks)
include hks

theorem free_renderCall {t : Text} (h : Text.Free (operandAt ks) t) (next : Option ℕ) :
    Text.Free (operandAt ks) (renderCall next t) := by
  have hopens := opens_operandAt hks
  rw [renderCall]
  rcases hcall : directCall t with - | ⟨target, name⟩
  · exact h
  · obtain ⟨u, hu, hname⟩ := directCall_name hcall
    simp only
    split_ifs
    · exact h
    · exact Text.free_of_not_mem hopens (by decide)
    · exact ((h.suffix hu).initial stays_operandAt hname).append_left hopens (by decide)

/-- What happens to the line after its operand has been named brings no operand back. -/
theorem free_renderLine {t : Text} (h : Text.Free (operandAt ks) t) (next : Option ℕ) :
    Text.Free (operandAt ks) (spaceCommas (cutHash (renderCall next t))) :=
  free_spaceCommas hks
    ((free_renderCall hks h next).initial stays_operandAt (cutHash_initial _))

end Line

/-- A line on which `globals_read` finds the operand of a global. -/
def ShowsAddress (t : Text) : Prop :=
  searchText ripAt t ≠ none ∨ searchText basedAt t ≠ none

theorem not_showsAddress_renderLine {win : List Insn} {named : Dict ℕ Text} {i : ℕ} {name : Text}
    (hi : named.get? i = some name) (hname : OperandName name) (x : Insn) :
    ¬ ShowsAddress (renderLine win named i x) := by
  have hfree := free_nameOperand hname x.text
  rw [ShowsAddress, not_or, not_not, not_not, renderLine, hi,
    searchText_eq_none_iff rfl, searchText_eq_none_iff rfl]
  exact ⟨(free_renderLine addressKinds_rip hfree.1 _).congr ripAt_eq_none_iff,
    (free_renderLine addressKinds_based hfree.2 _).congr basedAt_eq_none_iff⟩

end OMB
