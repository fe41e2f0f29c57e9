import Mathlib
import OpenMethodBench.Proofs.ChainText

/-! An instruction in which one register is spelled by another of its names: what the
passes find in the second text they find in the first, and the register itself may be
missing. -/

namespace OMB

/-! ## Texts with one register spelled in two ways -/

/-- The second text shows no register that the first does not. -/
structure Sees (t t' : Text) : Prop where
  regs : regsOf t' ⊆ regsOf t
  gprs : gprsOf t' ⊆ gprsOf t

section Sees

variable {s s' t t' : Text}

theorem Sees.refl (t : Text) : Sees t t :=
  ⟨List.Subset.refl _, List.Subset.refl _⟩

theorem append_subset_append {α : Type*} {a a' b b' : List α} (ha : a' ⊆ a) (hb : b' ⊆ b) :
    a' ++ b' ⊆ a ++ b :=
  List.append_subset.mpr ⟨List.Subset.trans ha (List.subset_append_left a b),
    List.Subset.trans hb (List.subset_append_right a b)⟩

theorem Sees.append (hs : Sees s s') (ht : Sees t t') {c : Char}
    (hc : isLow c = false) : Sees (s ++ c :: t) (s' ++ c :: t') := by
  refine ⟨?_, ?_⟩
  · rw [regsOf_append hc, regsOf_append hc]
    exact append_subset_append hs.regs ht.regs
  · rw [gprsOf_append hc, gprsOf_append hc]
    exact append_subset_append hs.gprs ht.gprs

/-- What stands before the register, and after it. -/
theorem Sees.within (h : Sees t t') {u v : Text} (hu : ∀ c ∈ u.getLast?, isLow c = false)
    (hv : ∀ c ∈ v.head?, isLow c = false) : Sees (u ++ t ++ v) (u ++ t' ++ v) := by
  have hleft : Sees (u ++ t) (u ++ t') := by
    rcases List.eq_nil_or_concat u with rfl | ⟨u, c, rfl⟩
    · exact h
    · have hc : isLow c = false := hu c (by simp)
      have happend := (Sees.refl u).append h hc
      simpa using happend
  cases v with
  | nil => simpa using hleft
  | cons c v => exact hleft.append (Sees.refl v) (hv c rfl)

end Sees

/-! ## Blanks and commas -/

theorem not_low_of_space {c : Char} (h : Text.isSpace c = true) : isLow c = false := by
  by_contra hc
  rw [not_space_of_low (by simpa using hc)] at h
  exact absurd h (by decide)

theorem gprsOf_cons {c : Char} (hc : isLow c = false) (t : Text) : gprsOf (c :: t) = gprsOf t :=
  gprsOf_append hc [] t

theorem regsOf_lstrip (t : Text) :
    regsOf (Text.lstrip t) = regsOf t ∧ gprsOf (Text.lstrip t) = gprsOf t := by
  induction t with
  | nil => exact ⟨rfl, rfl⟩
  | cons c t ih =>
    by_cases hc : Text.isSpace c = true
    · rw [Text.lstrip, List.dropWhile_cons_of_pos hc, regsOf_cons (not_low_of_space hc),
        gprsOf_cons (not_low_of_space hc)]
      exact ih
    · rw [Text.lstrip, List.dropWhile_cons_of_neg hc]
      exact ⟨rfl, rfl⟩

theorem regsOf_rdropWhile (t : Text) :
    regsOf (t.rdropWhile Text.isSpace) = regsOf t ∧
      gprsOf (t.rdropWhile Text.isSpace) = gprsOf t := by
  induction t using List.reverseRecOn with
  | nil => exact ⟨rfl, rfl⟩
  | append_singleton t c ih =>
    by_cases hc : Text.isSpace c = true
    · have hlow := not_low_of_space hc
      have hnil : regsOf [] = [] ∧ gprsOf [] = [] := ⟨rfl, rfl⟩
      rw [List.rdropWhile_concat_pos _ _ _ hc, regsOf_append hlow, gprsOf_append hlow, hnil.1,
        hnil.2, List.append_nil, List.append_nil]
      exact ih
    · rw [List.rdropWhile_concat_neg _ _ _ hc]
      exact ⟨rfl, rfl⟩

theorem Sees.strip {t t' : Text} (h : Sees t t') : Sees (Text.strip t) (Text.strip t') := by
  have hregs : ∀ t, regsOf (Text.strip t) = regsOf t := fun t =>
    (regsOf_rdropWhile (Text.lstrip t)).1.trans (regsOf_lstrip t).1
  have hgprs : ∀ t, gprsOf (Text.strip t) = gprsOf t := fun t =>
    (regsOf_rdropWhile (Text.lstrip t)).2.trans (regsOf_lstrip t).2
  refine ⟨?_, ?_⟩
  · rw [hregs, hregs]
    exact h.regs
  · rw [hgprs, hgprs]
    exact h.gprs

theorem Sees.join {fs fs' : List Text} (h : List.Forall₂ Sees fs fs') :
    Sees (Text.join ',' fs) (Text.join ',' fs') := by
  induction h with
  | nil => exact Sees.refl _
  | @cons f f' fs fs' hf hfs ih =>
    cases hfs with
    | nil => simpa using hf
    | cons hg hgs =>
      rw [Text.join_cons_cons, Text.join_cons_cons]
      exact hf.append ih (by decide)

/-! ## Fields -/

/-- The texts before and after a word, cut at the commas next to it. -/
theorem exists_fields (pre post : Text) :
    ∃ (P Q : List Text) (u v : Text),
      (∀ b : Text, ',' ∉ b → (pre ++ b ++ post).splitOn ',' = P ++ (u ++ b ++ v) :: Q) ∧
        (P = [] → u = pre) ∧ (Q = [] → v = post) ∧ u <:+ pre ∧ v <+: post := by
  have hlast : ∃ (P : List Text) (u : Text), ',' ∉ u ∧ (P = [] → u = pre) ∧ u <:+ pre ∧
      ∀ t, (pre ++ t).splitOn ',' = P ++ (u ++ t).splitOn ',' := by
    by_cases hc : ',' ∈ pre
    · obtain ⟨as, bs, h, hbs⟩ := List.eq_append_cons_of_mem (List.mem_reverse.mpr hc)
      have hpre : pre = bs.reverse ++ ',' :: as.reverse := by
        rw [← List.reverse_reverse pre, h]
        simp
      refine ⟨bs.reverse.splitOn ',', as.reverse, by simpa using hbs, fun h0 => ?_,
        ⟨bs.reverse ++ [','], by rw [hpre]; simp⟩, fun t => ?_⟩
      · exact absurd h0 (List.splitOn_ne_nil _ _)
      · rw [hpre, List.append_assoc, List.cons_append, List.splitOn_append_cons_self]
    · exact ⟨[], pre, hc, fun _ => rfl, List.suffix_refl _, fun t => rfl⟩
  have hfirst : ∃ (v : Text) (Q : List Text), ',' ∉ v ∧ (Q = [] → v = post) ∧ v <+: post ∧
      ∀ t, ',' ∉ t → (t ++ post).splitOn ',' = (t ++ v) :: Q := by
    by_cases hc : ',' ∈ post
    · obtain ⟨as, bs, h, has⟩ := List.eq_append_cons_of_mem hc
      refine ⟨as, bs.splitOn ',', has, fun h0 => absurd h0 (List.splitOn_ne_nil _ _),
        ⟨',' :: bs, by rw [h]⟩, fun t ht => ?_⟩
      have hno : ',' ∉ t ++ as := by simp [ht, has]
      rw [h, ← List.append_assoc, List.splitOn_append_cons_self_of_not_mem hno]
    · refine ⟨post, [], hc, fun _ => rfl, List.prefix_refl _, fun t ht => ?_⟩
      have hno : ',' ∉ t ++ post := by simp [ht, hc]
      exact List.splitOn_eq_singleton hno
  obtain ⟨P, u, hu, hP, hsuffix, hpre⟩ := hlast
  obtain ⟨v, Q, hv, hQ, hprefix, hpost⟩ := hfirst
  refine ⟨P, Q, u, v, fun b hb => ?_, hP, hQ, hsuffix, hprefix⟩
  have hub : ',' ∉ u ++ b := by simp [hu, hb]
  rw [List.append_assoc, hpre, ← List.append_assoc, hpost _ hub]

/-! ## Stores, brackets and slots -/

/-- A word of `[a-z0-9]`. -/
structure LowWord (b : Text) : Prop where
  nonempty : b ≠ []
  low : ∀ c ∈ b, isLow c = true

theorem LowWord.name (n : RegName) : LowWord n.text := ⟨name_ne_nil n, name_low n⟩

theorem LowWord.exists_cons {b : Text} (h : LowWord b) :
    ∃ c t, b = c :: t ∧ isLow c = true := by
  obtain ⟨c, t, rfl⟩ := List.exists_cons_of_ne_nil h.nonempty
  exact ⟨c, t, rfl, h.low c List.mem_cons_self⟩

section Words

variable {b b' : Text} (hb : LowWord b) (hb' : LowWord b')

theorem LowWord.ne_close {b : Text} (h : LowWord b) : ∀ c ∈ b, (c != ']') = true :=
  fun c hc => bne_iff_ne.mpr (ne_of_low (h.low c hc) (by decide))

/-- What the pattern of a store wants behind the size. -/
def storesRest (u : Text) : Bool :=
  u.take 6 == " PTR [".toList && !((u.drop 6).takeWhile (· != ']')).isEmpty &&
    ((u.drop 6).dropWhile (· != ']')).take 2 == "],".toList

theorem storesTo_eq (ops : Text) :
    storesTo ops = (!(ops.takeWhile isWordChar).isEmpty && storesRest (ops.dropWhile isWordChar)) := by
  simp only [storesTo, storesRest, Bool.and_assoc]

include hb hb'

/-- Inside the brackets, and behind them, a word is as good as another. -/
theorem closes_congr (s post : Text) :
    (!((s ++ b ++ post).takeWhile (· != ']')).isEmpty &&
      ((s ++ b ++ post).dropWhile (· != ']')).take 2 == "],".toList) =
    (!((s ++ b' ++ post).takeWhile (· != ']')).isEmpty &&
      ((s ++ b' ++ post).dropWhile (· != ']')).take 2 == "],".toList) := by
  obtain ⟨c, t, rfl, hc⟩ := hb.exists_cons
  obtain ⟨c', t', rfl, hc'⟩ := hb'.exists_cons
  by_cases hs : ']' ∈ s
  · obtain ⟨u, v, rfl, hu⟩ := List.eq_append_cons_of_mem hs
    have hclose : ∀ d ∈ u, (d != ']') = true := fun d hd =>
      bne_iff_ne.mpr fun h => hu (h ▸ hd)
    have happend : ∀ w : Text, u ++ ']' :: v ++ w ++ post = u ++ (']' :: (v ++ w ++ post)) := by
      simp
    rw [happend, happend, Text.takeWhile_append_of_head hclose (by simp),
      Text.takeWhile_append_of_head hclose (by simp),
      Text.dropWhile_append_of_head hclose (by simp),
      Text.dropWhile_append_of_head hclose (by simp)]
    cases v with
    | nil =>
      have h1 : (c == ',') = false :=
        beq_eq_false_iff_ne.mpr (ne_of_low hc (show isLow ',' = false by decide))
      have h2 : (c' == ',') = false :=
        beq_eq_false_iff_ne.mpr (ne_of_low hc' (show isLow ',' = false by decide))
      simp [h1, h2]
    | cons d v => rfl
  · have hclose : ∀ {w : Text}, LowWord w → ∀ d ∈ s ++ w, (d != ']') = true := by
      intro w hw d hd
      rcases List.mem_append.mp hd with hd | hd
      · exact bne_iff_ne.mpr fun h => hs (h ▸ hd)
      · exact hw.ne_close d hd
    rw [List.takeWhile_append_of_pos (hclose hb), List.takeWhile_append_of_pos (hclose hb'),
      List.dropWhile_append_of_pos (hclose hb), List.dropWhile_append_of_pos (hclose hb')]
    have hfull : ∀ w : Text, w ≠ [] → ∀ x : Text, (s ++ w ++ x).isEmpty = false := by
      intro w hw x
      simp [hw]
    rw [hfull _ hb.nonempty, hfull _ hb'.nonempty]

theorem storesRest_congr (r post : Text) :
    storesRest (r ++ b ++ post) = storesRest (r ++ b' ++ post) := by
  rcases Nat.lt_or_ge r.length 6 with hlt | hge
  · -- the word starts where the pattern has a capital, a blank or the bracket
    have hfalse : ∀ {w : Text}, LowWord w → storesRest (r ++ w ++ post) = false := by
      intro w hw
      obtain ⟨c, t, rfl, hc⟩ := hw.exists_cons
      have htake : (r ++ c :: t ++ post).take 6 ≠ " PTR [".toList := by
        intro h
        have hget := congrArg (fun l : Text => l[r.length]?) h
        simp only [List.getElem?_take, if_pos hlt, List.append_assoc, List.cons_append,
          List.getElem?_append_right (Nat.le_refl r.length), Nat.sub_self,
          List.getElem?_cons_zero] at hget
        have hpat : ∀ d ∈ " PTR [".toList, isLow d = false := by decide
        rw [hpat c (List.mem_of_getElem? hget.symm)] at hc
        exact absurd hc (by decide)
      rw [storesRest, beq_eq_false_iff_ne.mpr htake]
      rfl
    rw [hfalse hb, hfalse hb']
  · have hsplit : ∀ w : Text, (r ++ w ++ post).take 6 = r.take 6 ∧
        (r ++ w ++ post).drop 6 = r.drop 6 ++ w ++ post := by
      intro w
      rw [List.append_assoc, List.take_append_of_le_length hge, List.drop_append_of_le_length hge,
        List.append_assoc]
      exact ⟨rfl, rfl⟩
    simp only [storesRest, (hsplit b).1, (hsplit b).2, (hsplit b').1, (hsplit b').2, Bool.and_assoc,
      closes_congr hb hb' (r.drop 6) post]

/-- A word in place of another does not make or break the pattern of a store. -/
theorem storesTo_congr (pre post : Text) :
    storesTo (pre ++ b ++ post) = storesTo (pre ++ b' ++ post) := by
  have hword : ∀ {w : Text}, LowWord w → ∀ c ∈ w, isWordChar c = true := fun hw c hc =>
    wordChar_of_low (hw.low c hc)
  by_cases hpre : ∀ c ∈ pre, isWordChar c = true
  · have hall : ∀ {w : Text}, LowWord w → ∀ c ∈ pre ++ w, isWordChar c = true := by
      intro w hw c hc
      rcases List.mem_append.mp hc with hc | hc
      · exact hpre c hc
      · exact hword hw c hc
    have hfull : ∀ w : Text, w ≠ [] → ∀ x : Text, (pre ++ w ++ x).isEmpty = false := by
      intro w hw x
      simp [hw]
    rw [storesTo_eq, storesTo_eq, List.takeWhile_append_of_pos (hall hb),
      List.takeWhile_append_of_pos (hall hb'), List.dropWhile_append_of_pos (hall hb),
      List.dropWhile_append_of_pos (hall hb'), hfull _ hb.nonempty, hfull _ hb'.nonempty]
  · -- the size ends before the word
    have hne : pre.dropWhile isWordChar ≠ [] := fun h => hpre (List.dropWhile_eq_nil_iff.mp h)
    obtain ⟨c, r, hr⟩ := List.exists_cons_of_ne_nil hne
    have hc : isWordChar c = false := by
      have h := List.head_dropWhile_not isWordChar hne
      simpa [hr] using h
    have hsplit : pre = pre.takeWhile isWordChar ++ c :: r := by
      rw [← hr, List.takeWhile_append_dropWhile]
    have hsize : ∀ d ∈ pre.takeWhile isWordChar, isWordChar d = true := fun d hd =>
      List.mem_takeWhile_imp hd
    have hrest : ∀ w : Text, storesTo (pre ++ w ++ post) =
        (!(pre.takeWhile isWordChar).isEmpty && storesRest (c :: r ++ w ++ post)) := by
      intro w
      have happend : pre ++ w ++ post = pre.takeWhile isWordChar ++ (c :: r ++ w ++ post) := by
        conv_lhs => rw [hsplit]
        simp
      rw [happend, storesTo_eq, Text.takeWhile_append_of_head hsize (by simp [hc]),
        Text.dropWhile_append_of_head hsize (by simp [hc])]
    rw [hrest, hrest, storesRest_congr hb hb']

end Words

theorem low_getLast {c : Char} {p : Text} (h : ∀ d ∈ (c :: p).getLast?, isLow d = false) :
    ∀ d ∈ p.getLast?, isLow d = false := by
  cases p with
  | nil => simp
  | cons d p => simpa using h

theorem bracketed_append_left {t : Text} (h : '[' ∉ t) (u : Text) :
    bracketed (t ++ u) = bracketed u := by
  induction t with
  | nil => rfl
  | cons c t ih =>
    have hc : (c == '[') = false := beq_eq_false_iff_ne.mpr fun hc => h (hc ▸ List.mem_cons_self)
    rw [List.cons_append, bracketed, hc, ih fun ht => h (List.mem_cons_of_mem c ht)]
    rfl

theorem rel_refl (o : Option Text) : Option.Rel Sees o o := by
  cases o with
  | none => exact Option.Rel.none
  | some t => exact Option.Rel.some (Sees.refl t)

/-- The brackets found are the same, with the one register in them or not. -/
theorem bracketed_sees {b b' : Text} (hb : LowWord b) (hb' : LowWord b')
    (h : Sees b b') {pre post : Text} (hpre : ∀ c ∈ pre.getLast?, isLow c = false)
    (hpost : ∀ c ∈ post.head?, isLow c = false) :
    Option.Rel Sees (bracketed (pre ++ b ++ post)) (bracketed (pre ++ b' ++ post)) := by
  have hopen : ∀ {w : Text}, LowWord w → '[' ∉ w := fun hw hc =>
    ne_of_low (hw.low _ hc) (by decide) rfl
  induction pre with
  | nil =>
    rw [List.nil_append, List.nil_append, bracketed_append_left (hopen hb),
      bracketed_append_left (hopen hb')]
    exact rel_refl _
  | cons c p ih =>
    have hrest := ih (low_getLast hpre)
    by_cases hp : ']' ∈ p
    · -- the brackets close before the word
      obtain ⟨u, v, rfl, hu⟩ := List.eq_append_cons_of_mem hp
      have hclose : ∀ d ∈ u, (d != ']') = true := fun d hd =>
        bne_iff_ne.mpr fun h => hu (h ▸ hd)
      have htake : ∀ w : Text, (u ++ ']' :: v ++ w ++ post).takeWhile (· != ']') = u := by
        intro w
        rw [List.append_assoc, List.append_assoc]
        exact Text.takeWhile_append_of_head hclose (by simp)
      have hcontains : ∀ w : Text, (u ++ ']' :: v ++ w ++ post).contains ']' = true := by
        intro w
        simp
      simp only [List.cons_append, bracketed]
      simp only [htake, hcontains]
      split_ifs
      · exact Option.Rel.some (Sees.refl u)
      · exact hrest
    · have hclose : ∀ {w : Text}, LowWord w → ∀ d ∈ p ++ w, (d != ']') = true := by
        intro w hw d hd
        rcases List.mem_append.mp hd with hd | hd
        · exact bne_iff_ne.mpr fun h => hp (h ▸ hd)
        · exact hw.ne_close d hd
      have htake : ∀ {w : Text}, LowWord w →
          (p ++ w ++ post).takeWhile (· != ']') = p ++ w ++ post.takeWhile (· != ']') :=
        fun hw => List.takeWhile_append_of_pos (hclose hw)
      have hfull : ∀ {w : Text}, LowWord w → (p ++ w ++ post.takeWhile (· != ']')).isEmpty = false := by
        intro w hw
        simp [hw.nonempty]
      have hcontains : ∀ {w : Text}, LowWord w →
          (p ++ w ++ post).contains ']' = post.contains ']' := by
        intro w hw
        have hno : ']' ∉ w := fun hc => bne_iff_ne.mp (hw.ne_close _ hc) rfl
        simp [hp, hno]
      have hpost' : ∀ d ∈ (post.takeWhile (· != ']')).head?, isLow d = false := by
        intro d hd
        cases post with
        | nil => simp at hd
        | cons e post =>
          rw [List.takeWhile_cons] at hd
          split_ifs at hd
          · exact hpost d hd
          · simp at hd
      simp only [List.cons_append, bracketed, htake hb, htake hb', hfull hb, hfull hb',
        hcontains hb, hcontains hb']
      split_ifs
      · exact Option.Rel.some (h.within (low_getLast hpre) hpost')
      · exact hrest

/-- What stands in brackets, as a slot: `[er]sp\+(0x[0-9a-f]+)`. -/
def slotBody : Text → Option ℕ
  | c :: 's' :: 'p' :: '+' :: '0' :: 'x' :: h =>
    if (c == 'e' || c == 'r') && !h.isEmpty && h.all isHex then some (hexVal h) else none
  | _ => none

theorem isHex_ne_close {c : Char} (h : isHex c = true) : (c != ']') = true := by
  refine bne_iff_ne.mpr fun hc => ?_
  rw [hc] at h
  exact absurd h (by decide)

/-- The digits of a slot run to the closing bracket. -/
theorem slotAt_digits (c : Char) (t : Text) :
    (slotAt ('[' :: c :: 's' :: 'p' :: '+' :: '0' :: 'x' :: t)).map Prod.fst =
      if ']' ∈ t ∧ (t.takeWhile (· != ']')).all isHex = true ∧ (c = 'e' ∨ c = 'r') ∧
          t.takeWhile (· != ']') ≠ []
      then some (hexVal (t.takeWhile (· != ']'))) else none := by
  have hhex : ∀ d ∈ t.takeWhile isHex, isHex d = true := fun d hd => List.mem_takeWhile_imp hd
  have hclose : ∀ d ∈ t.takeWhile isHex, (d != ']') = true := fun d hd =>
    isHex_ne_close (hhex d hd)
  have ht : t = t.takeWhile isHex ++ t.dropWhile isHex := List.takeWhile_append_dropWhile.symm
  rcases hd : t.dropWhile isHex with - | ⟨d, rest⟩
  · have hno : ']' ∉ t := by
      rw [ht, hd, List.append_nil]
      exact fun hc => bne_iff_ne.mp (hclose _ hc) rfl
    simp [slotAt, hd, hno]
  · by_cases hdc : d = ']'
    · subst hdc
      have htake : t.takeWhile (· != ']') = t.takeWhile isHex := by
        conv_lhs => rw [ht, hd]
        exact Text.takeWhile_append_of_head hclose (by simp)
      have hmem : ']' ∈ t := by
        rw [ht, hd]
        simp
      have hall : (t.takeWhile isHex).all isHex = true := List.all_eq_true.mpr hhex
      rw [htake]
      by_cases hc : (c = 'e' ∨ c = 'r') ∧ t.takeWhile isHex ≠ []
      · simp [slotAt, hd, hmem, hall, hc]
      · rw [if_neg fun h => hc h.2.2]
        have hfalse : ((c == 'e' || c == 'r') && !(t.takeWhile isHex).isEmpty) = false := by
          simpa using hc
        simp [slotAt, hd, hfalse]
    · have hnot : (t.takeWhile (· != ']')).all isHex = false := by
        have hdhex : isHex d = false := by
          have h := List.head_dropWhile_not isHex (l := t) (by simp [hd])
          simpa [hd] using h
        have htake : t.takeWhile (· != ']') =
            t.takeWhile isHex ++ d :: rest.takeWhile (· != ']') := by
          conv_lhs => rw [ht, hd]
          rw [List.takeWhile_append_of_pos hclose, List.takeWhile_cons_of_pos (by simpa using hdc)]
        rw [htake]
        simp [hdhex]
      rw [hnot]
      unfold slotAt
      simp only [hd]
      split
      · rename_i heq
        exact absurd (List.cons.inj heq).1 hdc
      · simp

/-- A slot is told by the text up to the first closing bracket. -/
theorem slotAt_fst (u : Text) :
    (slotAt ('[' :: u)).map Prod.fst =
      if ']' ∈ u then slotBody (u.takeWhile (· != ']')) else none := by
  by_cases h : ∃ c t, u = c :: 's' :: 'p' :: '+' :: '0' :: 'x' :: t
  · obtain ⟨c, t, rfl⟩ := h
    rw [slotAt_digits]
    by_cases hc : c = ']'
    · subst hc
      simp [slotBody]
    · have htake : (c :: 's' :: 'p' :: '+' :: '0' :: 'x' :: t).takeWhile (· != ']') =
          c :: 's' :: 'p' :: '+' :: '0' :: 'x' :: t.takeWhile (· != ']') := by
        simp [hc]
      have hmem : ']' ∈ c :: 's' :: 'p' :: '+' :: '0' :: 'x' :: t ↔ ']' ∈ t := by
        simp [Ne.symm hc]
      rw [htake, slotBody]
      simp only [hmem, Bool.and_eq_true, Bool.or_eq_true, beq_iff_eq, Bool.not_eq_true',
        List.isEmpty_eq_false_iff]
      by_cases ht : ']' ∈ t
      · simp only [ht, true_and, if_true]
        exact if_congr ⟨fun h => ⟨⟨h.2.1, h.2.2⟩, h.1⟩, fun h => ⟨h.2, h.1.1, h.1.2⟩⟩ rfl rfl
      · simp [ht]
  · have hslot : slotAt ('[' :: u) = none := by
      unfold slotAt
      split
      · rename_i c t heq
        exact absurd ⟨c, t, (List.cons.inj heq).2⟩ h
      · rfl
    have hbody : slotBody (u.takeWhile (· != ']')) = none := by
      unfold slotBody
      split
      · rename_i c t heq
        refine absurd ⟨c, t ++ u.dropWhile (· != ']'), ?_⟩ h
        conv_lhs => rw [← List.takeWhile_append_dropWhile (p := (· != ']')) (l := u), heq]
        rfl
      · rfl
    rw [hslot, hbody, ite_self]
    rfl

theorem isLow_of_isHex {c : Char} (h : isHex c = true) : isLow c = true := by
  simp only [isHex, Bool.or_eq_true, Bool.and_eq_true, decide_eq_true_eq] at h
  rcases h with h | ⟨ha, hf⟩
  · simp [isLow, h]
  · have hlower : c.isLower = true := by
      rw [Char.le_def, UInt32.le_iff_toNat_le] at ha hf
      have h97 : ('a' : Char).val.toNat = 97 := rfl
      have h102 : ('f' : Char).val.toNat = 102 := rfl
      have h122 : ('z' : Char).val.toNat = 122 := rfl
      simp only [Char.isLower, Bool.and_eq_true, decide_eq_true_eq, ge_iff_le,
        UInt32.le_iff_toNat_le]
      omega
    simp [isLow, hlower]

/-- A word behind a character of another kind is no part of a word, that character and a
number. -/
theorem append_ne_of_low {p w u r h : Text} {s : Char} (hp : p ≠ [])
    (hlast : ∀ c ∈ p.getLast?, isLow c = false) (hw : LowWord w) (hzero : w.head? ≠ some '0')
    (hr : ∀ c ∈ r, isLow c = true) (hh : ∀ c ∈ h, isLow c = true) :
    p ++ w ++ u ≠ r ++ s :: '0' :: h := by
  intro heq
  obtain ⟨q, a, hq⟩ := (List.eq_nil_or_concat p).resolve_left hp
  rw [List.concat_eq_append] at hq
  subst hq
  have ha : isLow a = false := hlast a (by simp)
  obtain ⟨b, t, rfl, -⟩ := hw.exists_cons
  have hlength : q.length = r.length := by
    by_contra hne
    have hget : (q ++ [a] ++ b :: t ++ u)[q.length]? = some a := by simp
    rw [heq] at hget
    have hlow : isLow a = true := by
      rcases Nat.lt_or_gt_of_ne hne with hlt | hgt
      · rw [List.getElem?_append_left hlt] at hget
        exact hr a (List.mem_of_getElem? hget)
      · obtain ⟨k, hk⟩ : ∃ k, q.length - r.length = k + 1 := ⟨q.length - r.length - 1, by omega⟩
        rw [List.getElem?_append_right (by omega), hk, List.getElem?_cons_succ] at hget
        rcases List.mem_cons.mp (List.mem_of_getElem? hget) with rfl | hmem
        · rfl
        · exact hh a hmem
    rw [hlow] at ha
    exact absurd ha (by decide)
  have happend : q ++ (a :: b :: (t ++ u)) = r ++ s :: '0' :: h := by
    rw [← heq]
    simp
  have htail := (List.append_inj happend hlength).2
  exact hzero (congrArg some (List.cons.inj (List.cons.inj htail).2).1)

/-- It is no part of a slot, unless it is the stack pointer itself. -/
theorem slotBody_eq_none {p w u : Text} (hp : p ≠ [])
    (hlast : ∀ c ∈ p.getLast?, isLow c = false) (hw : LowWord w) (hzero : w.head? ≠ some '0') :
    slotBody (p ++ w ++ u) = none := by
  unfold slotBody
  split
  · rename_i c h heq
    rw [if_neg]
    simp only [Bool.and_eq_true, Bool.or_eq_true, beq_iff_eq, not_and, and_imp]
    intro hc _ hhex
    have hlow : ∀ d ∈ [c, 's', 'p'], isLow d = true := by
      rcases hc with rfl | rfl <;> decide
    have hnum : ∀ d ∈ 'x' :: h, isLow d = true := by
      intro d hd
      rcases List.mem_cons.mp hd with rfl | hd
      · rfl
      · exact isLow_of_isHex (List.all_eq_true.mp hhex d hd)
    exact append_ne_of_low hp hlast hw hzero hlow hnum heq
  · rfl

/-- The stack pointer's two wide names stand for the same slots. -/
theorem slotAt_wide {n n' : RegName} (hreg : n.reg = n'.reg) (hn : n.isWide = true)
    (hn' : n'.isWide = true) (u : Text) :
    (slotAt ('[' :: (n.text ++ u))).map Prod.fst = (slotAt ('[' :: (n'.text ++ u))).map Prod.fst := by
  have hname : ∀ n : RegName, n.isWide = true → ∃ wide, n = (Dst.mk n.reg wide).name := by
    intro n hn
    cases n with
    | full g => exact ⟨true, rfl⟩
    | half g => exact ⟨false, rfl⟩
    | word g => simp [RegName.isWide] at hn
    | low g => simp [RegName.isWide] at hn
    | high x => simp [RegName.isWide] at hn
  obtain ⟨a, ha⟩ := hname n hn
  obtain ⟨b, hb⟩ := hname n' hn'
  rw [ha, hb, ← hreg]
  by_cases hsp : n.reg = .pointer .sp
  · rw [hsp]
    by_cases hu : u.take 3 = "+0x".toList
    · obtain ⟨t, rfl⟩ : ∃ t, u = '+' :: '0' :: 'x' :: t :=
        ⟨u.drop 3, by rw [← List.take_append_drop 3 u, hu]; simp⟩
      have hdigits : ∀ wide : Bool,
          (slotAt ('[' :: ((Dst.mk (.pointer .sp) wide).name.text ++
            '+' :: '0' :: 'x' :: t))).map Prod.fst =
          if ']' ∈ t ∧ (t.takeWhile (· != ']')).all isHex = true ∧ t.takeWhile (· != ']') ≠ []
          then some (hexVal (t.takeWhile (· != ']'))) else none := by
        intro wide
        cases wide
        · exact (slotAt_digits 'e' t).trans (by simp)
        · exact (slotAt_digits 'r' t).trans (by simp)
      rw [hdigits a, hdigits b]
    · rw [slotAt_sp hu, slotAt_sp hu]
  · rw [slotAt_name hsp, slotAt_name hsp]

/-- The slot named is the same, whichever name of the register stands there. -/
theorem slotIn_congr {n n' : RegName} (hreg : n.reg = n'.reg) {pre : Text} (post : Text)
    (hpre : ∀ c ∈ pre.getLast?, isLow c = false)
    (hwide : pre.getLast? = some '[' → n.isWide = true ∧ n'.isWide = true) :
    slotIn (pre ++ n.text ++ post) = slotIn (pre ++ n'.text ++ post) := by
  have hzero : ∀ n : RegName, n.text.head? ≠ some '0' := by decide
  induction pre with
  | nil =>
    rw [List.nil_append, List.nil_append, slotIn_append (no_bracket_name n),
      slotIn_append (no_bracket_name n')]
  | cons c p ih =>
    have hrest := ih (low_getLast hpre) fun h => by
      cases p with
      | nil => simp at h
      | cons d p => exact hwide (by simpa using h)
    have hat : (slotAt (c :: (p ++ n.text ++ post))).map Prod.fst =
        (slotAt (c :: (p ++ n'.text ++ post))).map Prod.fst := by
      by_cases hc : c = '['
      · subst hc
        by_cases hp : p = []
        · subst hp
          obtain ⟨hn, hn'⟩ := hwide rfl
          exact slotAt_wide hreg hn hn' post
        · have hnone : ∀ n : RegName, ']' ∉ p →
              slotBody ((p ++ n.text ++ post).takeWhile (· != ']')) = none := by
            intro n hclose
            have hall : ∀ d ∈ p ++ n.text, (d != ']') = true := by
              intro d hd
              rcases List.mem_append.mp hd with hd | hd
              · exact bne_iff_ne.mpr fun h => hclose (h ▸ hd)
              · exact (LowWord.name n).ne_close d hd
            rw [List.takeWhile_append_of_pos hall]
            exact slotBody_eq_none hp (low_getLast hpre) (LowWord.name n) (hzero n)
          rw [slotAt_fst, slotAt_fst]
          by_cases hclose : ']' ∈ p
          · obtain ⟨u, v, rfl, hu⟩ := List.eq_append_cons_of_mem hclose
            have hbefore : ∀ d ∈ u, (d != ']') = true := fun d hd =>
              bne_iff_ne.mpr fun h => hu (h ▸ hd)
            have htake : ∀ w : Text, (u ++ ']' :: v ++ w ++ post).takeWhile (· != ']') = u := by
              intro w
              rw [List.append_assoc, List.append_assoc]
              exact Text.takeWhile_append_of_head hbefore (by simp)
            have hmem : ∀ w : Text, ']' ∈ u ++ ']' :: v ++ w ++ post := fun w => by simp
            rw [if_pos (hmem _), if_pos (hmem _), htake, htake]
          · rw [hnone n hclose, hnone n' hclose, ite_self, ite_self]
      · rw [slotAt_eq_none hc, slotAt_eq_none hc]
    rw [List.cons_append, List.cons_append, List.cons_append, List.cons_append, slotIn, slotIn, hat,
      hrest]

end OMB
