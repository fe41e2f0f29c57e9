import Mathlib
import OpenMethodBench.Proofs.SummaryTable

/-! The prose around the tables brings no markup into the document, whatever is interpolated. -/

namespace OMB

/-- Not two backticks in a row. -/
def Unfenced (t : Text) : Prop := t.IsChain fun a b => ¬(a = '`' ∧ b = '`')

/-- A value that brings no markup into the prose. -/
def Mild (t : Text) : Prop := '`' ∉ t ∧ '|' ∉ t

/-- What prose without a table or a listing is made of: no fence, and no pipe. -/
def Quiet (t : Text) : Prop := Unfenced t ∧ '|' ∉ t

instance : DecidablePred Quiet := fun t =>
  inferInstanceAs (Decidable ((t.IsChain fun a b => ¬(a = '`' ∧ b = '`')) ∧ '|' ∉ t))

-- the elaborator finds the characters of a literal without evaluating `String.toList`
theorem quiet_literal {cs : List Char} (h : Quiet cs) : Quiet (String.ofList cs).toList := by
  rwa [String.toList_ofList]

theorem unfenced_of_not_mem {t : Text} (h : '`' ∉ t) : Unfenced t := by
  induction t with
  | nil => exact List.isChain_nil
  | cons c t ih =>
    rw [List.mem_cons, not_or] at h
    refine List.isChain_cons.mpr ⟨fun d _ hcd => h.1 hcd.1.symm, ih h.2⟩

theorem Unfenced.append {t u : Text} (ht : Unfenced t) (hu : Unfenced u)
    (hhead : u.head? ≠ some '`') : Unfenced (t ++ u) :=
  List.isChain_append.mpr ⟨ht, hu, fun _ _ _ hd hcd => hhead (hcd.2 ▸ hd)⟩

theorem head_append_ne {t u : Text} {c : Char} (ht : t.head? ≠ some c) (hu : u.head? ≠ some c) :
    (t ++ u).head? ≠ some c := by
  rcases t with - | ⟨d, t⟩
  · exact hu
  · exact ht

theorem head_ne_of_not_mem {t : Text} {c : Char} (h : c ∉ t) : t.head? ≠ some c :=
  fun hc => h (List.mem_of_head? hc)

theorem mem_interpolated {ps vs : List Text} {c : Char} (h : c ∈ interpolated ps vs) :
    (∃ p ∈ ps, c ∈ p) ∨ ∃ v ∈ vs, c ∈ v := by
  induction ps, vs using interpolated.induct with
  | case1 p ps v vs ih =>
    rw [interpolated] at h
    rcases List.mem_append.mp h with h | h
    · exact Or.inl ⟨p, List.mem_cons_self, h⟩
    rcases List.mem_append.mp h with h | h
    · exact Or.inr ⟨v, List.mem_cons_self, h⟩
    · rcases ih h with ⟨q, hq, hc⟩ | ⟨w, hw, hc⟩
      · exact Or.inl ⟨q, List.mem_cons_of_mem p hq, hc⟩
      · exact Or.inr ⟨w, List.mem_cons_of_mem v hw, hc⟩
  | case2 ps vs hnot =>
    rw [interpolated] at h
    · exact Or.inl (List.mem_flatten.mp h)
    · exact hnot

theorem unfenced_flatten {ps : List Text} (h : ∀ p ∈ ps, Unfenced p ∧ p.head? ≠ some '`') :
    Unfenced ps.flatten ∧ ps.flatten.head? ≠ some '`' := by
  induction ps with
  | nil => exact ⟨List.isChain_nil, by simp⟩
  | cons p ps ih =>
    obtain ⟨hp, hhead⟩ := h p List.mem_cons_self
    obtain ⟨hps, hrest⟩ := ih fun q hq => h q (List.mem_cons_of_mem p hq)
    rw [List.flatten_cons]
    exact ⟨hp.append hps hrest, head_append_ne hhead hrest⟩

theorem unfenced_interpolated {ps vs : List Text}
    (hps : ∀ p ∈ ps, Unfenced p ∧ p.head? ≠ some '`') (hvs : ∀ v ∈ vs, '`' ∉ v) :
    Unfenced (interpolated ps vs) ∧ (interpolated ps vs).head? ≠ some '`' := by
  induction ps, vs using interpolated.induct with
  | case1 p ps v vs ih =>
    obtain ⟨hp, hhead⟩ := hps p List.mem_cons_self
    have hv := hvs v List.mem_cons_self
    obtain ⟨hrest, hresthead⟩ := ih (fun q hq => hps q (List.mem_cons_of_mem p hq))
      fun w hw => hvs w (List.mem_cons_of_mem v hw)
    have hvalue := (unfenced_of_not_mem hv).append hrest hresthead
    have hvaluehead := head_append_ne (head_ne_of_not_mem hv) hresthead
    rw [interpolated]
    exact ⟨hp.append hvalue hvaluehead, head_append_ne hhead hvaluehead⟩
  | case2 ps vs hnot =>
    rw [interpolated]
    · exact unfenced_flatten hps
    · exact hnot

/-- Prose without a pipe or a fence is left as it is by what reads the document. -/
theorem plain_prose {t : Text} (hpipe : '|' ∉ t) (hfence : openFence ∉ Text.words t) :
    (∀ l ∈ linesOf (prose t), isRow l = false) ∧ openFence ∉ linesOf (prose t) := by
  refine ⟨fun l hl => isRow_of_not_mem fun hc => hpipe ?_, fun hl => hfence ?_⟩
  · exact mem_of_mem_prose (Text.mem_of_mem_splitOn hl hc) (by decide)
  · rw [← words_prose]
    exact words_subset_of_mem_linesOf hl (by decide)

theorem quiet_join {ts : List Text} (h : ∀ t ∈ ts, Quiet t) : Quiet (Text.join '\n' ts) := by
  induction ts with
  | nil => exact ⟨List.isChain_nil, by simp [Text.join]⟩
  | cons t ts ih =>
    obtain ⟨hchain, hpipe⟩ := h t List.mem_cons_self
    obtain ⟨hrest, hnone⟩ := ih fun u hu => h u (List.mem_cons_of_mem t hu)
    rcases ts with - | ⟨u, us⟩
    · rw [Text.join_singleton]
      exact ⟨hchain, hpipe⟩
    · rw [Text.join_cons_cons]
      have hbreak : Unfenced ('\n' :: Text.join '\n' (u :: us)) :=
        List.isChain_cons.mpr ⟨fun _ _ hc => absurd hc.1 (by decide), hrest⟩
      exact ⟨hchain.append hbreak (by simp), by simp [hpipe, hnone]⟩

theorem quiet_introLines : ∀ s ∈ introLines, Quiet s.toList := by
  unfold introLines
  repeat' refine List.forall_mem_cons.mpr ⟨quiet_literal (by decide +kernel), ?_⟩
  simp

theorem quiet_showsLines : ∀ ls ∈ showsLines, ∀ s ∈ ls, Quiet s.toList := by
  unfold showsLines
  repeat' refine List.forall_mem_cons.mpr ⟨?_, ?_⟩
  all_goals first | exact quiet_literal (by decide +kernel) | simp

theorem quiet_proseLines {ls : List String} (h : ∀ s ∈ ls, Quiet s.toList) : Quiet (proseLines ls) :=
  quiet_join fun t ht => by
    obtain ⟨s, hs, rfl⟩ := List.mem_map.mp ht
    exact h s hs

theorem Quiet.plain {t : Text} (h : Quiet t) :
    (∀ l ∈ linesOf (prose t), isRow l = false) ∧ openFence ∉ linesOf (prose t) := by
  refine plain_prose h.2 fun hw => ?_
  have hfence : Unfenced openFence := List.IsChain.infix h.1 (Words.infix_of_mem_words hw)
  exact absurd hfence (by unfold Unfenced; decide)

theorem plain_intro : (∀ l ∈ linesOf (prose introText), isRow l = false) ∧
    openFence ∉ linesOf (prose introText) := (quiet_proseLines quiet_introLines).plain

theorem head_proseLines {s : String} {ls : List String} {c : Char} (hc : c ≠ '\n')
    (h : s.toList.head? ≠ some c) : (proseLines (s :: ls)).head? ≠ some c := by
  rcases ls with - | ⟨u, us⟩
  · simpa [proseLines, Text.join_singleton] using h
  · rw [proseLines, List.map_cons, List.map_cons, Text.join_cons_cons]
    exact head_append_ne h (by simpa using hc.symm)

theorem head_showsLines : ∀ ls ∈ showsLines, (proseLines ls).head? ≠ some '`' := by
  unfold showsLines
  repeat' refine List.forall_mem_cons.mpr ⟨head_proseLines (by decide) (by decide +kernel), ?_⟩
  simp

theorem showsParts_spec : ∀ p ∈ showsParts, Quiet p ∧ p.head? ≠ some '`' := by
  intro p hp
  obtain ⟨ls, hls, rfl⟩ := List.mem_map.mp hp
  exact ⟨quiet_proseLines (quiet_showsLines ls hls), head_showsLines ls hls⟩

theorem plain_interpolated {vs : List Text} (h : ∀ v ∈ vs, Mild v) :
    (∀ l ∈ linesOf (prose (interpolated showsParts vs)), isRow l = false) ∧
      openFence ∉ linesOf (prose (interpolated showsParts vs)) := by
  have hchain := (unfenced_interpolated (fun p hp => ⟨(showsParts_spec p hp).1.1, (showsParts_spec p hp).2⟩)
    fun v hv => (h v hv).1).1
  refine Quiet.plain ⟨hchain, fun hc => ?_⟩
  rcases mem_interpolated hc with ⟨p, hp, hc⟩ | ⟨v, hv, hc⟩
  · exact (showsParts_spec p hp).1.2 hc
  · exact (h v hv).2 hc

theorem mild_depthText (d : Option ℕ) : Mild (depthText d) :=
  ⟨fun h => ((depthText_spec d).2 _ h).2.2.2 rfl, fun h => ((depthText_spec d).2 _ h).2.1 rfl⟩

theorem mild_decimal (n : ℕ) : Mild (decimal n) := mild_depthText (some n)

theorem Mild.append {t u : Text} (ht : Mild t) (hu : Mild u) : Mild (t ++ u) := by
  simp [Mild, ht.1, ht.2, hu.1, hu.2]

theorem mild_flatten {ps : List Text} (h : ∀ p ∈ ps, Mild p) : Mild ps.flatten := by
  induction ps with
  | nil => simp [Mild]
  | cons p ps ih =>
    rw [List.flatten_cons]
    exact (h p List.mem_cons_self).append (ih fun q hq => h q (List.mem_cons_of_mem p hq))

theorem mild_intercalate {sep : Text} (hsep : Mild sep) {ps : List Text} (h : ∀ p ∈ ps, Mild p) :
    Mild (sep.intercalate ps) := by
  induction ps with
  | nil => simp [Mild]
  | cons p ps ih =>
    have hp := h p List.mem_cons_self
    rcases ps with - | ⟨q, qs⟩
    · rwa [List.intercalate_singleton]
    · rw [List.intercalate_cons_cons]
      exact (hp.append hsep).append (ih fun r hr => h r (List.mem_cons_of_mem p hr))

theorem mild_arityOneText {deeper slack : List Text} (hdeeper : ∀ n ∈ deeper, Mild n)
    (hslack : ∀ n ∈ slack, Mild n) (vp1 : ℕ) : Mild (arityOneText deeper slack vp1) := by
  have hand : Mild " and ".toList := by unfold Mild; decide
  have hdeep := mild_intercalate hand hdeeper
  have hhide := mild_intercalate hand hslack
  have hbase := mild_decimal vp1
  have hmore := mild_decimal (vp1 + 1)
  rw [arityOneText]
  split_ifs
  all_goals
    refine mild_flatten ?_
    simp only [List.forall_mem_cons]
  · exact ⟨by unfold Mild; decide, hdeep, by unfold Mild; decide, hhide, by unfold Mild; decide, by simp⟩
  · exact ⟨by unfold Mild; decide, hbase, by unfold Mild; decide, hmore, by unfold Mild; decide, by simp⟩
  · exact ⟨by unfold Mild; decide, hbase, by unfold Mild; decide, by unfold Mild; decide, by simp⟩

/-- What `section_shows` prints is left as it is by what reads the document. -/
theorem plain_shows {data : Published} {builds : List Text} (hnames : ∀ n ∈ builds, PlainName n)
    {t : Text} (h : sectionShows data builds = .ok t) :
    (∀ l ∈ linesOf t, isRow l = false) ∧ openFence ∉ linesOf t := by
  have hmild : ∀ n ∈ builds, Mild n := fun n hn => ⟨(hnames n hn).no_quote, (hnames n hn).no_pipe⟩
  obtain ⟨ref1, -, h⟩ := Outcome.bind_eq_ok_iff.mp h
  obtain ⟨ind1, -, h⟩ := Outcome.bind_eq_ok_iff.mp h
  obtain ⟨vf1, -, h⟩ := Outcome.bind_eq_ok_iff.mp h
  obtain ⟨vp1, -, h⟩ := Outcome.bind_eq_ok_iff.mp h
  obtain ⟨ip1, -, h⟩ := Outcome.bind_eq_ok_iff.mp h
  obtain ⟨ipi1, -, h⟩ := Outcome.bind_eq_ok_iff.mp h
  obtain ⟨vp2, -, h⟩ := Outcome.bind_eq_ok_iff.mp h
  obtain ⟨vpi2, -, h⟩ := Outcome.bind_eq_ok_iff.mp h
  obtain ⟨fat, -, h⟩ := Outcome.bind_eq_ok_iff.mp h
  obtain ⟨vpi, -, h⟩ := Outcome.bind_eq_ok_iff.mp h
  rcases vp1 with - | base
  · exact absurd h (by simp [throw, throwThe, MonadExceptOf.throw])
  · simp only at h
    split_ifs at h
    obtain rfl := Except.ok.inj h
    have hzip : ∀ {β : Type} (xs : List β), ∀ e ∈ builds.zip xs, Mild e.1 := fun xs e he =>
      hmild e.1 (List.of_mem_zip he).1
    have hfilter : ∀ (p : Text × Option ℕ → Bool), ∀ n ∈ ((builds.zip (vpi.map PublishedRow.depth)).filter
        p).map Prod.fst, Mild n := by
      intro p n hn
      obtain ⟨e, he, rfl⟩ := List.mem_map.mp hn
      exact hzip _ e (List.mem_of_mem_filter he)
    have hfat : ∀ t ∈ (builds.zip fat).map fun e =>
        e.1 ++ (" takes ".toList ++ decimal e.2.lines.length), Mild t := by
      intro t ht
      obtain ⟨e, he, rfl⟩ := List.mem_map.mp ht
      have htakes : Mild " takes ".toList := by unfold Mild; decide
      exact (hzip fat e he).append (htakes.append (mild_decimal _))
    have hcomma : Mild ", ".toList := by unfold Mild; decide
    have hthrough : Mild " instructions to dispatch through it".toList := by unfold Mild; decide
    refine plain_interpolated ?_
    simp only [List.forall_mem_cons]
    exact ⟨mild_depthText _, mild_depthText _, mild_depthText _, mild_depthText _, mild_depthText _,
      (mild_intercalate hcomma hfat).append hthrough, mild_depthText _, mild_depthText _,
      mild_depthText _, mild_depthText _, mild_arityOneText (hfilter _) (hfilter _) _,
      mild_depthText _, mild_depthText _, mild_depthText _, by simp⟩

end OMB
