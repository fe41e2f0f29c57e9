import Mathlib
import OpenMethodBench.Proofs.ExtractRun
import OpenMethodBench.Proofs.Prose

/-! The lines of a listing are not taken for the markup around them, and the listings of a
document are read as they were set. -/

namespace OMB

/-! ## Rendered lines -/

/-- A line that shows as part of a fenced listing: no fence, no table row, and not blank. -/
structure Printable (line : Text) : Prop where
  head : ∃ c, line.head? = some c ∧ Text.isSpace c = false ∧ c ≠ '|'
  no_quote : '`' ∉ line
  no_line : '\n' ∉ line

theorem Printable.rstrip_ne_nil {line : Text} (h : Printable line) : Text.rstrip line ≠ [] := by
  obtain ⟨c, hc, hsolid, -⟩ := h.head
  obtain ⟨t, rfl⟩ := List.head?_eq_some_iff.mp hc
  intro hnil
  have := List.rdropWhile_eq_nil_iff.mp hnil c List.mem_cons_self
  rw [hsolid] at this
  exact absurd this (by decide)

/-- What starts a line and is left alone by what follows in `render`. -/
def Solid (c : Char) : Prop := Text.isSpace c = false ∧ c ≠ '#' ∧ c ≠ '|'

theorem head_substitute {m : Text → Option (Text × ℕ)} {d : Char} (hm : ∀ u new n,
    m u = some (new, n) → new.head? = some d) {c : Char} (t : Text) :
    (Text.substitute m 0 (c :: t)).head? = some c ∨
      (Text.substitute m 0 (c :: t)).head? = some d := by
  rw [Text.substitute]
  rcases hc : m (c :: t) with - | ⟨new, n⟩
  · exact Or.inl rfl
  · have hhead := hm _ _ _ hc
    obtain ⟨u, rfl⟩ := List.head?_eq_some_iff.mp hhead
    exact Or.inr rfl

theorem mem_substitute {m : Text → Option (Text × ℕ)} {d : Char} :
    ∀ {k : ℕ} {t : Text}, d ∈ Text.substitute m k t →
      d ∈ t ∨ ∃ u new n, m u = some (new, n) ∧ d ∈ new := by
  intro k t
  induction t generalizing k with
  | nil =>
    intro h
    cases k <;> exact absurd h List.not_mem_nil
  | cons c t ih =>
    intro h
    cases k with
    | succ k => exact (ih h).imp_left (List.mem_cons_of_mem c)
    | zero =>
      rw [Text.substitute] at h
      rcases hm : m (c :: t) with - | ⟨new, n⟩
      · rw [hm] at h
        rcases List.mem_cons.mp h with rfl | h
        · exact Or.inl List.mem_cons_self
        · exact (ih h).imp_left (List.mem_cons_of_mem c)
      · rw [hm] at h
        rcases List.mem_append.mp h with h | h
        · exact Or.inr ⟨_, _, _, hm, h⟩
        · exact (ih h).imp_left (List.mem_cons_of_mem c)

section Named

variable {name : Text}

theorem mem_nameOperand {t : Text} {d : Char} (h : d ∈ nameOperand name t) :
    d ∈ t ∨ d ∈ name ∨ d ∈ "[rip+[got+]".toList := by
  have hrip : ∀ u new n, ripNamed name u = some (new, n) → d ∈ new →
      d ∈ name ∨ d ∈ "[rip+[got+]".toList := by
    intro u new n hu hd
    obtain ⟨-, -, heq⟩ := Option.map_eq_some_iff.mp hu
    obtain ⟨rfl, -⟩ := Prod.mk.inj heq
    simp only [List.mem_append, List.mem_singleton] at hd
    rcases hd with hd | hd | rfl
    · exact Or.inr (List.Sublist.subset (by decide) hd)
    · exact Or.inl hd
    · exact Or.inr (by decide)
  have hgot : ∀ u new n, basedNamed name u = some (new, n) → d ∈ new →
      d ∈ name ∨ d ∈ "[rip+[got+]".toList := by
    intro u new n hu hd
    obtain ⟨-, -, heq⟩ := Option.map_eq_some_iff.mp hu
    obtain ⟨rfl, -⟩ := Prod.mk.inj heq
    simp only [List.mem_append, List.mem_singleton] at hd
    rcases hd with hd | hd | rfl
    · exact Or.inr (List.Sublist.subset (by decide) hd)
    · exact Or.inl hd
    · exact Or.inr (by decide)
  rcases mem_substitute h with h | ⟨u, new, n, hu, hd⟩
  · rcases mem_substitute h with h | ⟨u, new, n, hu, hd⟩
    · exact Or.inl h
    · exact Or.inr (hrip u new n hu hd)
  · exact Or.inr (hgot u new n hu hd)

theorem head_nameOperand {c : Char} (t : Text) :
    (nameOperand name (c :: t)).head? = some c ∨ (nameOperand name (c :: t)).head? = some '[' := by
  have hrip : ∀ u new n, ripNamed name u = some (new, n) → new.head? = some '[' := by
    intro u new n hu
    obtain ⟨-, -, heq⟩ := Option.map_eq_some_iff.mp hu
    obtain ⟨rfl, -⟩ := Prod.mk.inj heq
    rfl
  have hgot : ∀ u new n, basedNamed name u = some (new, n) → new.head? = some '[' := by
    intro u new n hu
    obtain ⟨-, -, heq⟩ := Option.map_eq_some_iff.mp hu
    obtain ⟨rfl, -⟩ := Prod.mk.inj heq
    rfl
  rw [nameOperand]
  rcases head_substitute hrip t with h | h
  · obtain ⟨u, hu⟩ := List.head?_eq_some_iff.mp h
    rw [hu]
    exact head_substitute hgot u
  · obtain ⟨u, hu⟩ := List.head?_eq_some_iff.mp h
    rw [hu]
    exact Or.inr ((head_substitute hgot u).elim id id)

end Named

theorem mem_renderCall {next : Option ℕ} {t : Text} {d : Char} (h : d ∈ renderCall next t) :
    d ∈ t ∨ d ∈ "call pc_thunk".toList := by
  rw [renderCall] at h
  rcases hcall : directCall t with - | ⟨target, callee⟩
  · rw [hcall] at h
    exact Or.inl h
  · rw [hcall] at h
    simp only at h
    split_ifs at h
    · exact Or.inl h
    · exact Or.inr h
    · rcases List.mem_append.mp h with h | h
      · exact Or.inr (List.Sublist.subset (by decide) h)
      · obtain ⟨u, hu, hname⟩ := directCall_name hcall
        exact Or.inl (hu.subset (hname.subset h))

theorem head_renderCall (next : Option ℕ) (t : Text) :
    (renderCall next t).head? = t.head? ∨ (renderCall next t).head? = some 'c' := by
  rw [renderCall]
  rcases directCall t with - | ⟨target, callee⟩
  · exact Or.inl rfl
  · simp only
    split_ifs
    · exact Or.inl rfl
    · exact Or.inr rfl
    · exact Or.inr rfl

/-- A line that starts solidly starts so after a comment has been cut and commas spaced. -/
theorem head_spaceCommas_cutHash {t : Text} {c : Char} (ht : t.head? = some c) (hc : Solid c) :
    (spaceCommas (cutHash t)).head? = some c := by
  obtain ⟨u, rfl⟩ := List.head?_eq_some_iff.mp ht
  rw [cutHash, hc.1, Bool.false_and, Bool.or_false, if_neg (by simpa using hc.2.1), spaceCommas,
    List.flatMap_cons]
  split_ifs with hcomma
  · rw [beq_iff_eq.mp hcomma]
    rfl
  · rfl

theorem mem_spaceCommas {t : Text} {d : Char} (h : d ∈ spaceCommas t) : d ∈ t ∨ d = ' ' := by
  obtain ⟨c, hc, hd⟩ := List.mem_flatMap.mp h
  split_ifs at hd with hcomma
  · rw [beq_iff_eq] at hcomma
    simp only [List.mem_cons, List.not_mem_nil, or_false] at hd
    rcases hd with rfl | rfl
    · exact Or.inl (hcomma ▸ hc)
    · exact Or.inr rfl
  · exact Or.inl (List.mem_singleton.mp hd ▸ hc)

/-- An instruction that is not taken for the markup of the document: it holds no backtick,
begins with no pipe, and is no comment. -/
def Unmarked (x : Insn) : Prop :=
  '`' ∉ x.text ∧ x.text.head? ≠ some '|' ∧ x.text.head? ≠ some '#'

theorem Unmarked.solid {x : Insn} (h : Unmarked x) (htidy : Tidy x.text) :
    ∃ c t, x.text = c :: t ∧ Solid c := by
  obtain ⟨c, t, ht⟩ := List.exists_cons_of_ne_nil htidy.nonempty
  have hw : ∃ w ws, Text.words x.text = w :: ws := by
    refine List.exists_cons_of_ne_nil fun hnil => htidy.nonempty ?_
    rw [← htidy.spaced, Text.respaced, hnil]
    rfl
  obtain ⟨w, ws, hw⟩ := hw
  have hword : Text.IsWord w := Text.isWord_of_mem (t := x.text) (by rw [hw]; exact List.mem_cons_self)
  have hjoin : (Text.join ' ' (w :: ws)).head? = w.head? := Text.head_join hword
  have hhead : w.head? = some c := by
    rw [← hjoin, ← hw, ← Text.respaced, htidy.spaced, ht]
    rfl
  obtain ⟨u, rfl⟩ := List.head?_eq_some_iff.mp hhead
  refine ⟨c, t, ht, hword.solid c List.mem_cons_self, fun hc => h.2.2 ?_, fun hc => h.2.1 ?_⟩
  · rw [ht, hc]
    rfl
  · rw [ht, hc]
    rfl

theorem printable_renderLine {win : List Insn} {named : Dict ℕ Text} {i : ℕ} {x : Insn}
    (hnamed : ∀ name, named.get? i = some name → OperandName name) (htidy : Tidy x.text)
    (hline : '\n' ∉ x.text) (hx : Unmarked x) : Printable (renderLine win named i x) := by
  obtain ⟨c, t, ht, hc⟩ := hx.solid htidy
  -- the text with its operand named: how it starts, and what it holds
  have hoperand : ∀ u, u = namedText (named.get? i) x.text → (∃ d, u.head? = some d ∧ Solid d) ∧ '`' ∉ u ∧ '\n' ∉ u := by
    intro u hu
    rcases hget : named.get? i with - | name
    · rw [hget] at hu
      rw [hu, ht]
      exact ⟨⟨c, rfl, hc⟩, ht ▸ hx.1, ht ▸ hline⟩
    · rw [hget] at hu
      have hout : ∀ d, d ∉ x.text → isNameChar d = false → d ∉ "[rip+[got+]".toList → d ∉ u := by
        intro d hd hname hfix hmem
        rw [hu] at hmem
        rcases mem_nameOperand hmem with h | h | h
        · exact hd h
        · rw [hnamed name hget d h] at hname
          exact absurd hname (by decide)
        · exact hfix h
      refine ⟨?_, hout _ hx.1 (by decide) (by decide), hout _ hline (by decide) (by decide)⟩
      rw [hu, ht]
      have hhead : (nameOperand name (c :: t)).head? = some c ∨
          (nameOperand name (c :: t)).head? = some '[' := head_nameOperand t
      rcases hhead with h | h
      · exact ⟨c, h, hc⟩
      · exact ⟨'[', h, by unfold Solid; decide⟩
  obtain ⟨⟨d, hd, hsolid⟩, hquote, hbreak⟩ := hoperand _ rfl
  have hmem : ∀ e, e ≠ ' ' → e ∉ "call pc_thunk".toList →
      e ∈ renderLine win named i x → e ∈ namedText (named.get? i) x.text := by
    intro e hspace hcall he
    rcases mem_spaceCommas he with he | he
    · exact (mem_renderCall ((cutHash_initial _).subset he)).resolve_right hcall
    · exact absurd he hspace
  refine ⟨?_, fun h => hquote (hmem _ (by decide) (by decide) h),
    fun h => hbreak (hmem _ (by decide) (by decide) h)⟩
  rcases head_renderCall ((win[i + 1]?).map Insn.addr) (namedText (named.get? i) x.text) with h | h
  · exact ⟨d, head_spaceCommas_cutHash (h.trans hd) hsolid, hsolid.1, hsolid.2.2⟩
  · exact ⟨'c', head_spaceCommas_cutHash h (by unfold Solid; decide), by decide, by decide⟩

/-! ## Reading the listings -/

section Listings

theorem readListings_skip {ls : List Text} (h : openFence ∉ ls) (title gap : Text)
    (rest : List Text) :
    ∃ title' gap', readListings title gap (ls ++ rest) = readListings title' gap' rest := by
  induction ls generalizing title gap with
  | nil => exact ⟨title, gap, rfl⟩
  | cons l ls ih =>
    rw [List.mem_cons, not_or] at h
    obtain ⟨title', gap', hrest⟩ := ih h.2 gap l
    refine ⟨title', gap', ?_⟩
    rw [List.cons_append, readListings, if_neg (by simpa using Ne.symm h.1), hrest]

theorem readListings_none {ls : List Text} (h : openFence ∉ ls) (title gap : Text) :
    readListings title gap ls = [] := by
  obtain ⟨title', gap', hrest⟩ := readListings_skip h title gap []
  rw [List.append_nil] at hrest
  rw [hrest, readListings]

/-- The two lines before a listing are those that are remembered. -/
theorem readListings_title {ls : List Text} (h : openFence ∉ ls) {above : Text}
    (habove : above ≠ openFence) (title gap : Text) (rest : List Text) :
    readListings title gap (ls ++ above :: [] :: rest) = readListings above [] rest := by
  obtain ⟨title', gap', hrest⟩ := readListings_skip h title gap (above :: [] :: rest)
  rw [hrest, readListings, if_neg (by simpa using habove), readListings, if_neg (by decide)]

theorem readListings_fenced {body : List Text} (h : closeFence ∉ body) (title gap : Text)
    (rest : List Text) :
    readListings title gap (openFence :: (body ++ closeFence :: rest)) =
      readFenced title body :: readListings [] [] (closeFence :: rest) := by
  have hbody : ∀ l ∈ body, (l != closeFence) = true := fun l hl => by
    rw [bne_iff_ne]
    exact fun heq => h (heq ▸ hl)
  have hclose : ∀ l ∈ (closeFence :: rest).head?, (l != closeFence) = false := fun l hl =>
    Option.some.inj hl ▸ by decide
  rw [readListings, if_pos (by decide), Text.takeWhile_append_of_head hbody hclose,
    Text.dropWhile_append_of_head hbody hclose]

/-- The lines of one listing, and what is read from them. -/
def Shows (ls : List Text) (s : ShownListing) : Prop :=
  ∃ above body, ls = above :: [] :: openFence :: (body ++ [closeFence, []]) ∧ above ≠ openFence ∧
    closeFence ∉ body ∧ readFenced above body = s

/-- Listings one after the other are read one by one, whatever stands around them. -/
theorem readListings_flatten {lss : List (List Text)} {shown : List ShownListing}
    (h : List.Forall₂ Shows lss shown) {before after : List Text} (hbefore : openFence ∉ before)
    (hafter : openFence ∉ after) (title gap : Text) :
    readListings title gap (before ++ (lss.flatten ++ after)) = shown := by
  induction h generalizing before title gap with
  | nil =>
    refine readListings_none ?_ title gap
    simp [hbefore, hafter]
  | @cons ls s lss shown hls _ ih =>
    obtain ⟨above, body, rfl, habove, hbody, rfl⟩ := hls
    have hshape : ((above :: [] :: openFence :: (body ++ [closeFence, []])) :: lss).flatten ++ after =
        above :: [] :: openFence :: (body ++ closeFence :: ([[]] ++ (lss.flatten ++ after))) := by
      simp
    have hclosed : openFence ∉ [closeFence, []] := by decide
    rw [hshape, readListings_title hbefore habove, readListings_fenced hbody]
    exact congrArg (readFenced above body :: ·) (ih hclosed [] [])

/-- The rule is one run of dashes for each build. -/
theorem words_listingRule {width : ℕ} (hw : 2 < width) (builds : List Text) :
    Text.words (listingRule width builds) = builds.map fun _ => List.replicate (width - 2) '-' := by
  have hdash : ∀ c ∈ List.replicate (width - 2) '-', Text.isSpace c = false := fun c hc =>
    List.eq_of_mem_replicate hc ▸ rfl
  have hne : List.replicate (width - 2) '-' ≠ [] := by simp; omega
  rw [listingRule, Text.words_rstrip]
  induction builds with
  | nil => rfl
  | cons b builds ih =>
    rw [List.flatMap_cons, List.append_assoc, Text.words_append_blanks (by decide) (by decide), ih,
      List.map_cons, Text.words, Words.words_word hne hdash, List.singleton_append]

/-- A listing shows its columns. -/
theorem readFenced_listing {width : ℕ} (hw : 2 < width) {builds : List Text} {cols : List (List Text)}
    (hne : builds ≠ []) (hlen : builds.length = cols.length)
    (hfit : ∀ col ∈ cols, ∀ t ∈ col, t.length ≤ width)
    (hprint : ∀ col ∈ cols, ∀ t ∈ col, Text.rstrip t ≠ []) (title : Text) :
    readFenced title (Text.sideBySide width builds :: listingRule width builds ::
      Text.grid width cols) = ⟨title, cols.map fun col => col.map Text.rstrip⟩ := by
  obtain ⟨b, bs, rfl⟩ := List.exists_cons_of_ne_nil hne
  have hcols : (List.range cols.length).map (fun k => Text.columnAt width k (Text.grid width cols)) =
      cols.map fun col => col.map Text.rstrip := by
    refine List.ext_get (by simp) fun k hk hk' => ?_
    have hlt : k < cols.length := by simpa using hk'
    have hget : cols[k]? = some cols[k] := List.getElem?_eq_getElem hlt
    have hmem := List.getElem_mem hlt
    have hcol := Text.columnAt_grid hfit hget (hprint _ hmem)
    simpa using hcol
  have hwidth : width - 2 + 2 = width := by omega
  rw [readFenced, List.drop_succ_cons, List.drop_zero, List.headD_cons, words_listingRule hw,
    List.length_map, hlen]
  change (⟨title, (List.range cols.length).map fun k => Text.columnAt
    ((List.replicate (width - 2) '-').length + 2) k (Text.grid width cols)⟩ : ShownListing) = _
  rw [List.length_replicate, hwidth, hcols]

end Listings

end OMB
