import OpenMethodBench.Lib.Numeral
import OpenMethodBench.Spec.Objdump
import OpenMethodBench.Proofs.SliceRendering

/-! The reader of `objdump`'s output, against the lines as they are printed: what a listing
says is what is read, and every text that is read stands for itself. -/

namespace OMB

/-! ## Comments -/

theorem Uncommented.tail {c : Char} {t : Text} (h : Uncommented (c :: t)) : Uncommented t :=
  fun pre d post ht => h (c :: pre) d post (by rw [ht]; rfl)

theorem Uncommented.cons {c : Char} {t : Text} (hc : Text.isSpace c = true → t.head? ≠ some '#')
    (h : Uncommented t) : Uncommented (c :: t) := by
  intro pre d post ht
  rcases pre with - | ⟨e, pre⟩
  · obtain ⟨rfl, rfl⟩ := List.cons.inj ht
    by_contra hd
    exact hc (by simpa using hd) rfl
  · exact h pre d post (List.cons.inj ht).2

theorem uncommented_nil : Uncommented [] := fun pre _ _ h => by simp at h

/-- What is left has no comment. -/
theorem uncommented_dropComment (t : Text) : Uncommented (dropComment t) := by
  induction t with
  | nil => exact uncommented_nil
  | cons c t ih =>
    rw [dropComment]
    split_ifs with h
    · exact uncommented_nil
    · refine ih.cons fun hc hhash => h ?_
      rcases t with - | ⟨d, t⟩
      · simp [dropComment] at hhash
      · have hd : d = '#' := by
          rw [dropComment] at hhash
          split_ifs at hhash
          · simp at hhash
          · simpa using hhash
        rw [hc, hd, Bool.true_and, List.dropWhile_cons_of_neg (by decide)]
        rfl

/-- White space before a `#`. -/
theorem blank_before_hash {t : Text} {c : Char} (hc : Text.isSpace c = true)
    (h : (t.dropWhile Text.isSpace).head? = some '#') : ¬ Uncommented (c :: t) := by
  induction t generalizing c with
  | nil => simp at h
  | cons d t ih =>
    intro hu
    by_cases hd : Text.isSpace d = true
    · rw [List.dropWhile_cons_of_pos hd] at h
      exact ih hd h hu.tail
    · rw [List.dropWhile_cons_of_neg hd, List.head?_cons, Option.some.injEq] at h
      have := hu [] c t (by rw [h]; rfl)
      rw [hc] at this
      exact absurd this (by decide)

/-- A comment takes the white space before it along. -/
theorem dropComment_append {t b : Text} (ht : Uncommented t) (hb : Blank b) (rest : Text) :
    ∃ sp, (∀ c ∈ sp, Text.isSpace c = true) ∧ t = dropComment (t ++ (b ++ '#' :: rest)) ++ sp := by
  have hhash : ∀ u : Text, (∀ c ∈ u, Text.isSpace c = true) →
      ((u ++ '#' :: rest).dropWhile Text.isSpace).head? = some '#' := fun u hu => by
    have hhead : ∀ c ∈ ('#' :: rest).head?, Text.isSpace c = false := fun c hc =>
      Option.some.inj hc ▸ rfl
    rw [Text.dropWhile_append_of_head hu hhead]
    rfl
  induction t with
  | nil =>
    obtain ⟨c, b, rfl⟩ := List.exists_cons_of_ne_nil hb.1
    refine ⟨[], by simp, ?_⟩
    have hrun := hhash b fun d hd => hb.2.2 d (List.mem_cons_of_mem c hd)
    rw [List.nil_append, List.cons_append, dropComment, hb.2.2 c List.mem_cons_self, hrun]
    rfl
  | cons c t ih =>
    obtain ⟨sp, hsp, hrest⟩ := ih ht.tail
    rw [List.cons_append, dropComment]
    split_ifs with h
    · -- the blank runs from here to the comment: all of `t` is white space
      rw [Bool.and_eq_true, beq_iff_eq] at h
      have hall : ∀ d ∈ t, Text.isSpace d = true := by
        by_contra hnot
        have hne : t.dropWhile Text.isSpace ≠ [] := fun hnil =>
          hnot (List.dropWhile_eq_nil_iff.mp hnil)
        rw [List.dropWhile_append, if_neg (by simpa using hne),
          List.head?_append_of_ne_nil _ hne] at h
        exact blank_before_hash h.1 h.2 ht
      refine ⟨c :: t, fun d hd => ?_, rfl⟩
      rcases List.mem_cons.mp hd with rfl | hd
      · exact h.1
      · exact hall d hd
    · exact ⟨sp, hsp, by rw [List.cons_append, ← hrest]⟩

theorem dropComment_eq_self {t : Text} (h : Uncommented t) : dropComment t = t := by
  induction t with
  | nil => rfl
  | cons c t ih =>
    rw [dropComment, if_neg, ih h.tail]
    rw [Bool.and_eq_true, beq_iff_eq]
    exact fun hc => blank_before_hash hc.1 hc.2 h

/-- Behind white space no word of a text without comments begins one. -/
theorem word_no_hash {t : Text} (h : Uncommented t) (ht : ∀ c ∈ t.head?, Text.isSpace c = true) :
    ∀ w ∈ Text.words t, w.head? ≠ some '#' := by
  induction hn : t.length using Nat.strongRecOn generalizing t with
  | ind n ih =>
    intro v hv
    have hword : ∃ c ∈ t, Text.isSpace c = false := by
      obtain ⟨c, hc, hsolid⟩ := (Text.isWord_of_mem hv).head
      exact ⟨c, Text.mem_of_mem_words hv (List.mem_of_mem_head? hc), hsolid⟩
    obtain ⟨pre, w, post, heq, hpre, hne, hw, hpost, hwords⟩ := Words.words_eq_cons hword
    rw [Text.words, hwords] at hv
    rcases List.mem_cons.mp hv with rfl | hv
    · intro hhash
      obtain ⟨v, rfl⟩ : ∃ u, v = '#' :: u := by
        rcases v with - | ⟨c, u⟩
        · exact absurd rfl hne
        · exact ⟨u, by rw [Option.some.inj hhash]⟩
      rcases List.eq_nil_or_concat pre with rfl | ⟨pre, c, rfl⟩
      · have := ht '#' (by rw [heq]; rfl)
        exact absurd this (by decide)
      · have hc := h pre c (v ++ post) (by rw [heq]; simp)
        rw [hpre c (by simp)] at hc
        exact absurd hc (by decide)
    · have hlen : post.length < n := by
        have := List.length_pos_iff.mpr hne
        rw [← hn, heq, List.length_append, List.length_append]
        omega
      have hsuffix : Uncommented post := fun p c q hp => h (pre ++ (w ++ p)) c q (by
        rw [heq, hp]
        simp)
      exact ih post.length hlen hsuffix hpost rfl v hv

theorem uncommented_word {w rest : Text} (hw : Text.IsWord w)
    (hrest : Uncommented rest) : Uncommented (w ++ rest) := by
  obtain ⟨hne, hsolid⟩ := hw
  induction w with
  | nil => exact absurd rfl hne
  | cons c w ih =>
    have hc : Text.isSpace c = true → (w ++ rest).head? ≠ some '#' := fun h => by
      rw [hsolid c List.mem_cons_self] at h
      exact absurd h (by decide)
    rcases w with - | ⟨d, w⟩
    · exact hrest.cons hc
    · exact (ih (by simp) fun e he => hsolid e (List.mem_cons_of_mem c he)).cons hc

theorem uncommented_join {ws : List Text} (h : ∀ w ∈ ws, Text.IsWord w)
    (hhash : ∀ w ∈ ws.tail, w.head? ≠ some '#') : Uncommented (Text.join ' ' ws) := by
  induction ws with
  | nil => exact uncommented_nil
  | cons w ws ih =>
    have hw := h w List.mem_cons_self
    rcases ws with - | ⟨v, ws⟩
    · rw [Text.join_singleton, ← List.append_nil w]
      exact uncommented_word hw uncommented_nil
    · rw [Text.join_cons_cons]
      have hv := hhash v List.mem_cons_self
      have hrest := ih (fun x hx => h x (List.mem_cons_of_mem w hx))
        fun x hx => hhash x (List.mem_cons_of_mem v hx)
      refine uncommented_word hw (hrest.cons fun _ => ?_)
      rw [Text.head_join (h v (by simp))]
      exact hv

/-- Spacing a text anew brings no comment into it. -/
theorem Uncommented.respaced {t : Text} (h : Uncommented t) : Uncommented (Text.respaced t) := by
  refine uncommented_join (fun w hw => Text.isWord_of_mem hw) fun w hw => ?_
  by_cases hword : ∃ c ∈ t, Text.isSpace c = false
  · obtain ⟨pre, v, post, heq, -, hne, -, hpost, hwords⟩ := Words.words_eq_cons hword
    rw [Text.words, hwords, List.tail_cons] at hw
    have hsuffix : Uncommented post := fun p c q hp => h (pre ++ (v ++ p)) c q (by
      rw [heq, hp]
      simp)
    exact word_no_hash hsuffix hpost w hw
  · have hall : ∀ c ∈ t, Text.isSpace c = true := by simpa using hword
    rw [Text.words, Words.words_seps hall] at hw
    simp at hw

/-! ## Texts as they are kept -/

/-- A text as `disassemble` keeps it. -/
structure Tidy (t : Text) : Prop where
  nonempty : t ≠ []
  spaced : Text.respaced t = t
  uncommented : Uncommented t

theorem insnText_eq (t : Text) : insnText t = Text.respaced (dropComment t) :=
  Text.strip_collapse _

theorem tidy_insnText {t : Text} (h : insnText t ≠ []) : Tidy (insnText t) := by
  rw [insnText_eq] at h ⊢
  exact ⟨h, Text.respaced_respaced _, (uncommented_dropComment t).respaced⟩

theorem Tidy.insnText_eq {t : Text} (h : Tidy t) : insnText t = t := by
  rw [OMB.insnText_eq, dropComment_eq_self h.uncommented, h.spaced]

/-! ## Lines -/

theorem takeWhile_isHex {h rest : Text} (hh : HexDigits h) (hr : ∀ c ∈ rest.head?, isHex c = false) :
    (h ++ rest).takeWhile isHex = h ∧ (h ++ rest).dropWhile isHex = rest :=
  ⟨Text.takeWhile_append_of_head hh.2 hr, Text.dropWhile_append_of_head hh.2 hr⟩

/-- A line that names a function. -/
theorem headerName_header {h name : Text} (hh : HexDigits h) (hname : name ≠ []) :
    headerName (h ++ (" <".toList ++ (name ++ ">:".toList))) = some name := by
  have hstop : ∀ c ∈ (" <".toList ++ (name ++ ">:".toList)).head?, isHex c = false := fun c hc =>
    Option.some.inj hc ▸ rfl
  obtain ⟨htake, hdrop⟩ := takeWhile_isHex hh hstop
  have hmid : (" <".toList ++ (name ++ ">:".toList)).drop 2 = name ++ ">:".toList := rfl
  have hlen : (" <".toList ++ (name ++ ">:".toList)).length - 4 = name.length := by
    simp only [List.length_append]
    change 2 + (name.length + 2) - 4 = name.length
    omega
  have hfound : (name ++ ">:".toList).take name.length = name := List.take_left
  have hne : h.isEmpty = false := by simpa using hh.1
  have hne' : name.isEmpty = false := by simpa using hname
  rw [headerName, htake, hdrop]
  simp only [hmid, hlen, hfound, hne, hne', Bool.not_false, Bool.true_and, beq_self_eq_true,
    if_true]

/-- The name on a line is not empty and stands on it. -/
theorem headerName_eq_some {line name : Text} (h : headerName line = some name) :
    name ≠ [] ∧ ∀ c ∈ name, c ∈ line := by
  rw [headerName] at h
  simp only [Option.ite_none_right_eq_some, Option.some.injEq, Bool.and_eq_true,
    Bool.not_eq_true', List.isEmpty_eq_false_iff] at h
  obtain ⟨⟨⟨-, hne⟩, -⟩, rfl⟩ := h
  exact ⟨hne, fun c hc => (List.dropWhile_sublist isHex).subset
    (List.mem_of_mem_drop (List.mem_of_mem_take hc))⟩

theorem headerName_of_space {c : Char} {t : Text} (hc : isHex c = false) :
    headerName (c :: t) = none := by
  rw [headerName, List.takeWhile_cons_of_neg (by simp [hc])]
  rfl

theorem not_isHex_of_isSpace {c : Char} (h : Text.isSpace c = true) : isHex c = false := by
  by_contra hc
  rw [Bool.not_eq_false] at hc
  rw [isHex, Bool.or_eq_true, Bool.and_eq_true] at hc
  rcases hc with hc | ⟨hlo, hhi⟩
  · rw [Numeral.not_space_of_digit hc] at h
    exact absurd h (by decide)
  · have hlo : 97 ≤ c.toNat := UInt32.le_iff_toNat_le.mp (Char.le_def.mp (of_decide_eq_true hlo))
    have hhi : c.toNat ≤ 102 := UInt32.le_iff_toNat_le.mp (Char.le_def.mp (of_decide_eq_true hhi))
    have hno : Text.isSpace c = false := by
      simp only [Text.isSpace, Bool.or_eq_false_iff, Bool.and_eq_false_iff, decide_eq_false_iff_not,
        beq_eq_false_iff_ne]
      omega
    rw [hno] at h
    exact absurd h (by decide)

/-- A line that holds an instruction. -/
theorem insnLine_line {indent digits t : Text} (hi : Blank indent) (hd : HexDigits digits) :
    insnLine (indent ++ (digits ++ (":\t".toList ++ t))) = some (hexVal digits, t) := by
  obtain ⟨d, ds, rfl⟩ := List.exists_cons_of_ne_nil hd.1
  have hsolid : Text.isSpace d = false := by
    by_contra hnot
    have := not_isHex_of_isSpace (by simpa using hnot)
    rw [hd.2 d List.mem_cons_self] at this
    exact absurd this (by decide)
  have hhead : ∀ c ∈ (d :: ds ++ (":\t".toList ++ t)).head?, Text.isSpace c = false := fun c hc =>
    Option.some.inj hc ▸ hsolid
  have hstop : ∀ c ∈ (":\t".toList ++ t).head?, isHex c = false := fun c hc =>
    Option.some.inj hc ▸ rfl
  obtain ⟨htake, hdrop⟩ := takeWhile_isHex hd hstop
  have hne : indent.isEmpty = false := by simpa using hi.1
  have hcolon : (":\t".toList ++ t).take 2 = ":\t".toList := rfl
  have hrest : (":\t".toList ++ t).drop 2 = t := rfl
  rw [insnLine, Text.takeWhile_append_of_head hi.2.2 hhead,
    Text.dropWhile_append_of_head hi.2.2 hhead, htake, hdrop, hcolon, hrest, hne]
  rfl

theorem insnLine_eq_some {line t : Text} {addr : ℕ} (h : insnLine line = some (addr, t)) :
    ∀ c ∈ t, c ∈ line := by
  rw [insnLine] at h
  simp only [Option.ite_none_right_eq_some, Option.some.injEq, Prod.mk.injEq] at h
  obtain ⟨-, -, rfl⟩ := h
  exact fun c hc => (List.dropWhile_sublist _).subset
    ((List.dropWhile_sublist _).subset (List.mem_of_mem_drop hc))

/-! ## Reading -/

theorem lineInsn_of_blank {line : Text} (h : insnLine line = none) : lineInsn line = none := by
  rw [lineInsn, h]
  rfl

theorem read_other {line : Text} (h : headerName line = none) (d : Dict Text (List Insn))
    (name : Text) (xs : List Insn) :
    Disassembly.read ⟨d.set name xs, some name⟩ line =
      ⟨d.set name (xs ++ (lineInsn line).toList), some name⟩ := by
  rw [Disassembly.read, h]
  rcases lineInsn line with - | x
  · simp
  · simp [Dict.push_set]

/-- The lines after that with the name fill the function. -/
theorem read_body {body : List Text} (h : ∀ l ∈ body, headerName l = none)
    (d : Dict Text (List Insn)) (name : Text) (xs : List Insn) :
    body.foldl Disassembly.read ⟨d.set name xs, some name⟩ =
      ⟨d.set name (xs ++ body.filterMap lineInsn), some name⟩ := by
  induction body generalizing xs with
  | nil => simp
  | cons l body ih =>
    rw [List.foldl_cons, read_other (h l List.mem_cons_self),
      ih fun m hm => h m (List.mem_cons_of_mem l hm), List.append_assoc]
    rcases hl : lineInsn l with - | x <;> simp [hl]

/-- Lines before the first function are passed over. -/
theorem read_preamble {lines : List Text} (h : ∀ l ∈ lines, headerName l = none)
    (d : Dict Text (List Insn)) :
    lines.foldl Disassembly.read ⟨d, none⟩ = ⟨d, none⟩ := by
  induction lines with
  | nil => rfl
  | cons l lines ih =>
    have hl : Disassembly.read ⟨d, none⟩ l = ⟨d, none⟩ := by
      rw [Disassembly.read, h l List.mem_cons_self]
    rw [List.foldl_cons, hl]
    exact ih fun m hm => h m (List.mem_cons_of_mem l hm)

/-- Lines that print a function. -/
def Prints (lines : List Text) (f : Text × List Insn) : Prop :=
  ∃ header body, lines = header :: body ∧ headerName header = some f.1 ∧
    (∀ l ∈ body, headerName l = none) ∧ body.filterMap lineInsn = f.2

theorem read_prints {lines : List Text} {f : Text × List Insn} (h : Prints lines f)
    (s : Disassembly) :
    lines.foldl Disassembly.read s = ⟨s.funcs.set f.1 f.2, some f.1⟩ := by
  obtain ⟨header, body, rfl, hname, hbody, hf⟩ := h
  have hheader : Disassembly.read s header = ⟨s.funcs.set f.1 [], some f.1⟩ := by
    rw [Disassembly.read, hname]
  rw [List.foldl_cons, hheader, read_body hbody, hf, List.nil_append]

/-- One function after another. -/
theorem read_functions {β : Type*} {fns : List β} {lines : β → List Text}
    {entry : β → Text × List Insn} (h : ∀ f ∈ fns, Prints (lines f) (entry f)) (s : Disassembly) :
    ((fns.flatMap lines).foldl Disassembly.read s).funcs =
      (fns.map entry).foldl (fun d e => d.set e.1 e.2) s.funcs := by
  induction fns generalizing s with
  | nil => rfl
  | cons f fns ih =>
    rw [List.flatMap_cons, List.foldl_append, read_prints (h f List.mem_cons_self),
      ih fun g hg => h g (List.mem_cons_of_mem f hg)]
    rfl

theorem disassemble_join {lines : List Text} (h : ∀ l ∈ lines, '\n' ∉ l) :
    disassemble (Text.join '\n' lines) = (lines.foldl Disassembly.read ⟨[], none⟩).funcs := by
  rcases lines with - | ⟨l, lines⟩
  · rfl
  · rw [disassemble, Text.splitOn_join (by simp) h]

/-! ## What a listing says is read -/

theorem headerName_blank {indent : Text} (h : Blank indent) (rest : Text) :
    headerName (indent ++ rest) = none := by
  obtain ⟨c, indent, rfl⟩ := List.exists_cons_of_ne_nil h.1
  exact headerName_of_space (not_isHex_of_isSpace (h.2.2 c List.mem_cons_self))

namespace DumpInsn

variable (x : DumpInsn)

theorem insnText_line : insnText (x.text ++ x.commentText) = Text.respaced x.text := by
  rw [insnText_eq, commentText]
  rcases hc : x.comment with - | c
  · rw [Option.map_none, Option.getD_none, List.append_nil, dropComment_eq_self x.text_line.2]
  · obtain ⟨sp, hsp, htext⟩ :=
      dropComment_append x.text_line.2 (x.comment_line c hc).1 c.2
    rw [Option.map_some, Option.getD_some]
    have hwords := Words.words_append_seps (dropComment (x.text ++ (c.1 ++ '#' :: c.2))) hsp
    rw [← htext] at hwords
    exact congrArg (Text.join ' ') hwords.symm

theorem lineInsn_line :
    lineInsn x.line = if x.insn.text.isEmpty then none else some x.insn := by
  rw [lineInsn, line, insnLine_line x.indent_blank x.digits_hex, Option.bind_some,
    x.insnText_line]
  rfl

theorem line_single : '\n' ∉ x.line := by
  have hdigits : '\n' ∉ x.digits := fun h => absurd (x.digits_hex.2 _ h) (by decide)
  have hcomment : '\n' ∉ x.commentText := by
    rw [commentText]
    rcases hc : x.comment with - | c
    · simp
    · obtain ⟨hblank, hrest⟩ := x.comment_line c hc
      simp [hblank.2.1, hrest]
  simp [line, hdigits, hcomment, x.indent_blank.2.1, x.text_line.1]

end DumpInsn

namespace DumpFn

variable (f : DumpFn)

theorem prints : Prints f.lines (f.name, f.insns) := by
  refine ⟨f.header, _, rfl, headerName_header f.digits_hex f.name_line.1, ?_, ?_⟩
  · intro l hl
    obtain ⟨b | x, -, rfl⟩ := List.mem_map.mp hl
    · exact b.plain.1
    · exact headerName_blank x.indent_blank _
  · rw [insns]
    induction f.body with
    | nil => rfl
    | cons l body ih =>
      rw [List.map_cons, List.filterMap_cons, List.filterMap_cons, ih]
      rcases l with b | x
      · rw [Sum.elim_inl, lineInsn_of_blank b.plain.2]
        rfl
      · rw [Sum.elim_inr, x.lineInsn_line]
        by_cases hx : x.insn.text.isEmpty = true
        · simp [hx]
        · simp [hx]

theorem lines_single : ∀ l ∈ f.lines, '\n' ∉ l := by
  intro l hl
  rcases List.mem_cons.mp hl with rfl | hl
  · have hdigits : '\n' ∉ f.digits := fun h => absurd (f.digits_hex.2 _ h) (by decide)
    simp [header, hdigits, f.name_line.2]
  · obtain ⟨b | x, -, rfl⟩ := List.mem_map.mp hl
    · exact b.single
    · exact x.line_single

end DumpFn

theorem Dump.disassemble_text (d : Dump) :
    disassemble d.text = (d.fns.map fun f => (f.name, f.insns)).foldl
      (fun (funcs : Dict Text (List Insn)) e => funcs.set e.1 e.2) [] := by
  have hsingle : ∀ l ∈ d.preamble.map Filler.line ++ d.fns.flatMap DumpFn.lines, '\n' ∉ l := by
    intro l hl
    rcases List.mem_append.mp hl with hl | hl
    · obtain ⟨b, -, rfl⟩ := List.mem_map.mp hl
      exact b.single
    · obtain ⟨f, -, hl⟩ := List.mem_flatMap.mp hl
      exact f.lines_single l hl
  have hpre : ∀ l ∈ d.preamble.map Filler.line, headerName l = none := by
    intro l hl
    obtain ⟨b, -, rfl⟩ := List.mem_map.mp hl
    exact b.plain.1
  rw [Dump.text, disassemble_join hsingle, List.foldl_append, read_preamble hpre,
    read_functions fun f _ => f.prints]

/-- Whatever white space, comments and other lines `objdump` prints, a symbol stands for the
instructions listed under it, under its last heading where it has several. -/
theorem disassemble_dump (d : Dump) (name : Text) :
    (disassemble d.text).get? name =
      (d.fns.reverse.find? fun f => decide (f.name = name)).map DumpFn.insns := by
  rw [d.disassemble_text, Dict.get?_foldl_set, ← List.map_reverse, List.find?_map,
    Option.map_map, Dict.get?_nil]
  simp [Function.comp_def]

/-! ## What is read stands for itself -/

def GoodName (name : Text) : Prop := name ≠ [] ∧ '\n' ∉ name

/-- A disassembly that can be printed line by line. -/
structure Disassembly.Sound (s : Disassembly) : Prop where
  keys : (s.funcs.map Prod.fst).Nodup
  names : ∀ f ∈ s.funcs, GoodName f.1
  texts : ∀ f ∈ s.funcs, ∀ x ∈ f.2, Tidy x.text ∧ '\n' ∉ x.text
  cur : ∀ name ∈ s.cur, GoodName name

theorem mem_respaced {t : Text} {c : Char} (h : c ∈ Text.respaced t) : c = ' ' ∨ c ∈ t := by
  rcases Text.mem_join h with rfl | ⟨w, hw, hc⟩
  · exact Or.inl rfl
  · exact Or.inr (Text.mem_of_mem_words hw hc)

theorem dropComment_initial (t : Text) : dropComment t <+: t := by
  induction t with
  | nil => exact List.prefix_rfl
  | cons c t ih =>
    rw [dropComment]
    split_ifs
    · exact List.nil_prefix
    · exact (List.prefix_cons_inj c).mpr ih

/-- The instruction read from a line. -/
theorem lineInsn_eq_some {line : Text} {x : Insn} (h : lineInsn line = some x)
    (hline : '\n' ∉ line) : Tidy x.text ∧ '\n' ∉ x.text := by
  obtain ⟨⟨addr, t⟩, ht, hx⟩ := Option.bind_eq_some_iff.mp h
  simp only [Option.ite_none_left_eq_some, Option.some.injEq, List.isEmpty_iff] at hx
  obtain ⟨hne, rfl⟩ := hx
  refine ⟨tidy_insnText hne, fun hmem => ?_⟩
  rw [insnText_eq] at hmem
  rcases mem_respaced hmem with hmem | hmem
  · exact absurd hmem (by decide)
  · exact hline (insnLine_eq_some ht _ ((dropComment_initial t).subset hmem))

theorem Disassembly.Sound.read {s : Disassembly} (h : s.Sound) {line : Text}
    (hline : '\n' ∉ line) : (s.read line).Sound := by
  rw [Disassembly.read]
  rcases hname : headerName line with - | name
  · rcases hcur : s.cur with - | name
    · exact h
    · rcases hx : lineInsn line with - | x
      · exact h
      · have hgood : GoodName name := h.cur name hcur
        refine ⟨Dict.nodup_set h.keys name _, fun f hf => ?_, fun f hf => ?_,
          fun n hn => Option.some.inj hn ▸ hgood⟩
        · rcases Dict.mem_set hf with rfl | hf
          · exact hgood
          · exact h.names f hf
        · rcases Dict.mem_set hf with rfl | hf
          · intro y hy
            rcases List.mem_append.mp hy with hy | hy
            · rcases hget : s.funcs.get? name with - | ys
              · rw [hget] at hy
                exact absurd hy (by simp)
              · rw [hget] at hy
                exact h.texts _ (Dict.mem_of_get? hget) y hy
            · rw [List.mem_singleton.mp hy]
              exact lineInsn_eq_some hx hline
          · exact h.texts f hf
  · obtain ⟨hne, hmem⟩ := headerName_eq_some hname
    have hgood : GoodName name := ⟨hne, fun hn => hline (hmem _ hn)⟩
    refine ⟨Dict.nodup_set h.keys name _, fun f hf => ?_, fun f hf => ?_,
      fun n hn => Option.some.inj hn ▸ hgood⟩
    · rcases Dict.mem_set hf with rfl | hf
      · exact hgood
      · exact h.names f hf
    · rcases Dict.mem_set hf with rfl | hf
      · exact fun x hx => absurd hx (by simp)
      · exact h.texts f hf

theorem sound_foldl {lines : List Text} (hlines : ∀ l ∈ lines, '\n' ∉ l) {s : Disassembly}
    (h : s.Sound) : (lines.foldl Disassembly.read s).Sound := by
  induction lines generalizing s with
  | nil => exact h
  | cons l lines ih =>
    exact ih (fun m hm => hlines m (List.mem_cons_of_mem l hm))
      (h.read (hlines l List.mem_cons_self))

/-- From the first line to the last. -/
theorem disassemble_sound (out : Text) :
    (⟨disassemble out, none⟩ : Disassembly).Sound := by
  have hempty : (⟨[], none⟩ : Disassembly).Sound :=
    ⟨List.nodup_nil, by simp, by simp, by simp⟩
  have h := sound_foldl (fun l hl => Text.not_mem_of_mem_splitOn (t := out) hl) hempty
  exact ⟨h.keys, h.names, h.texts, by simp⟩

theorem prints_listing {f : Text × List Insn} (hname : GoodName f.1)
    (htexts : ∀ x ∈ f.2, Tidy x.text) :
    Prints (('0' :: (" <".toList ++ (f.1 ++ ">:".toList))) ::
      f.2.map fun x => ' ' :: (Nat.toDigits 16 x.addr ++ (":\t".toList ++ x.text))) f := by
  refine ⟨_, _, rfl, ?_, ?_, ?_⟩
  · exact headerName_header (h := ['0']) ⟨by simp, by simp [isHex]⟩ hname.1
  · intro l hl
    obtain ⟨x, -, rfl⟩ := List.mem_map.mp hl
    exact headerName_of_space (by decide)
  · have hline : ∀ x ∈ f.2, lineInsn (' ' :: (Nat.toDigits 16 x.addr ++ (":\t".toList ++ x.text))) =
        some x := by
      intro x hx
      have hblank : Blank [' '] := ⟨by simp, by simp, by simp [Text.isSpace]⟩
      have hdigits : HexDigits (Nat.toDigits 16 x.addr) := ⟨by simp, isHex_toDigits x.addr⟩
      have hread := insnLine_line (t := x.text) hblank hdigits
      rw [List.singleton_append] at hread
      rw [lineInsn, hread, Option.bind_some, (htexts x hx).insnText_eq,
        if_neg (by simpa using (htexts x hx).nonempty), hexVal_toDigits]
    rw [List.filterMap_map]
    refine (List.filterMap_congr fun x hx => hline x hx).trans ?_
    rw [List.filterMap_some]

theorem listing_lines_single {funcs : Dict Text (List Insn)}
    (h : (⟨funcs, none⟩ : Disassembly).Sound) :
    ∀ l ∈ funcs.flatMap fun f => ('0' :: (" <".toList ++ (f.1 ++ ">:".toList))) ::
        f.2.map fun x => ' ' :: (Nat.toDigits 16 x.addr ++ (":\t".toList ++ x.text)),
      '\n' ∉ l := by
  intro l hl
  obtain ⟨f, hf, hl⟩ := List.mem_flatMap.mp hl
  rcases List.mem_cons.mp hl with rfl | hl
  · simp [(h.names f hf).2]
  · obtain ⟨x, hx, rfl⟩ := List.mem_map.mp hl
    have hdigits : '\n' ∉ Nat.toDigits 16 x.addr := fun hmem =>
      absurd (isHex_toDigits x.addr _ hmem) (by decide)
    simp [hdigits, (h.texts f hf x hx).2]

/-- Whatever text it was read from, a disassembly is well formed, and printed in `objdump`'s form
it is read back as it is. -/
theorem disassemble_listing (out : Text) :
    (⟨disassemble out, none⟩ : Disassembly).Sound ∧
      disassemble (listing (disassemble out)) = disassemble out := by
  have h := disassemble_sound out
  refine ⟨h, ?_⟩
  have hprints := read_functions
    (fun f hf => prints_listing (h.names f hf) fun x hx => (h.texts f hf x hx).1) ⟨[], none⟩
  rw [List.map_id'] at hprints
  rw [listing, disassemble_join (listing_lines_single h), hprints,
    Dict.foldl_set_of_nodup (by simpa using h.keys)]
  rfl

end OMB
