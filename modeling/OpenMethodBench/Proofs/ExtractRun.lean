import Mathlib
import OpenMethodBench.Lib.Outcome
import OpenMethodBench.Proofs.Disassembly
import OpenMethodBench.Proofs.FieldNames
import OpenMethodBench.Proofs.NamedOperands
import OpenMethodBench.Proofs.SliceLoop

/-! A run of `extract` that ends: what every row it publishes says about the binary. -/

namespace OMB

/-! ## Names -/

theorem operandName_role (r : Role) : OperandName r.text := by
  rw [OperandName]
  cases r <;> decide

theorem operandName_globalName (sym : Text) : OperandName (globalName sym) := by
  rw [globalName]
  split_ifs
  · rw [OperandName]
    decide
  · intro c hc
    simpa using (List.mem_filter.mp (List.mem_of_mem_take hc)).2

/-- Every name a window has is one for an operand. -/
def WellNamed (c : NamedWindow) : Prop := ∀ i name, c.named.get? i = some name → OperandName name

/-- The names `roles` gives are. -/
theorem wellNamed_namedWindow {win : List Insn} {reads : Reads} {word : ℕ} {c : NamedWindow}
    (h : namedWindow win reads word = .ok c) :
    c.win = win ∧ (∀ i, c.reads.get? i = if i < win.length then reads i else none) ∧
      WellNamed c := by
  rw [namedWindow] at h
  rcases hroles : roles win reads word with - | named
  · rw [hroles] at h
    exact nomatch h
  · rw [hroles] at h
    obtain rfl := Except.ok.inj h
    refine ⟨rfl, fun i => Dict.get?_filterMap_range _ _ _, fun i name hname => ?_⟩
    have hget := hname
    rw [namesOf] at hget
    have hfun : (fun i => (named i).map fun r => (i, r.text)) =
        fun i => ((named i).map Role.text).map fun t => (i, t) := by
      funext i
      rw [Option.map_map]
      rfl
    rw [hfun, Dict.get?_filterMap_range] at hget
    split_ifs at hget
    obtain ⟨r, -, rfl⟩ := Option.map_eq_some_iff.mp hget
    exact operandName_role r

section Consistent

variable {κ : Type*} {cells : Dict κ NamedWindow}

/-- A field is named after a role, or after its symbol. -/
theorem operandName_nameFor (h : ∀ e ∈ cells, WellNamed e.2) (f : GlobalRef) :
    OperandName (nameFor (knownNames cells) f) := by
  rw [nameFor]
  rcases hknown : (knownNames cells).get? f with - | name
  · rw [Option.getD_none]
    split_ifs
    · rw [OperandName]
      decide
    · exact operandName_globalName f.1
  · rw [get?_knownNames] at hknown
    obtain ⟨e, he, hgiven⟩ := List.mem_flatMap.mp (Dict.mem_of_get? hknown)
    obtain ⟨i, -, hi⟩ := mem_given.mp hgiven
    exact h e he i name hi

/-- After `consistent` every read has a name for an operand. -/
theorem renamed_spec (h : ∀ e ∈ cells, WellNamed e.2) {e : κ × NamedWindow} (he : e ∈ cells) :
    WellNamed (e.2.renamed (knownNames cells)) ∧ ∀ i, (e.2.reads.get? i).isSome →
      ((e.2.renamed (knownNames cells)).named.get? i).isSome := by
  have hget : ∀ i, (e.2.renamed (knownNames cells)).named.get? i =
      (e.2.named.get? i <|> (e.2.reads.get? i).map (nameFor (knownNames cells))) := fun i =>
    get?_foldl_nameRead (knownNames cells) e.2.reads (e.2.named, []) i
  refine ⟨fun i name hname => ?_, fun i hi => ?_⟩
  · rw [hget] at hname
    rcases hnamed : e.2.named.get? i with - | n
    · rw [hnamed] at hname
      obtain ⟨f, -, rfl⟩ := Option.map_eq_some_iff.mp hname
      exact operandName_nameFor h f
    · rw [hnamed] at hname
      exact Option.some.inj hname ▸ h e he i n hnamed
  · obtain ⟨f, hf⟩ := Option.isSome_iff_exists.mp hi
    rw [hget, hf]
    cases e.2.named.get? i <;> rfl

end Consistent

/-! ## Rows -/

theorem keeps_last {win : List Insn} (h : win ≠ []) : keeps win (win.length - 1) = true := by
  obtain ⟨init, call, rfl⟩ := List.eq_nil_or_concat win |>.resolve_left h
  have hflag := (sliceLoop_flag init call init.length).mpr (Or.inl rfl)
  rw [List.concat_eq_append, keeps, List.length_append, List.length_singleton,
    Nat.add_sub_cancel, hflag]
  rfl

/-- The instructions a row shows: in the order of the window, with the call that ends it, and
none of a global but under a name. -/
structure RowOf (win : List Insn) (reads : Reads) (word : ℕ) (row : PublishedRow) : Prop where
  lines : ∃ (named : Dict ℕ Text) (kept : List ℕ), kept.Pairwise (· < ·) ∧
    win.length - 1 ∈ kept ∧ kept.length + row.dropped = win.length ∧
    List.Forall₂ (fun i line => ∃ x, win[i]? = some x ∧ line = renderLine win named i x ∧
      ((reads i).isSome → (named.get? i).isSome ∧ ¬ ShowsAddress line)) kept row.lines
  depth : row.depth = chain win word

theorem render_eq (win : List Insn) (named : Dict ℕ Text) (skip : List ℕ) :
    List.Forall₂ (fun i line => ∃ x, win[i]? = some x ∧ line = renderLine win named i x)
      ((List.range win.length).filter fun i => !skip.contains i) (render win named skip) := by
  have hidx : (win.zipIdx.filter fun e => !skip.contains e.2).map Prod.snd =
      (List.range win.length).filter fun i => !skip.contains i := by
    rw [List.range_eq_range', ← List.zipIdx_map_snd 0 win, List.filter_map]
    rfl
  rw [← hidx, render, List.forall₂_map_left_iff, List.forall₂_map_right_iff, List.forall₂_same]
  intro e he
  have hmem := List.mem_filter.mp he
  exact ⟨e.1, by simpa using List.mk_mem_zipIdx_iff_getElem?.mp hmem.1, rfl⟩

theorem length_kept_add (win : List Insn) (word : ℕ) :
    ((List.range win.length).filter fun i => !(bookkeeping win word).contains i).length +
      (bookkeeping win word).length = win.length := by
  have hkept : ((List.range win.length).filter fun i => !(bookkeeping win word).contains i) =
      (List.range win.length).filter fun i => keeps win i := by
    refine List.filter_congr fun i hi => ?_
    have hlt := List.mem_range.mp hi
    have hcontains : (bookkeeping win word).contains i = !keeps win i := by
      rw [Bool.eq_iff_iff, List.contains_iff_mem, mem_bookkeeping]
      simp [hlt]
    rw [hcontains, Bool.not_not]
  rw [hkept, bookkeeping, ← List.countP_eq_length_filter, ← List.countP_eq_length_filter]
  have hsum := List.length_eq_countP_add_countP (fun i => keeps win i) (l := List.range win.length)
  rw [List.length_range] at hsum
  have hnot : (fun a => decide ¬keeps win a = true) = fun i => !keeps win i := by
    funext i
    cases keeps win i <;> rfl
  rw [hnot] at hsum
  exact hsum.symm

theorem rowOf_published {c : NamedWindow} (reads : Reads) (hwin : c.win ≠ []) (hnamed : WellNamed c)
    (hreads : ∀ i < c.win.length, (reads i).isSome → (c.named.get? i).isSome)
    (word : ℕ) :
    RowOf c.win reads word (SlicedCell.published word ⟨c, bookkeeping c.win word⟩) where
  depth := rfl
  lines := by
    refine ⟨c.named, _, ?_, ?_, length_kept_add c.win word, ?_⟩
    · exact (List.pairwise_lt_range).filter _
    · have hlen : 0 < c.win.length := List.length_pos_iff.mpr hwin
      rw [List.mem_filter, List.mem_range]
      refine ⟨by omega, ?_⟩
      rw [Bool.not_eq_true', ← Bool.not_eq_true, List.contains_iff_mem, mem_bookkeeping]
      simp [keeps_last hwin]
    · refine (render_eq c.win c.named (bookkeeping c.win word)).imp fun i line hline => ?_
      obtain ⟨x, hx, rfl⟩ := hline
      refine ⟨x, hx, rfl, fun hread => ?_⟩
      obtain ⟨hlt, -⟩ := List.getElem?_eq_some_iff.mp hx
      have hname := hreads i hlt hread
      obtain ⟨name, hget⟩ := Option.isSome_iff_exists.mp hname
      exact ⟨hname, not_showsAddress_renderLine hget (hnamed i name hget) x⟩

/-! ## The timed window -/

/-- The function that times a dispatch: no other is named so. -/
def Times (bin : Binary) (v : VariantRow) (body : List Insn) : Prop :=
  ∃ symbol, (disassemble bin.code).filter (fun f => isTimedCall v f.1) = [(symbol, body)]

/-- Position `start` follows the first bracket, and `last` is that of the first indirect call
from there. -/
structure Bracketed (body : List Insn) (start last : ℕ) : Prop where
  opened : 2 ≤ start ∧ (∃ x, body[start - 2]? = some x ∧ isRdtsc x.text = true) ∧
    ∀ k < start - 2, ∀ x, body[k]? = some x → isRdtsc x.text = false
  called : start ≤ last ∧ ∃ x, body[last]? = some x ∧ indirectCall x.text = true
  between : ∀ k, start ≤ k → k < last → ∀ x, body[k]? = some x → indirectCall x.text = false

theorem bracketed_of_bounds {body : List Insn} {start last : ℕ}
    (h : bounds body = some (start, some last)) : Bracketed body start last := by
  rw [bounds, Option.map_eq_some_iff] at h
  obtain ⟨rd, hrd, heq⟩ := h
  obtain ⟨rfl, hcall⟩ := Prod.mk.inj heq
  obtain ⟨hlt, hx, hbefore⟩ := List.findIdx?_eq_some_iff_getElem.mp hrd
  refine ⟨⟨by omega, ⟨body[rd], ?_, hx⟩, fun k hk x hxk => ?_⟩, ?_, fun k hk hlast x hxk => ?_⟩
  · rw [Nat.add_sub_cancel]
    exact List.getElem?_eq_getElem hlt
  · rw [Nat.add_sub_cancel] at hk
    obtain ⟨hklt, rfl⟩ := List.getElem?_eq_some_iff.mp hxk
    simpa using hbefore k hk
  · have hmem := List.mem_of_find?_eq_some hcall
    have hany := List.find?_some hcall
    rw [List.mem_range'_1] at hmem
    obtain ⟨x, hxl, hind⟩ := (Option.any_eq_true _ _).mp hany
    exact ⟨hmem.1, x, hxl, hind⟩
  · have hmem := List.mem_range'_1.mp (List.mem_of_find?_eq_some hcall)
    have hno := (List.find?_range'_eq_some.mp hcall).2.2 k hk hlast
    rw [hxk] at hno
    simpa using hno

theorem Bracketed.win_ne_nil {body : List Insn} {start last : ℕ} (h : Bracketed body start last) :
    (body.take (last + 1)).drop start ≠ [] := by
  obtain ⟨hle, x, hx, -⟩ := h.called
  obtain ⟨hlt, -⟩ := List.getElem?_eq_some_iff.mp hx
  intro hnil
  have hlen := congrArg List.length hnil
  rw [List.length_drop, List.length_take, List.length_nil] at hlen
  omega

theorem theOne_eq_ok {funcs : Dict Text (List Insn)} {hit : Text → Bool} {failure : ℕ → Text}
    {body : List Insn} (h : theOne funcs hit failure = .ok body) :
    ∃ symbol, funcs.filter (fun f => hit f.1) = [(symbol, body)] := by
  rw [theOne] at h
  split at h
  · rename_i f hf
    obtain rfl := Except.ok.inj h
    exact ⟨f.1, hf⟩
  · exact nomatch h

/-- A window that `extract` takes, and what it has found there. -/
structure Found (name : Text) (bin : Binary) (v : VariantRow) (body : List Insn) (start last : ℕ)
    (c : NamedWindow) : Prop where
  times : Times bin v body
  bracketed : Bracketed body start last
  win : c.win = (body.take (last + 1)).drop start
  reads : ∀ i < c.win.length, c.reads.get? i =
    globalsRead c.win (picBase body (last + 1)) (symbols bin.table) i
  named : WellNamed c

theorem extractCell_eq_ok {name path : Text} {bin : Binary} {v : VariantRow} {c : NamedWindow}
    (h : extractCell (disassemble bin.code) (symbols bin.table) name path v = .ok c) :
    ∃ body start last, Found name bin v body start last c := by
  rw [extractCell, Outcome.bind_eq_ok_iff] at h
  obtain ⟨body, hbody, h⟩ := h
  rcases hbounds : bounds body with - | ⟨start, - | last⟩
  · rw [hbounds] at h
    exact nomatch h
  · rw [hbounds] at h
    exact nomatch h
  · rw [hbounds] at h
    obtain ⟨hwin, hreads, hnamed⟩ := wellNamed_namedWindow h
    refine ⟨body, start, last, theOne_eq_ok hbody, bracketed_of_bounds hbounds, hwin,
      fun i hi => ?_, hnamed⟩
    rw [hreads, hwin, if_pos (hwin ▸ hi)]

/-! ## The run -/

theorem ok_of_bind_res {α β : Type} {x : Script Stop α} {f : α → Script Stop β} {b : β}
    (h : (x >>= f).res = .ok b) : ∃ a, x.res = .ok a ∧ (f a).res = .ok b := by
  rw [Script.res_bind] at h
  exact Outcome.bind_eq_ok_iff.mp h

theorem res_bind_ok {α β : Type} {x : Script Stop α} {f : α → Script Stop β} {a : α} {b : β}
    (hx : x.res = .ok a) (hf : (f a).res = .ok b) : (x >>= f).res = .ok b := by
  rw [Script.res_bind]
  exact Outcome.bind_ok hx hf

/-- What a run that ends well goes through. -/
theorem extract_eq_ok_iff {name path probePath : Text} {bin : Binary} {probe : Option Binary}
    {rows : List (VariantRow × PublishedRow)} :
    (extract name path probePath bin probe).res = .ok rows ↔
      ∃ cells, extractCells name path bin = .ok cells ∧
        (checkOracle probePath name probe (wordOf name) (sliceCells name cells)).res = .ok () ∧
        rows = (sliceCells name cells).map fun e => (e.1, e.2.published (wordOf name)) := by
  rw [extract]
  constructor
  · intro h
    obtain ⟨cells, hcells, h⟩ := ok_of_bind_res h
    obtain ⟨-, -, h⟩ := ok_of_bind_res h
    obtain ⟨⟨⟩, hcheck, h⟩ := ok_of_bind_res h
    exact ⟨cells, hcells, hcheck, (Except.ok.inj h).symm⟩
  · rintro ⟨cells, hcells, hcheck, rfl⟩
    rw [Script.res_bind]
    refine Outcome.bind_ok hcells ?_
    rw [Script.res_bind]
    refine Outcome.bind_ok (b := ()) rfl ?_
    rw [Script.res_bind]
    exact Outcome.bind_ok hcheck rfl

theorem extractCells_eq_ok {name path : Text} {bin : Binary} {cells : Dict VariantRow NamedWindow}
    (h : extractCells name path bin = .ok cells) :
    List.Forall₂ (fun v e => e.1 = v ∧ ∃ body start last, Found name bin v body start last e.2)
      variants cells := by
  refine (Outcome.mapM_eq_ok_iff.mp h).imp fun v e he => ?_
  obtain ⟨c, hc, hret⟩ := Outcome.bind_eq_ok_iff.mp he
  obtain rfl := Outcome.pure_eq_ok_iff.mp hret
  exact ⟨rfl, extractCell_eq_ok hc⟩

/-- Each row is published of a window that `extract` has found, every read of it named. -/
theorem published_found {name path probePath : Text} {bin : Binary} {probe : Option Binary}
    {rows : List (VariantRow × PublishedRow)}
    (h : (extract name path probePath bin probe).res = .ok rows) :
    List.Forall₂ (fun v e => e.1 = v ∧ ∃ body start last c, Found name bin v body start last c ∧
      (∀ i, (c.reads.get? i).isSome → (c.named.get? i).isSome) ∧
      e.2 = SlicedCell.published (wordOf name) ⟨c, bookkeeping c.win (wordOf name)⟩) variants rows := by
  obtain ⟨cells, hcells, -, rfl⟩ := extract_eq_ok_iff.mp h
  have hfound := extractCells_eq_ok hcells
  have hnamed : ∀ e ∈ cells, WellNamed e.2 := fun e he => by
    obtain ⟨v, -, -, body, start, last, hf⟩ := Outcome.exists_of_mem_right hfound he
    exact hf.named
  rw [sliceCells, consistent_fst, List.map_map, List.map_map, List.forall₂_map_right_iff]
  refine List.forall₂_iff_get.mpr ⟨hfound.length_eq, fun i hi hj => ?_⟩
  obtain ⟨hv, body, start, last, hf⟩ := (List.forall₂_iff_get.mp hfound).2 i hi hj
  obtain ⟨hwell, hall⟩ := renamed_spec hnamed (List.get_mem cells ⟨i, hj⟩)
  exact ⟨hv, body, start, last, (cells.get ⟨i, hj⟩).2.renamed (knownNames cells),
    ⟨hf.times, hf.bracketed, hf.win, hf.reads, hwell⟩, hall, rfl⟩

/-- The rows are those of `VARIANTS`, in order. -/
theorem map_fst_extract {name path probePath : Text} {bin : Binary} {probe : Option Binary}
    {rows : List (VariantRow × PublishedRow)}
    (h : (extract name path probePath bin probe).res = .ok rows) : rows.map Prod.fst = variants := by
  have hrows := published_found h
  refine List.ext_get (by rw [List.length_map]; exact hrows.length_eq.symm) fun i hi hj => ?_
  have hi' : i < rows.length := by simpa using hi
  have := ((List.forall₂_iff_get.mp hrows).2 i hj hi').1
  simpa using this

/-- Every row that is published shows the one function that times its dispatch, from after the
bracket to the first indirect call: what the slice keeps in order, the call at its end, and
every global read under a name, with no address left. -/
theorem extract_rows {name path probePath : Text} {bin : Binary} {probe : Option Binary}
    {rows : List (VariantRow × PublishedRow)}
    (h : (extract name path probePath bin probe).res = .ok rows) :
    List.Forall₂ (fun v e => e.1 = v ∧ ∃ body start last, Times bin v body ∧
      Bracketed body start last ∧ RowOf ((body.take (last + 1)).drop start)
        (globalsRead ((body.take (last + 1)).drop start) (picBase body (last + 1))
          (symbols bin.table)) (wordOf name) e.2) variants rows := by
  refine (published_found h).imp fun v e hve => ?_
  obtain ⟨hv, body, start, last, c, hf, hall, hrow⟩ := hve
  refine ⟨hv, body, start, last, hf.times, hf.bracketed, ?_⟩
  have hwin : c.win ≠ [] := by
    rw [hf.win]
    exact hf.bracketed.win_ne_nil
  rw [hrow, ← hf.win]
  exact rowOf_published _ hwin hf.named (fun i hi hread => hall i (by rwa [hf.reads i hi])) (wordOf name)

/-! A binary in which every variant calls through the method's slot. -/

def sampleBody (call : String) : Text :=
  " 3:\tmov    rax,QWORD PTR [rip+0x10]        # 1a <poke::fn+0xa>\n".toList ++
    " a:\tmov rcx,QWORD PTR [rdi]\n d:\t".toList ++ (call.toList ++
      " QWORD PTR [rcx+rax*8]\n".toList)

def sampleTable : Text := "10 g O .bss 20 poke::fn\n".toList

def sampleBinary : Binary where
  code := variants.flatMap fun v =>
    "0 <timed_call<".toList ++ (v.struct ++ ('<' :: (tagText v.tag ++
      (">>:\n 1:\trdtsc\n 2:\tlfence\n".toList ++ sampleBody "call"))))
  table := sampleTable

def sampleProbe : Binary where
  code := probes.flatMap fun p =>
    "0 <".toList ++ (p.2.1 ++ ('<' :: (tagText p.2.2 ++ (">>:\n".toList ++ sampleBody "jmp"))))
  table := sampleTable

theorem extract_sample :
    (extract "gcc 15".toList [] [] sampleBinary (some sampleProbe)).res.isOk = true := by
  decide +kernel

theorem exists_extract_sample : ∃ rows,
    (extract "gcc 15".toList [] [] sampleBinary (some sampleProbe)).res = .ok rows := by
  have hok := extract_sample
  rcases h : (extract "gcc 15".toList [] [] sampleBinary (some sampleProbe)).res with e | rows
  · rw [h] at hok
    exact nomatch hok
  · exact ⟨rows, rfl⟩

theorem extract_rows_sample : ∃ rows : List (VariantRow × PublishedRow),
    List.Forall₂ (fun v e => e.1 = v ∧ ∃ body start last, Times sampleBinary v body ∧
      Bracketed body start last ∧ RowOf ((body.take (last + 1)).drop start)
        (globalsRead ((body.take (last + 1)).drop start) (picBase body (last + 1))
          (symbols sampleBinary.table)) (wordOf "gcc 15".toList) e.2) variants rows := by
  obtain ⟨rows, h⟩ := exists_extract_sample
  exact ⟨rows, extract_rows h⟩

end OMB
