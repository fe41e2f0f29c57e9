import Mathlib
import OpenMethodBench.Proofs.ChainPaths
import OpenMethodBench.Proofs.Respelling

/-! One instruction with a register it reads left open: two names of the register give two
texts in which the passes find the same, save the register itself. -/

namespace OMB

/-! ## An instruction with one register open -/

/-- A register stands in an address that is not closed before it. -/
def inAddress (pre : Text) : Bool := (pre.reverse.takeWhile (· != ']')).contains '['

/-- An instruction in which one register that is read is left open: what stands before and
behind it among the operands. -/
structure OpenInsn where
  addr : ℕ
  mnem : Text
  pre : Text
  post : Text
  mnem_word : mnem ≠ [] ∧ ∀ c ∈ mnem, Text.isSpace c = false
  starts : ∀ c ∈ pre.head?, Text.isSpace c = false
  ends : ∀ c ∈ post.getLast?, Text.isSpace c = false
  left : ∀ c ∈ pre.getLast?, isLow c = false
  right : ∀ c ∈ post.head?, isLow c = false
  /-- a blank inside the operands only follows a prefix or a size -/
  blank : pre.getLast? = some ' ' → mnem ∉ ["add", "sub"].map String.toList
  /-- a later operand or an address, the first operand of an instruction that only reads it,
  or one that is read and written -/
  source : pre ≠ [] ∨ mnem ∈ readsFirst ∨ mnem ∉ chainMoves ∧ (post = [] ∨
    ∃ rest, post = ',' :: rest ∧ ',' ∉ rest ∧ mnem ∉ ["add", "sub"].map String.toList)
  /-- the operand of a `pop` is written, only an address in it is read -/
  popped : mnem = "pop".toList → '[' ∈ pre
  /-- a call has one operand -/
  called : mnem = "call".toList → pre = [] → post = []

namespace OpenInsn

variable (o : OpenInsn) (n : RegName)

def operands : Text := o.pre ++ n.text ++ o.post

def insn : Insn := ⟨o.addr, o.mnem ++ ' ' :: o.operands n⟩

/-- An address is computed from 32- or 64-bit names, and a call goes through one. -/
def Fits : Prop := inAddress o.pre = true ∨ o.mnem = "call".toList → n.isWide = true

theorem insn_mnem : (o.insn n).mnem = o.mnem :=
  Text.firstWord_append o.mnem_word.1 o.mnem_word.2 (by simp [Text.isSpace])

theorem operands_ne_nil : o.operands n ≠ [] := by
  simp [operands, name_ne_nil]

theorem operands_trimmed : Text.Trimmed (o.operands n) := by
  refine ⟨fun c hc => ?_, fun c hc => ?_⟩
  · rw [operands, List.append_assoc] at hc
    cases hp : o.pre with
    | nil =>
      rw [hp, List.nil_append, List.head?_append_of_ne_nil _ (name_ne_nil n)] at hc
      exact not_space_of_low (name_low n c (List.mem_of_mem_head? hc))
    | cons d p =>
      rw [hp] at hc
      exact o.starts c (by rw [hp]; simpa using hc)
  · rw [operands] at hc
    rcases List.eq_nil_or_concat o.post with hp | ⟨q, d, hq⟩
    · rw [hp, List.append_nil, List.getLast?_append_of_ne_nil _ (name_ne_nil n)] at hc
      exact not_space_of_low (name_low n c (List.mem_of_getLast? hc))
    · have hne : o.post ≠ [] := by simp [hq]
      rw [List.getLast?_append_of_ne_nil _ hne] at hc
      exact o.ends c hc

theorem insn_ops : (o.insn n).ops = o.operands n := by
  rw [Insn.ops, o.insn_mnem n, insn, List.drop_left, Text.strip_cons_space (by decide),
    Text.strip_eq_self (o.operands_trimmed n)]

theorem insn_parts : (o.insn n).parts = ((o.operands n).splitOn ',').map Text.strip := by
  rw [Insn.parts, o.insn_ops n, if_neg (by simpa using o.operands_ne_nil n)]

end OpenInsn

/-! ## Two spellings of one instruction -/

/-- The second text is the first, but for a register that both read and the passes may
miss in the second. -/
structure Respelt (x x' : Insn) : Prop where
  addr : x'.addr = x.addr
  mnem : x'.mnem = x.mnem
  stores : x'.stores = x.stores
  slot : x'.slot = x.slot
  dst : x'.dst = x.dst ∨ x'.dst = none ∧ x.mnem ∉ chainMoves
  gprDst : x'.gprDst = x.gprDst ∨ x'.gprDst = none ∧ x.keepsDst = true
  /-- what is no register is never read -/
  popped : x.mnem = "pop".toList → x'.parts.head? = x.parts.head? ∨
    (∀ p ∈ x.parts.head?, '[' ∈ p) ∧ ∀ p ∈ x'.parts.head?, '[' ∈ p
  length : x'.parts.length = x.parts.length
  moves : ∀ word delta, deltaAfter word delta x' = deltaAfter word delta x
  target : isDispatchCall x = false → isDispatchCall x' = false →
    directTarget x'.text = directTarget x.text
  pops : poppedReg x'.text = poppedReg x.text
  adds : ∀ reg, (∀ c ∈ reg, isLow c = true) → addsTo reg x'.text = addsTo reg x.text
  text : Sees x.text x'.text
  ops : Sees x.ops x'.ops
  tail : Sees (Text.join ',' x.parts.tail) (Text.join ',' x'.parts.tail)
  last : Sees (x.parts.getLastD []) (x'.parts.getLastD [])
  bracket : Option.Rel Sees (bracketed x.ops) (bracketed x'.ops)

theorem Respelt.refl (x : Insn) : Respelt x x :=
  ⟨rfl, rfl, rfl, rfl, Or.inl rfl, Or.inl rfl, fun _ => Or.inl rfl, rfl, fun _ _ => rfl,
    fun _ _ => rfl, rfl, fun _ _ => rfl, Sees.refl _, Sees.refl _, Sees.refl _, Sees.refl _,
    rel_refl _⟩

section Names

variable {n n' : RegName}

theorem regsOf_name (n : RegName) : regsOf n.text = if n.spotted then [n.reg.common] else [] := by
  have h : ∀ n : RegName, regsOf n.text = if n.spotted then [n.reg.common] else [] := by decide
  exact h n

theorem gprsOf_regName (n : RegName) :
    gprsOf n.text = if n.spotted then [n.reg.common] else [] := by
  have h : ∀ n : RegName, gprsOf n.text = if n.spotted then [n.reg.common] else [] := by decide
  exact h n

theorem isReg_name (n : RegName) : isReg n.text = n.spotted ∧ isGpr n.text = n.spotted := by
  have h : ∀ n : RegName, isReg n.text = n.spotted ∧ isGpr n.text = n.spotted := by decide
  exact h n

theorem canon_name (n : RegName) : canon n.text = n.reg.common := by
  have h : ∀ n : RegName, canon n.text = n.reg.common := by decide
  exact h n

/-- Two names of one register, the first seen at least where the second is. -/
theorem sees_name (hreg : n.reg = n'.reg) (hvis : n'.spotted = true → n.spotted = true) :
    Sees n.text n'.text := by
  have hsub : (if n'.spotted then [n'.reg.common] else []) ⊆
      if n.spotted then [n.reg.common] else [] := by
    split_ifs with h' h
    · rw [hreg]
      exact List.Subset.refl _
    · exact absurd (hvis h') h
    · exact List.nil_subset _
    · exact List.nil_subset _
  refine ⟨?_, ?_⟩
  · rwa [regsOf_name, regsOf_name]
  · rwa [gprsOf_regName, gprsOf_regName]

end Names

/-! ## What is written -/

/-- Stripping cuts nothing off a text that ends in no blank, wherever it goes on. -/
theorem head_kept {t : Text} (ht : Text.Trimmed t) (hne : t ≠ []) (v : Text) :
    t <+: Text.strip (t ++ v) := by
  have hl : Text.lstrip (t ++ v) = t ++ v := by
    apply Text.lstrip_of_head
    rw [List.head?_append_of_ne_nil _ hne]
    exact ht.1
  rw [Text.strip, hl]
  induction v using List.reverseRecOn with
  | nil =>
    have hr : t.rdropWhile Text.isSpace = t := by
      have hstrip := Text.strip_eq_self ht
      rwa [Text.strip, Text.lstrip_of_head ht.1] at hstrip
    rw [List.append_nil, hr]
  | append_singleton v c ih =>
    rw [← List.append_assoc]
    by_cases hc : Text.isSpace c = true
    · rw [List.rdropWhile_concat_pos _ _ _ hc]
      exact ih (Text.lstrip_of_head (by rw [List.head?_append_of_ne_nil _ hne]; exact ht.1))
    · rw [List.rdropWhile_concat_neg _ _ _ hc, List.append_assoc]
      exact List.prefix_append _ _

theorem isGpr_low {t : Text} (h : isGpr t = true) : ∀ c ∈ t, isLow c = true := by
  have hat := beq_iff_eq.mp h
  unfold gprAt at hat
  rcases hl : legacyAt t with - | m
  · rw [hl] at hat
    exact numberedAt_low hat
  · rw [hl] at hat
    exact legacyAt_low (hl.trans hat)

namespace OpenInsn

variable (o : OpenInsn) (n : RegName)

/-- The operand that ends in the open register is no register by itself. -/
theorem not_reg_of_pre (hpre : o.pre ≠ []) (v : Text) :
    isReg (Text.strip (o.pre ++ n.text ++ v)) = false ∧
      isGpr (Text.strip (o.pre ++ n.text ++ v)) = false := by
  have htrim : Text.Trimmed (o.pre ++ n.text) := by
    refine ⟨fun c hc => ?_, fun c hc => ?_⟩
    · rw [List.head?_append_of_ne_nil _ hpre] at hc
      exact o.starts c hc
    · rw [List.getLast?_append_of_ne_nil _ (name_ne_nil n)] at hc
      exact not_space_of_low (name_low n c (List.mem_of_getLast? hc))
  have hkept := head_kept htrim (by simp [hpre]) v
  obtain ⟨c, hc⟩ : ∃ c, o.pre.getLast? = some c := ⟨_, List.getLast?_eq_some_getLast hpre⟩
  have hmem : c ∈ Text.strip (o.pre ++ n.text ++ v) :=
    hkept.subset (List.mem_append_left _ (List.mem_of_getLast? hc))
  have hlow := o.left c hc
  refine ⟨?_, ?_⟩
  · by_contra h
    rw [isReg_low (by simpa using h) c hmem] at hlow
    exact absurd hlow (by decide)
  · by_contra h
    rw [isGpr_low (by simpa using h) c hmem] at hlow
    exact absurd hlow (by decide)

/-- The operands, with the one that holds the open register. -/
theorem exists_parts : ∃ (P Q : List Text) (u v : Text),
    (∀ n, (o.insn n).parts = P ++ Text.strip (u ++ n.text ++ v) :: Q) ∧ (P = [] → u = o.pre) ∧
      (∀ c ∈ u.getLast?, isLow c = false) ∧ ∀ c ∈ v.head?, isLow c = false := by
  obtain ⟨P, Q, u, v, hsplit, hP, -, hu, hv⟩ := exists_fields o.pre o.post
  have hcomma : ∀ n : RegName, ',' ∉ n.text := fun n hc => ne_of_low (name_low n _ hc) (by decide) rfl
  refine ⟨P.map Text.strip, Q.map Text.strip, u, v, fun n => ?_, fun h => hP ?_, fun c hc => ?_,
    fun c hc => ?_⟩
  · rw [insn_parts, operands, hsplit _ (hcomma n), List.map_append, List.map_cons]
  · simpa using h
  · obtain ⟨s, hs⟩ := hu
    refine o.left c ?_
    rw [← hs, List.getLast?_append_of_ne_nil _ (List.ne_nil_of_mem (List.mem_of_getLast? hc))]
    exact hc
  · obtain ⟨s, hs⟩ := hv
    refine o.right c ?_
    rw [← hs, List.head?_append_of_ne_nil _ (List.ne_nil_of_mem (List.mem_of_mem_head? hc))]
    exact hc

/-- An instruction that reads and writes its first operand, with the register there. -/
theorem parts_of_first (hpre : o.pre = []) (hreads : o.mnem ∉ readsFirst) :
    o.mnem ∉ chainMoves ∧ ∃ Q : List Text, Q.length ≤ 1 ∧ ∀ n, (o.insn n).parts = n.text :: Q := by
  obtain ⟨hmove, hpost⟩ := (o.source.resolve_left (not_not.mpr hpre)).resolve_left hreads
  refine ⟨hmove, ?_⟩
  have hname : ∀ n : RegName, ',' ∉ n.text ∧ Text.strip n.text = n.text := fun n =>
    ⟨fun hc => ne_of_low (name_low n _ hc) (by decide) rfl,
      Text.strip_eq_self (Text.trimmed_of_forall fun c hc => not_space_of_low (name_low n c hc))⟩
  rcases hpost with hpost | ⟨rest, hpost, hrest, -⟩
  · refine ⟨[], Nat.zero_le 1, fun n => ?_⟩
    rw [insn_parts, operands, hpre, hpost, List.nil_append, List.append_nil,
      List.splitOn_eq_singleton (hname n).1, List.map_cons, (hname n).2]
    rfl
  · refine ⟨[Text.strip rest], le_refl 1, fun n => ?_⟩
    rw [insn_parts, operands, hpre, hpost, List.nil_append,
      List.splitOn_append_cons_self_of_not_mem (hname n).1, List.splitOn_eq_singleton hrest,
      List.map_cons, (hname n).2]
    rfl

/-- The operand that an instruction may write: the same text whatever stands for the open
register, none that is a register, or the open register itself. -/
theorem head_cases :
    (∀ n n', (o.insn n').parts.head? = (o.insn n).parts.head?) ∨
      (∀ n, ∃ p ps, (o.insn n).parts = p :: ps ∧ isReg p = false ∧ isGpr p = false ∧
        ('[' ∈ o.pre → '[' ∈ p)) ∨ o.pre = [] := by
  obtain ⟨P, Q, u, v, hparts, hP, -, -⟩ := o.exists_parts
  rcases P with - | ⟨p, P⟩
  · by_cases hpre : o.pre = []
    · exact Or.inr (Or.inr hpre)
    · refine Or.inr (Or.inl fun n => ⟨_, Q, hparts n, ?_⟩)
      rw [hP rfl]
      obtain ⟨hreg, hgpr⟩ := o.not_reg_of_pre n hpre v
      refine ⟨hreg, hgpr, fun hb => mem_strip ?_ (by decide)⟩
      simp [hb]
  · left
    intro n n'
    rw [hparts, hparts]
    rfl

end OpenInsn

/-- The first operand, where the pattern recognises it and the instruction writes it. -/
def Insn.written (recognised : Text → Bool) (x : Insn) : Option Text :=
  x.parts.head?.bind fun p =>
    if recognised p && !readsFirst.contains x.mnem then some (canon p) else none

theorem Insn.dst_eq (x : Insn) : x.dst = x.written isReg := by
  unfold Insn.dst Insn.written
  cases x.parts <;> rfl

theorem Insn.gprDst_eq (x : Insn) : x.gprDst = x.written isGpr := by
  unfold Insn.gprDst Insn.written
  cases x.parts <;> rfl

/-- What is written is the same, or missed in the second spelling alone, of an instruction
that also reads it. -/
theorem OpenInsn.written_cases (o : OpenInsn) {n n' : RegName} (hreg : n.reg = n'.reg)
    (hvis : n'.spotted = true → n.spotted = true) {recognised : Text → Bool}
    (hname : ∀ n : RegName, recognised n.text = n.spotted)
    (hnot : ∀ t, isReg t = false → isGpr t = false → recognised t = false) :
    (o.insn n').written recognised = (o.insn n).written recognised ∨
      (o.insn n').written recognised = none ∧ o.mnem ∉ chainMoves ∧
        (o.insn n).parts.length ≤ 2 := by
  rcases o.head_cases with hhead | hhead | hpre
  · left
    rw [Insn.written, Insn.written, hhead n n', insn_mnem, insn_mnem]
  · -- the open register stands in it, behind something else
    have hnone : ∀ n, (o.insn n).written recognised = none := by
      intro n
      obtain ⟨p, ps, hparts, hr, hg, -⟩ := hhead n
      rw [Insn.written, hparts, List.head?_cons, Option.bind_some, hnot p hr hg]
      rfl
    exact Or.inl ((hnone n').trans (hnone n).symm)
  · by_cases hreads : o.mnem ∈ readsFirst
    · have hnone : ∀ n, (o.insn n).written recognised = none := by
        intro n
        rw [Insn.written, insn_mnem]
        simp [hreads]
      exact Or.inl ((hnone n').trans (hnone n).symm)
    · obtain ⟨hmove, Q, hlength, hparts⟩ := o.parts_of_first hpre hreads
      have hwritten : ∀ n, (o.insn n).written recognised =
          if n.spotted then some n.reg.common else none := by
        intro n
        rw [Insn.written, hparts, insn_mnem, List.head?_cons, Option.bind_some, hname, canon_name]
        simp [hreads]
      rw [hwritten, hwritten, hreg, hparts]
      by_cases hn' : n'.spotted = true
      · left
        rw [hn', hvis hn']
      · right
        rw [if_neg hn']
        exact ⟨rfl, hmove, Nat.succ_le_succ hlength⟩

namespace OpenInsn

/-! ## Constants and PIC marks -/

variable (o : OpenInsn) (n : RegName)

theorem head_operands : ∀ c ∈ (o.operands n).head?, Text.isSpace c = false :=
  (o.operands_trimmed n).1

theorem afterMnem_insn {name : String} (hname : o.mnem = name.toList) :
    afterMnem name (o.insn n).text = some (o.operands n) := by
  rw [insn, hname]
  exact afterMnem_append name (o.head_operands n)

theorem afterMnem_ne {name : String} (hne : name.toList ≠ [])
    (hlow : ∀ c ∈ name.toList, Text.isSpace c = false) (hname : o.mnem ≠ name.toList) :
    afterMnem name (o.insn n).text = none := by
  rcases h : afterMnem name (o.insn n).text with - | r
  · rfl
  · exact absurd ((o.insn_mnem n).symm.trans (firstWord_of_afterMnem hne hlow h)) hname

theorem operands_ne_of_low (hpre : o.pre ≠ []) {r h : Text} {s : Char}
    (hr : ∀ c ∈ r, isLow c = true) (hh : ∀ c ∈ h, isLow c = true) :
    o.operands n ≠ r ++ s :: '0' :: h := by
  have hzero : ∀ n : RegName, n.text.head? ≠ some '0' := by decide
  exact append_ne_of_low hpre o.left (LowWord.name n) (hzero n) hr hh

theorem first_of_add (hmnem : o.mnem ∈ ["add", "sub"].map String.toList) (hpre : o.pre = []) :
    o.operands n = n.text := by
  have hreads : ∀ m ∈ ["add", "sub"].map String.toList, m ∉ readsFirst := by decide
  obtain ⟨-, hpost⟩ := (o.source.resolve_left (not_not.mpr hpre)).resolve_left (hreads _ hmnem)
  rcases hpost with hpost | ⟨rest, -, -, hnot⟩
  · rw [operands, hpre, hpost, List.nil_append, List.append_nil]
  · exact absurd hmnem hnot

/-- A constant added to a register has no other register beside it. -/
theorem addsTo_eq_false {reg : Text} (hlow : ∀ c ∈ reg, isLow c = true) :
    addsTo reg (o.insn n).text = false := by
  by_cases hadd : o.mnem = "add".toList
  · rw [addsTo, o.afterMnem_insn n hadd, Option.any_some]
    by_contra hadds
    simp only [Bool.not_eq_false, Bool.and_eq_true, beq_iff_eq] at hadds
    obtain ⟨⟨htake, -⟩, hall⟩ := hadds
    have hops : o.operands n = reg ++ ',' :: '0' :: 'x' :: (o.operands n).drop (reg.length + 3) := by
      conv_lhs => rw [← List.take_append_drop (reg.length + 3) (o.operands n), htake]
      simp
    by_cases hpre : o.pre = []
    · have hcomma : ',' ∈ o.operands n := by
        rw [hops]
        simp
      rw [o.first_of_add n (by rw [hadd]; decide) hpre] at hcomma
      exact ne_of_low (name_low n _ hcomma) (by decide) rfl
    · refine o.operands_ne_of_low n hpre hlow (fun c hc => ?_) hops
      rcases List.mem_cons.mp hc with rfl | hc
      · rfl
      · exact isLow_of_isHex (List.all_eq_true.mp hall c hc)
  · rw [addsTo, o.afterMnem_ne n (by decide) (by decide) hadd]
    rfl

/-- A constant added to the stack pointer has no other register beside it. -/
theorem espOffset_eq_none (hmnem : o.mnem ∈ ["add", "sub"].map String.toList) :
    espOffset (o.operands n) = none := by
  by_cases hpre : o.pre = []
  · rw [o.first_of_add n hmnem hpre]
    have h : ∀ n : RegName, espOffset n.text = none := by decide
    exact h n
  · obtain ⟨q, a, hq⟩ := (List.eq_nil_or_concat o.pre).resolve_left hpre
    rw [List.concat_eq_append] at hq
    have ha : isLow a = false := o.left a (by simp [hq])
    have hblank : (a != ' ') = true := by
      refine bne_iff_ne.mpr fun ha => o.blank ?_ hmnem
      simp [hq, ha]
    have hname : unspaced n.text = n.text :=
      List.filter_eq_self.mpr fun c hc => bne_iff_ne.mpr (ne_of_low (name_low n c hc) (by decide))
    have hops : unspaced (o.operands n) = (unspaced q ++ [a]) ++ n.text ++ unspaced o.post := by
      conv_rhs => rw [← hname]
      simp [operands, hq, unspaced, hblank]
    have hzero : ∀ n : RegName, n.text.head? ≠ some '0' := by decide
    have hlast : ∀ c ∈ (unspaced q ++ [a]).getLast?, isLow c = false := by simp [ha]
    unfold espOffset
    split
    · rename_i h heq
      rw [if_neg]
      intro hhex
      rw [Bool.and_eq_true] at hhex
      rw [hops] at heq
      have hesp : ∀ c ∈ "esp".toList, isLow c = true := by decide
      refine append_ne_of_low (by simp) hlast (LowWord.name n) (hzero n) hesp (fun c hc => ?_) heq
      rcases List.mem_cons.mp hc with rfl | hc
      · rfl
      · exact isLow_of_isHex (List.all_eq_true.mp hhex.2 c hc)
    · rfl

theorem deltaAfter_insn (word : ℕ) (delta : ℤ) :
    deltaAfter word delta (o.insn n) =
      if o.mnem == "push".toList then delta + word else delta := by
  have hnone : ∀ m ∈ ["add", "sub"].map String.toList, o.mnem = m →
      espOffset (o.operands n) = none := fun m hm h => o.espOffset_eq_none n (h ▸ hm)
  rw [deltaAfter, insn_mnem, insn_ops]
  by_cases hsub : o.mnem = "sub".toList
  · rw [hnone _ (by decide) hsub, hsub]
    rfl
  · by_cases hadd : o.mnem = "add".toList
    · rw [hnone _ (by decide) hadd, hadd]
      rfl
    · rw [beq_eq_false_iff_ne.mpr hsub, beq_eq_false_iff_ne.mpr hadd]
      rfl

theorem poppedReg_eq_none : poppedReg (o.insn n).text = none := by
  by_cases hpop : o.mnem = "pop".toList
  · have hopen : '[' ∈ o.operands n := by
      simp [operands, o.popped hpop]
    rw [poppedReg, o.afterMnem_insn n hpop, Option.bind_some]
    split
    · rename_i e a b heq
      rw [if_neg]
      simp only [Bool.and_eq_true, beq_iff_eq]
      rintro ⟨⟨rfl, ha⟩, hb⟩
      rw [heq] at hopen
      simp only [List.mem_cons, List.not_mem_nil, or_false] at hopen
      rcases hopen with h | rfl | rfl
      · exact absurd h (by decide)
      · exact absurd ha (by decide)
      · exact absurd hb (by decide)
    · rfl
  · rw [poppedReg, o.afterMnem_ne n (by decide) (by decide) hpop]
    rfl

/-- A call that is no dispatch has the same target. -/
theorem directTarget_congr {n n' : RegName} (hn : o.Fits n) (hn' : o.Fits n')
    (hdirect : isDispatchCall (o.insn n) = false) (hdirect' : isDispatchCall (o.insn n') = false) :
    directTarget (o.insn n').text = directTarget (o.insn n).text := by
  by_cases hcall : o.mnem = "call".toList
  · by_cases hpre : o.pre = []
    · have hnone : ∀ n : RegName, n.isWide = true →
          indirectCall ("call".toList ++ ' ' :: n.text) = false →
          directTarget ("call".toList ++ ' ' :: n.text) = none := by decide
      have htext : ∀ n, (o.insn n).text = "call".toList ++ ' ' :: n.text := by
        intro n
        rw [insn, operands, hcall, hpre, o.called hcall hpre, List.nil_append, List.append_nil]
      have hindirect : ∀ n, isDispatchCall (o.insn n) = false →
          indirectCall ("call".toList ++ ' ' :: n.text) = false := by
        intro n h
        rw [isDispatchCall, insn_mnem, hcall, htext] at h
        exact h
      rw [htext, htext, hnone n (hn (Or.inr hcall)) (hindirect n hdirect),
        hnone n' (hn' (Or.inr hcall)) (hindirect n' hdirect')]
    · obtain ⟨q, a, hq⟩ := (List.eq_nil_or_concat o.pre).resolve_left hpre
      rw [List.concat_eq_append] at hq
      have ha : isHex a = false := by
        by_contra hhex
        have hlow := isLow_of_isHex (by simpa using hhex)
        rw [o.left a (by simp [hq])] at hlow
        exact absurd hlow (by decide)
      have hdigits : ∀ n, (o.operands n).takeWhile isHex = q.takeWhile isHex := by
        intro n
        have hops : o.operands n = q ++ a :: (n.text ++ o.post) := by
          rw [operands, hq]
          simp
        rw [hops, takeWhile_append_stop ha]
      simp only [directTarget, o.afterMnem_insn _ hcall, Option.bind_some, hdigits]
  · rw [directTarget, directTarget, o.afterMnem_ne n (by decide) (by decide) hcall,
      o.afterMnem_ne n' (by decide) (by decide) hcall]

theorem inAddress_of_last {pre : Text} (h : pre.getLast? = some '[') : inAddress pre = true := by
  obtain ⟨q, rfl⟩ := List.getLast?_eq_some_iff.mp h
  simp [inAddress]

/-- The two spellings. -/
theorem respelt {n n' : RegName} (hreg : n.reg = n'.reg)
    (hvis : n'.spotted = true → n.spotted = true) (hn : o.Fits n) (hn' : o.Fits n') :
    Respelt (o.insn n) (o.insn n') := by
  obtain ⟨P, Q, u, v, hparts, -, hu, hv⟩ := o.exists_parts
  have hsees := sees_name hreg hvis
  have hpart : Sees (Text.strip (u ++ n.text ++ v)) (Text.strip (u ++ n'.text ++ v)) :=
    (hsees.within hu hv).strip
  have hsame : ∀ fs : List Text, List.Forall₂ Sees fs fs := fun fs =>
    List.forall₂_same.mpr fun t _ => Sees.refl t
  refine
    { addr := rfl
      mnem := by rw [insn_mnem, insn_mnem]
      stores := ?_
      slot := ?_
      dst := ?_
      gprDst := ?_
      popped := fun hpop => ?_
      length := ?_
      moves := fun word delta => by rw [deltaAfter_insn, deltaAfter_insn]
      target := o.directTarget_congr hn hn'
      pops := by rw [poppedReg_eq_none, poppedReg_eq_none]
      adds := fun reg hlow => by rw [o.addsTo_eq_false n' hlow, o.addsTo_eq_false n hlow]
      text := (Sees.refl o.mnem).append (hsees.within o.left o.right) (by decide)
      ops := ?_
      tail := ?_
      last := ?_
      bracket := ?_ }
  · rw [Insn.stores, Insn.stores, insn_ops, insn_ops]
    exact storesTo_congr (LowWord.name n') (LowWord.name n) o.pre o.post
  · rw [Insn.slot, Insn.slot, insn_ops, insn_ops]
    exact (slotIn_congr hreg o.post o.left fun hopen =>
      ⟨hn (Or.inl (inAddress_of_last hopen)), hn' (Or.inl (inAddress_of_last hopen))⟩).symm
  · rw [Insn.dst_eq, Insn.dst_eq, insn_mnem]
    exact (o.written_cases hreg hvis (fun n => (isReg_name n).1) fun t h _ => h).imp_right
      fun h => ⟨h.1, h.2.1⟩
  · rw [Insn.gprDst_eq, Insn.gprDst_eq, Insn.keepsDst, insn_mnem]
    refine (o.written_cases hreg hvis (fun n => (isReg_name n).2) fun t _ h => h).imp_right
      fun h => ⟨h.1, ?_⟩
    simp [h.2.1, h.2.2]
  · rw [insn_mnem] at hpop
    rcases o.head_cases with hhead | hhead | hpre
    · exact Or.inl (hhead n n')
    · refine Or.inr ⟨fun p hp => ?_, fun p hp => ?_⟩
      · obtain ⟨q, qs, hq, -, -, hopen⟩ := hhead n
        rw [hq] at hp
        exact Option.some.inj hp ▸ hopen (o.popped hpop)
      · obtain ⟨q, qs, hq, -, -, hopen⟩ := hhead n'
        rw [hq] at hp
        exact Option.some.inj hp ▸ hopen (o.popped hpop)
    · have hopen := o.popped hpop
      rw [hpre] at hopen
      exact absurd hopen List.not_mem_nil
  · rw [hparts, hparts]
    simp
  · rw [insn_ops, insn_ops]
    exact hsees.within o.left o.right
  · rw [hparts, hparts]
    rcases P with - | ⟨p, P⟩
    · exact Sees.refl _
    · exact Sees.join (List.rel_append (hsame P) (List.Forall₂.cons hpart (hsame Q)))
  · rw [hparts, hparts, List.getLastD_eq_getLast?, List.getLastD_eq_getLast?,
      List.getLast?_append_of_ne_nil _ (by simp), List.getLast?_append_of_ne_nil _ (by simp)]
    rcases Q with - | ⟨q, Q⟩
    · exact hpart
    · rw [List.getLast?_cons_cons, List.getLast?_cons_cons]
      exact Sees.refl _
  · rw [insn_ops, insn_ops]
    exact bracketed_sees (LowWord.name n) (LowWord.name n') hsees o.left o.right

end OpenInsn

end OMB
