import Mathlib
import OpenMethodBench.Proofs.AddressArithmetic
import OpenMethodBench.Proofs.OpenOperand
import OpenMethodBench.Proofs.RoleInference
import OpenMethodBench.Spec.Stack

/-! What the passes find in the text of an instruction that moves the stack pointer or uses
a slot under it. -/

namespace OMB

/-! ## Slots -/

/-- What stands between the stack pointer and the closing bracket. -/
def Slot.dispText (s : Slot) : Text := (s.disp.map fun d : ℕ => '+' :: hexText d).getD []

theorem Slot.text_eq (wide : Bool) (s : Slot) : (s.operand wide).text =
    (s.size.text ++ " PTR ".toList) ++ '[' :: ((stackPointer wide).text ++
      (s.dispText ++ [']'])) := by
  rcases s with ⟨z, - | d⟩
  · simp [Slot.operand, Slot.addr, Slot.dispText, Operand.text, Place.text, Addr.text, stackPointer]
  · have hd : ¬ (d : ℤ) < 0 := by omega
    simp [Slot.operand, Slot.addr, Slot.dispText, Operand.text, Place.text, Addr.text, stackPointer,
      OMB.dispText, hd]

theorem Slot.text_append (wide : Bool) (s : Slot) (post : Text) :
    (s.operand wide).text ++ post = (s.size.text ++ " PTR ".toList) ++
      '[' :: ((stackPointer wide).text ++ (s.dispText ++ ']' :: post)) := by
  rw [Slot.text_eq]
  simp

theorem Slot.dispText_low (s : Slot) : ∀ c ∈ s.dispText, c = '+' ∨ isLow c = true := by
  intro c hc
  rcases hd : s.disp with - | d
  · simp [Slot.dispText, hd] at hc
  · rw [Slot.dispText, hd] at hc
    exact (List.mem_cons.mp hc).imp_right (hexText_low c)

/-- A slot is told where a displacement is printed. -/
theorem slotAt_slot (wide : Bool) (s : Slot) (rest : Text) :
    slotAt ('[' :: ((stackPointer wide).text ++ (s.dispText ++ ']' :: rest))) =
      s.disp.map fun d => (d, rest) := by
  rcases hd : s.disp with - | d
  · rw [Slot.dispText, hd]
    exact slotAt_sp (by simp) wide
  · have hclose : ∀ c ∈ (']' :: rest).head?, isHex c = false := by simp [isHex]
    have hname : ∀ wide : Bool, ∃ c, (c = 'e' ∨ c = 'r') ∧ (stackPointer wide).text = [c, 's', 'p'] := by
      intro wide
      cases wide
      · exact ⟨'e', Or.inl rfl, rfl⟩
      · exact ⟨'r', Or.inr rfl, rfl⟩
    obtain ⟨c, hc, hsp⟩ := hname wide
    have hpointer : (c == 'e' || c == 'r') = true := by
      rcases hc with rfl | rfl <;> rfl
    have hdigits : Nat.toDigits 16 d ≠ [] := Nat.toDigits_ne_nil
    rw [Slot.dispText, hd, hsp]
    simp only [Option.map_some, Option.getD_some, hexText, List.cons_append, List.nil_append, slotAt]
    rw [Text.dropWhile_append_of_head (isHex_toDigits d) hclose,
      Text.takeWhile_append_of_head (isHex_toDigits d) hclose, hexVal_toDigits, hpointer]
    simp [hdigits]

theorem slotIn_slot {pre : Text} (hpre : '[' ∉ pre) (wide : Bool) (s : Slot) {post : Text}
    (hpost : '[' ∉ post) : slotIn (pre ++ ((s.operand wide).text ++ post)) = s.disp := by
  have hopen : '[' ∉ (stackPointer wide).text ++ (s.dispText ++ ']' :: post) := by
    simp only [List.mem_append, List.mem_cons, not_or]
    refine ⟨no_bracket_name _, fun hc => ?_, by decide, hpost⟩
    rcases s.dispText_low _ hc with h | h <;> exact absurd h (by decide)
  rw [slotIn_append hpre, Slot.text_append, slotIn_append (no_bracket_size s.size), slotIn, slotAt_slot,
    slotIn_eq_none hopen]
  cases s.disp <;> rfl

/-! ## The instructions of a window -/

/-- The mnemonics that move the stack pointer without naming it. -/
def stackMnems : List Text :=
  ["push", "pop", "pushf", "popf", "pusha", "popa", "call", "ret", "lret", "iret", "leave",
    "enter", "int"].map String.toList

/-- The pointer moves by the constants an instruction names alone, a register or a constant
is spilled, and no move writes a constant. -/
def StackOp.Plain : StackOp → Prop
  | .pop dst => ∀ n, dst = .reg n → n.reg ≠ .pointer .sp
  | .reload dst _ => dst.reg ≠ .pointer .sp
  | .spill _ src => src.isMem = false
  | .other text =>
    let x : Insn := ⟨0, text⟩
    x.mentionsStack = false ∧ x.mnem ∉ stackMnems ∧
      ∀ n, x.defines = some (hexText n) → plainMoves.contains x.mnem = false
  | _ => True

section Fields

variable (wide : Bool) (a : ℕ)

/-- Mnemonic and operands of an instruction that prints them. -/
theorem line_fields {op : StackOp} {m o : Text} {os : List Text}
    (htext : op.text wide = m ++ ' ' :: Text.join ',' (o :: os)) (hm : m ≠ [] ∧ ∀ c ∈ m, isLow c = true)
    (hs : ∀ p ∈ o :: os, Piece p) :
    let x := StackLine.insn wide ⟨a, op⟩
    x.mnem = m ∧ x.ops = Text.join ',' (o :: os) ∧ x.parts = o :: os := by
  rw [StackLine.insn, htext]
  exact insn_fields hm.1 hm.2 hs a

theorem push_fields (src : Operand) :
    let x := StackLine.insn wide ⟨a, .push src⟩
    x.mnem = "push".toList ∧ x.ops = src.text ∧ x.parts = [src.text] := by
  have hs : ∀ t ∈ [src.text], Piece t := by simp [piece_operand]
  have hm : "push".toList ≠ [] ∧ ∀ c ∈ "push".toList, isLow c = true := by decide
  have htext : (StackOp.push src).text wide = "push".toList ++ ' ' :: Text.join ',' [src.text] := by
    rw [Text.join_singleton]
    rfl
  obtain ⟨hmnem, hops, hparts⟩ := line_fields wide a htext hm hs
  exact ⟨hmnem, hops.trans (Text.join_singleton _ _), hparts⟩

theorem pop_fields (dst : Operand) :
    let x := StackLine.insn wide ⟨a, .pop dst⟩
    x.mnem = "pop".toList ∧ x.ops = dst.text ∧ x.parts = [dst.text] := by
  have hs : ∀ t ∈ [dst.text], Piece t := by simp [piece_operand]
  have hm : "pop".toList ≠ [] ∧ ∀ c ∈ "pop".toList, isLow c = true := by decide
  have htext : (StackOp.pop dst).text wide = "pop".toList ++ ' ' :: Text.join ',' [dst.text] := by
    rw [Text.join_singleton]
    rfl
  obtain ⟨hmnem, hops, hparts⟩ := line_fields wide a htext hm hs
  exact ⟨hmnem, hops.trans (Text.join_singleton _ _), hparts⟩

theorem adjust_fields (down : Bool) (c : ℕ) :
    let x := StackLine.insn wide ⟨a, .adjust down c⟩
    x.mnem = (if down then "sub".toList else "add".toList) ∧
      x.ops = (stackPointer wide).text ++ ',' :: hexText c := by
  have hs : ∀ t ∈ [(stackPointer wide).text, hexText c], Piece t := by
    have himm : Piece (hexText c) := piece_operand (.imm c)
    simp [piece_name, himm]
  have hm : ∀ down : Bool, (if down then "sub".toList else "add".toList) ≠ [] ∧
      ∀ c ∈ if down then "sub".toList else "add".toList, isLow c = true := by decide
  have htext : (StackOp.adjust down c).text wide = (if down then "sub".toList else "add".toList) ++
      ' ' :: Text.join ',' [(stackPointer wide).text, hexText c] := rfl
  obtain ⟨hmnem, hops, -⟩ := line_fields wide a htext (hm down) hs
  rw [Text.join_cons_cons, Text.join_singleton] at hops
  exact ⟨hmnem, hops⟩

theorem mov_low : "mov".toList ≠ [] ∧ ∀ c ∈ "mov".toList, isLow c = true := by decide

theorem spill_fields (slot : Slot) (src : Operand) :
    let x := StackLine.insn wide ⟨a, .spill slot src⟩
    x.mnem = "mov".toList ∧ x.ops = (slot.operand wide).text ++ ',' :: src.text ∧
      x.parts = [(slot.operand wide).text, src.text] := by
  have hs : ∀ t ∈ [(slot.operand wide).text, src.text], Piece t := by simp [piece_operand]
  have htext : (StackOp.spill slot src).text wide = "mov".toList ++
      ' ' :: Text.join ',' [(slot.operand wide).text, src.text] := rfl
  obtain ⟨hmnem, hops, hparts⟩ := line_fields wide a htext mov_low hs
  rw [Text.join_cons_cons, Text.join_singleton] at hops
  exact ⟨hmnem, hops, hparts⟩

theorem reload_fields (dst : RegName) (slot : Slot) :
    let x := StackLine.insn wide ⟨a, .reload dst slot⟩
    x.mnem = "mov".toList ∧ x.ops = dst.text ++ ',' :: (slot.operand wide).text ∧
      x.parts = [dst.text, (slot.operand wide).text] := by
  have hs : ∀ t ∈ [dst.text, (slot.operand wide).text], Piece t := by simp [piece_operand, piece_name]
  have htext : (StackOp.reload dst slot).text wide = "mov".toList ++
      ' ' :: Text.join ',' [dst.text, (slot.operand wide).text] := rfl
  obtain ⟨hmnem, hops, hparts⟩ := line_fields wide a htext mov_low hs
  rw [Text.join_cons_cons, Text.join_singleton] at hops
  exact ⟨hmnem, hops, hparts⟩

/-- The call of the next instruction is no dispatch, and stores nothing. -/
theorem callNext_fields (target : ℕ) (symbol : Text) :
    let x := StackLine.insn wide ⟨a, .callNext target symbol⟩
    x.mnem = "call".toList ∧ x.stores = false ∧ isDispatchCall x = false := by
  intro x
  obtain ⟨d, ds, hd⟩ := List.exists_cons_of_ne_nil (Nat.toDigits_ne_nil (b := 16) (n := target))
  have hhex : ∀ c ∈ d :: ds, isHex c = true := hd ▸ isHex_toDigits target
  have hlow : ∀ c ∈ d :: ds, isLow c = true := fun c hc => isLow_of_isHex (hhex c hc)
  have hops : ∃ ops : Text, ops = d :: ds ++ (' ' :: '<' :: (symbol ++ ['>'])) ∧
      x.text = "call".toList ++ ' ' :: ops := by
    refine ⟨_, rfl, ?_⟩
    rw [← hd]
    change "call".toList ++ ' ' :: (Nat.toDigits 16 target ++ " <".toList ++ symbol ++ ['>']) = _
    rw [List.append_assoc, List.append_assoc]
    rfl
  obtain ⟨ops, hopsEq, htext⟩ := hops
  have hhead : ∀ c ∈ ops.head?, Text.isSpace c = false := by
    intro c hc
    rw [hopsEq] at hc
    exact Option.some.inj hc ▸ not_space_of_low (hlow d List.mem_cons_self)
  have hlast : ops.getLast? = some '>' := by
    have hconcat : ops = (d :: ds ++ ' ' :: '<' :: symbol) ++ ['>'] := by
      rw [hopsEq]
      simp
    rw [hconcat, List.getLast?_concat]
  have hmnem : x.mnem = "call".toList := by
    rw [Insn.mnem, htext]
    exact Text.firstWord_append (by decide) (by decide) (by simp [Text.isSpace])
  have hxops : x.ops = ops := by
    rw [Insn.ops, hmnem, htext, List.drop_left, Text.strip_cons_space (by decide)]
    refine Text.strip_eq_self ⟨hhead, fun c hc => ?_⟩
    rw [hlast] at hc
    exact Option.some.inj hc ▸ rfl
  have hword : ∀ c ∈ d :: ds, isWordChar c = true := fun c hc => wordChar_of_low (hlow c hc)
  have hrest : ∀ c ∈ (' ' :: '<' :: (symbol ++ ['>'])).head?, isWordChar c = false := by
    simp [isWordChar]
  have hptr : (' ' :: '<' :: (symbol ++ ['>'])).take 6 ≠ " PTR [".toList := by
    intro h
    exact absurd (List.cons.inj (List.cons.inj h).2).1 (by decide)
  refine ⟨hmnem, ?_, ?_⟩
  · rw [Insn.stores, hxops, hopsEq]
    exact storesTo_eq_false hword hrest hptr
  · have hindirect : indirectCall x.text = false := by
      have hopen : (ops.head? == some '[') = false := by
        have hne : d ≠ '[' := ne_of_low (hlow d List.mem_cons_self) (by decide)
        rw [hopsEq]
        simpa using hne
      have hsize : ((ops.dropWhile isWordChar).take 6 == " PTR [".toList) = false := by
        rw [hopsEq, Text.dropWhile_append_of_head hword hrest]
        exact beq_eq_false_iff_ne.mpr hptr
      have hclose : '>' ∈ ops.tail := by
        rw [hopsEq]
        simp
      have hlegacy : (legacyAt ops == some ops) = false := by
        refine beq_eq_false_iff_ne.mpr fun h => ?_
        have hc := legacyAt_low h '>' (List.mem_of_mem_tail hclose)
        exact absurd hc (by decide)
      have hnumber : ops.tail.all Char.isDigit = false := by
        by_contra h
        have hc := List.all_eq_true.mp (by simpa using h) '>' hclose
        exact absurd hc (by decide)
      rw [indirectCall, htext, afterMnem_append "call" hhead, Option.any_some]
      simp only [hopen, hsize, hlegacy, hnumber, Bool.and_false, Bool.or_false]
    rw [isDispatchCall, hindirect, Bool.and_false]

end Fields

/-! ## Instructions that do not name the pointer -/

section Unnamed

variable {x : Insn}

theorem espOffset_unnamed (h : x.mentionsStack = false) : espOffset x.ops = none := by
  unfold espOffset
  split
  · rename_i t heq
    rw [Insn.mentionsStack, heq] at h
    simp [Text.occurs] at h
  · rfl

theorem occurs_unspaced {sub t : Text} (hsub : ∀ c ∈ sub, (c != ' ') = true)
    (h : Text.occurs sub t = true) : Text.occurs sub (unspaced t) = true := by
  have hprefix : ∀ {u v : Text}, u <+: v → Text.occurs u v = true := by
    intro u v huv
    cases v with
    | nil => simp [Text.occurs, List.prefix_nil.mp huv]
    | cons c v => rw [Text.occurs, List.isPrefixOf_iff_prefix.mpr huv, Bool.true_or]
  induction t with
  | nil => exact h
  | cons c t ih =>
    rw [Text.occurs, Bool.or_eq_true, List.isPrefixOf_iff_prefix] at h
    rcases h with h | h
    · have hfilter := h.filter (· != ' ')
      rw [List.filter_eq_self.mpr hsub] at hfilter
      exact hprefix hfilter
    · refine occurs_of_suffix ?_ (ih h)
      exact (List.suffix_cons c t).filter _

theorem slotIn_occurs {t : Text} {d : ℕ} (h : slotIn t = some d) :
    Text.occurs "esp".toList t = true ∨ Text.occurs "rsp".toList t = true := by
  induction t with
  | nil => exact absurd h (by simp [slotIn])
  | cons c t ih =>
    rw [slotIn] at h
    rcases hat : slotAt (c :: t) with - | ⟨offset, rest⟩
    · rw [hat] at h
      exact (ih h).imp (occurs_of_suffix (List.suffix_cons c t))
        (occurs_of_suffix (List.suffix_cons c t))
    · exact slotAt_occurs hat

theorem slot_unnamed (h : x.mentionsStack = false) : x.slot = none := by
  rw [Insn.mentionsStack, Bool.or_eq_false_iff] at h
  rw [← Option.not_isSome_iff_eq_none, Option.isSome_iff_exists]
  rintro ⟨d, hd⟩
  rcases slotIn_occurs hd with ho | ho
  · rw [occurs_unspaced (by decide) ho] at h
    exact absurd h.1 (by decide)
  · rw [occurs_unspaced (by decide) ho] at h
    exact absurd h.2 (by decide)

theorem spill_unnamed (h : x.mentionsStack = false) : x.spill = none := by
  rw [Insn.mentionsStack, Bool.or_eq_false_iff] at h
  rw [← Option.not_isSome_iff_eq_none, Option.isSome_iff_exists]
  rintro ⟨⟨d, src⟩, hs⟩
  unfold Insn.spill at hs
  split_ifs at hs
  simp only [spillOf, Option.bind_eq_bind, Option.bind_eq_some_iff] at hs
  obtain ⟨u, hu, ⟨offset, rest⟩, hslot, -⟩ := hs
  rcases slotAt_occurs hslot with ho | ho
  · rw [occurs_of_suffix (ptrAt_suffix hu) ho] at h
    exact absurd h.1 (by decide)
  · rw [occurs_of_suffix (ptrAt_suffix hu) ho] at h
    exact absurd h.2 (by decide)

end Unnamed

/-! ## What the passes take an instruction to do -/

theorem espOffset_adjust (wide : Bool) (c : ℕ) :
    espOffset ((stackPointer wide).text ++ ',' :: hexText c) = if wide then none else some c := by
  cases wide
  · have hlow : ∀ d ∈ hexText c, (d != ' ') = true := fun d hd =>
      bne_iff_ne.mpr (ne_of_low (hexText_low d hd) (by decide))
    have hunspaced : unspaced ((stackPointer false).text ++ ',' :: hexText c) =
        'e' :: 's' :: 'p' :: ',' :: '0' :: 'x' :: Nat.toDigits 16 c := by
      rw [unspaced, List.filter_append, List.filter_cons_of_pos (by decide),
        List.filter_eq_self.mpr hlow]
      rfl
    have hall : (Nat.toDigits 16 c).all isHex = true := List.all_eq_true.mpr (isHex_toDigits c)
    have hne : Nat.toDigits 16 c ≠ [] := Nat.toDigits_ne_nil
    rw [espOffset, hunspaced]
    simp [hall, hne, hexVal_toDigits]
  · have hne : (stackPointer true).text ≠ "esp".toList := by decide
    exact espOffset_of_ne (name_low _) hne _

/-- One operand alone is no store. -/
theorem storesTo_operand (o : Operand) : storesTo o.text = false := by
  have hword : ∀ {t : Text}, (∀ c ∈ t, isLow c = true) → storesTo t = false := by
    intro t ht
    have hfalse := storesTo_eq_false (r := []) (fun c hc => wordChar_of_low (ht c hc)) (by simp)
      (by decide)
    rwa [List.append_nil] at hfalse
  rcases o with n | v | ⟨z, a | n⟩
  · exact hword (name_low n)
  · exact hword fun c hc => hexText_low c hc
  · exact storesTo_alone z a
  · have htext : (Operand.mem z (.abs n)).text = z.text ++ (" PTR ds:".toList ++ hexText n) := by
      simp [Operand.text, Place.text]
    rw [htext]
    exact storesTo_eq_false (fun c hc => ((size_word z).2 c hc).1) (by simp [isWordChar]) (by simp)

/-- The text of a register or a constant. -/
theorem value_low {o : Operand} (ho : o.isMem = false) : o.text ≠ [] ∧ ∀ c ∈ o.text, isLow c = true := by
  rcases o with n | v | ⟨z, p⟩
  · exact ⟨name_ne_nil n, name_low n⟩
  · exact ⟨by simp [Operand.text, hexText], fun c hc => hexText_low c hc⟩
  · exact absurd ho (by simp [Operand.isMem])

theorem isWord_value {o : Operand} (ho : o.isMem = false) : isWord o.text = true := by
  obtain ⟨hne, hlow⟩ := value_low ho
  simpa [isWord, hne] using hlow

theorem no_bracket_low {t : Text} (h : ∀ c ∈ t, isLow c = true) : '[' ∉ t :=
  fun hc => ne_of_low (h _ hc) (by decide) rfl

/-! ## Spills and reloads -/

theorem canon_hexText (n : ℕ) : canon (hexText n) = hexText n := by
  obtain ⟨d, ds, hd⟩ := List.exists_cons_of_ne_nil (Nat.toDigits_ne_nil (b := 16) (n := n))
  have hquad : quadStem ('0' :: 'x' :: d :: ds) = none := by
    cases ds <;> rfl
  rw [hexText, hd, canon, hquad]
  rfl

/-- The size, the slot and what follows it, without the spaces. -/
theorem unspaced_slot (wide : Bool) (s : Slot) {post : Text} (hpost : ∀ c ∈ post, c ≠ ' ') :
    unspaced ((s.operand wide).text ++ post) = (s.size.text ++ "PTR".toList) ++
      '[' :: ((stackPointer wide).text ++ (s.dispText ++ ']' :: post)) := by
  have hkeep : ∀ {t : Text}, (∀ c ∈ t, c ≠ ' ') → unspaced t = t := fun ht =>
    List.filter_eq_self.mpr fun c hc => bne_iff_ne.mpr (ht c hc)
  have hsize : ∀ z : Size, unspaced (z.text ++ " PTR ".toList) = z.text ++ "PTR".toList := by
    intro z
    cases z <;> rfl
  have htail : ∀ c ∈ '[' :: ((stackPointer wide).text ++ (s.dispText ++ ']' :: post)), c ≠ ' ' := by
    intro c hc
    rcases List.mem_cons.mp hc with rfl | hc
    · decide
    rcases List.mem_append.mp hc with hc | hc
    · exact ne_of_low (name_low _ c hc) (by decide)
    rcases List.mem_append.mp hc with hc | hc
    · rcases s.dispText_low c hc with rfl | hc
      · decide
      · exact ne_of_low hc (by decide)
    · rcases List.mem_cons.mp hc with rfl | hc
      · decide
      · exact hpost c hc
  rw [Slot.text_append, unspaced, List.filter_append]
  exact congrArg₂ (· ++ ·) (hsize s.size) (hkeep htail)

theorem ptrAt_slot (z : Size) (t : Text) :
    ptrAt ((z.text ++ "PTR".toList) ++ '[' :: t) = some ('[' :: t) := by
  have hword : ∀ c ∈ z.text ++ "PTR".toList, isWordChar c = true := by
    cases z <;> decide
  have hopen : ∀ c ∈ ('[' :: t).head?, isWordChar c = false := by simp [isWordChar]
  have hptr : (decide (3 < (z.text ++ "PTR".toList).length) &&
      "PTR".toList.isSuffixOf (z.text ++ "PTR".toList)) = true := by
    cases z <;> rfl
  rw [ptrAt]
  simp only [Text.takeWhile_append_of_head hword hopen, Text.dropWhile_append_of_head hword hopen,
    hptr, if_true]

theorem spillOf_slot (wide : Bool) (s : Slot) {src : Operand} (hsrc : src.isMem = false) :
    spillOf ((s.operand wide).text ++ ',' :: src.text) = s.disp.map fun d => (d, src.text) := by
  have hpost : ∀ c ∈ ',' :: src.text, c ≠ ' ' := by
    intro c hc
    rcases List.mem_cons.mp hc with rfl | hc
    · decide
    · exact ne_of_low ((value_low hsrc).2 c hc) (by decide)
  rw [spillOf, unspaced_slot wide s hpost, ptrAt_slot]
  simp only [Option.bind_eq_bind, Option.bind_some, slotAt_slot]
  cases s.disp with
  | none => rfl
  | some d => simp [isWord_value hsrc]

/-- A reload of a register stores nothing. -/
theorem spillOf_reload (wide : Bool) (dst : RegName) (s : Slot) :
    spillOf (dst.text ++ ',' :: (s.operand wide).text) = none := by
  have hlow := name_low dst
  have hword : ∀ c ∈ dst.text, isWordChar c = true := fun c hc => wordChar_of_low (hlow c hc)
  have hkeep : unspaced dst.text = dst.text :=
    List.filter_eq_self.mpr fun c hc => bne_iff_ne.mpr (ne_of_low (hlow c hc) (by decide))
  have hno : "PTR".toList.isSuffixOf dst.text = false := by
    by_contra hsuffix
    rw [Bool.not_eq_false, List.isSuffixOf_iff_suffix] at hsuffix
    exact absurd (hlow 'P' (hsuffix.subset (by decide))) (by decide)
  have hunspaced : unspaced (dst.text ++ ',' :: (s.operand wide).text) =
      dst.text ++ ',' :: unspaced (s.operand wide).text := by
    rw [unspaced, List.filter_append]
    exact congrArg (· ++ _) hkeep
  rw [spillOf, hunspaced, ptrAt, Text.takeWhile_append_of_head hword (by simp [isWordChar]), hno,
    Bool.and_false]
  rfl

theorem reloadOf_reload (wide : Bool) (dst : RegName) (s : Slot) :
    reloadOf (dst.text ++ ',' :: (s.operand wide).text) = s.disp := by
  have hlow := name_low dst
  have hkeep : unspaced dst.text = dst.text :=
    List.filter_eq_self.mpr fun c hc => bne_iff_ne.mpr (ne_of_low (hlow c hc) (by decide))
  have hslot : unspaced ((s.operand wide).text ++ []) = _ := unspaced_slot wide s (by simp)
  rw [List.append_nil] at hslot
  have hunspaced : unspaced (dst.text ++ ',' :: (s.operand wide).text) =
      dst.text ++ ',' :: unspaced (s.operand wide).text := by
    rw [unspaced, List.filter_append]
    exact congrArg (· ++ _) hkeep
  have hcomma : ∀ c ∈ (',' :: unspaced (s.operand wide).text).head?, isLow c = false :=
    fun c hc => Option.some.inj hc ▸ rfl
  rw [reloadOf, hunspaced]
  simp only [Text.dropWhile_append_of_head hlow hcomma, Text.takeWhile_append_of_head hlow hcomma]
  rw [hslot, ptrAt_slot]
  simp only [Option.bind_eq_bind, Option.bind_some, slotAt_slot]
  cases s.disp with
  | none => rfl
  | some d => simp [name_ne_nil]

/-- What begins with a size is no register. -/
theorem firstOperand_slot (wide : Bool) (s : Slot) (t : Text) :
    firstOperand ((s.operand wide).text ++ t) = none := by
  have hupper : ∃ c u, (s.operand wide).text = c :: u ∧ isLow c = false := by
    rcases s with ⟨z, d⟩
    cases z
    all_goals exact ⟨_, _, rfl, rfl⟩
  obtain ⟨c, u, htext, hc⟩ := hupper
  rw [firstOperand, htext, List.cons_append, List.takeWhile_cons_of_neg (by simp [hc])]
  rfl

theorem reloadOf_slot (wide : Bool) (s : Slot) (t : Text) :
    reloadOf ((s.operand wide).text ++ t) = none := by
  have hupper : ∃ c u, (s.operand wide).text = c :: u ∧ isLow c = false ∧ c ≠ ',' ∧ c ≠ ' ' := by
    rcases s with ⟨z, d⟩
    cases z
    all_goals exact ⟨_, _, rfl, rfl, by decide, by decide⟩
  obtain ⟨c, u, htext, hc, hcomma, hspace⟩ := hupper
  have hunspaced : unspaced ((s.operand wide).text ++ t) = c :: unspaced (u ++ t) := by
    rw [htext]
    exact List.filter_cons_of_pos (bne_iff_ne.mpr hspace)
  rw [reloadOf, hunspaced]
  simp only [List.dropWhile_cons_of_neg (p := isLow) (Bool.eq_false_iff.mp hc)]
  split
  · rename_i h
    exact absurd (List.cons.inj h).1 hcomma
  · rfl

/-- A reload writes its register. -/
theorem reload_defines (wide : Bool) (a : ℕ) (dst : RegName) (slot : Slot) :
    (StackLine.insn wide ⟨a, .reload dst slot⟩).defines = some dst.reg.common := by
  obtain ⟨hmnem, hops, -⟩ := reload_fields wide a dst slot
  have hcomma : ∀ c ∈ (',' :: (slot.operand wide).text).head?, isLow c = false :=
    fun c hc => Option.some.inj hc ▸ rfl
  have hstrip : Text.lstrip (',' :: (slot.operand wide).text) = ',' :: (slot.operand wide).text :=
    rfl
  have hfirst : firstOperand (dst.text ++ ',' :: (slot.operand wide).text) = some dst.text := by
    rw [firstOperand, Text.dropWhile_append_of_head (name_low dst) hcomma,
      Text.takeWhile_append_of_head (name_low dst) hcomma, hstrip]
    simp [name_ne_nil]
  have hmov : readsFirst.contains "mov".toList = false := by decide
  rw [Insn.defines, hmnem, hops, hfirst, hmov, ← canon_name]
  rfl

/-! ## One instruction -/

/-- The mnemonic as the passes read it. -/
def StackOp.mnem : StackOp → Text
  | push _ => "push".toList
  | pop _ => "pop".toList
  | adjust true _ => "sub".toList
  | adjust false _ => "add".toList
  | callNext _ _ => "call".toList
  | spill _ _ | reload _ _ => "mov".toList
  | other text => Insn.mnem ⟨0, text⟩

theorem mnem_line (l : StackLine) (wide : Bool) : (l.insn wide).mnem = l.op.mnem := by
  obtain ⟨a, op⟩ := l
  rcases op with src | dst | ⟨- | -, c⟩ | ⟨target, symbol⟩ | ⟨slot, src⟩ | ⟨dst, slot⟩ | text
  · exact (push_fields wide a src).1
  · exact (pop_fields wide a dst).1
  · exact (adjust_fields wide a false c).1
  · exact (adjust_fields wide a true c).1
  · exact (callNext_fields wide a target symbol).1
  · exact (spill_fields wide a slot src).1
  · exact (reload_fields wide a dst slot).1
  · rfl

section Line

variable {l : StackLine} (h : l.op.Plain) (wide : Bool)
include h

/-- What the passes do with `delta`. -/
theorem deltaAfter_line (delta : ℤ) : deltaAfter (wordSize wide) delta (l.insn wide) =
    delta - (l.op.moves wide - l.op.untracked wide) := by
  have hmnem := mnem_line l wide
  obtain ⟨a, op⟩ := l
  have hsame : ∀ {m : Text}, (StackLine.insn wide ⟨a, op⟩).mnem = m → m ≠ "sub".toList →
      m ≠ "add".toList → m ≠ "push".toList →
      deltaAfter (wordSize wide) delta (StackLine.insn wide ⟨a, op⟩) = delta := by
    rintro m rfl hsub hadd hpush
    exact deltaAfter_of_ne hsub hadd hpush
  rcases op with src | dst | ⟨down, c⟩ | ⟨target, symbol⟩ | ⟨slot, src⟩ | ⟨dst, slot⟩ | text
  case push =>
    rw [deltaAfter, hmnem]
    change delta + _ = delta - (-_ - 0)
    rw [sub_zero, sub_neg_eq_add]
  case adjust =>
    obtain ⟨hmnem, hops⟩ := adjust_fields wide a down c
    rw [deltaAfter, hmnem, hops, espOffset_adjust]
    cases down <;> cases wide <;> simp [StackOp.moves, StackOp.untracked]
  case other =>
    have hesp := espOffset_unnamed (x := ⟨0, text⟩) h.1
    have hpush : (Insn.mk 0 text).mnem ≠ "push".toList := fun hm => h.2.1 (by rw [hm]; decide)
    change deltaAfter (wordSize wide) delta ⟨0, text⟩ = delta - 0
    rw [deltaAfter, hesp, beq_eq_false_iff_ne.mpr hpush]
    simp
  all_goals
    rw [StackOp.mnem] at hmnem
    rw [hsame hmnem (by decide) (by decide) (by decide)]
    simp [StackOp.moves, StackOp.untracked]

/-- The slot `chain` sees an instruction store to. -/
theorem stored_line : (l.insn wide).stored =
    match l.op with
    | .spill slot _ => slot.disp
    | _ => none := by
  obtain ⟨a, op⟩ := l
  have hnone : ∀ {x : Insn}, x.stores = false → x.stored = none := by
    intro x hx
    rw [Insn.stored, hx]
    rfl
  rcases op with src | dst | ⟨down, c⟩ | ⟨target, symbol⟩ | ⟨slot, src⟩ | ⟨dst, slot⟩ | text
  · refine hnone ?_
    rw [Insn.stores, (push_fields wide a src).2.1, storesTo_operand]
  · refine hnone ?_
    rw [Insn.stores, (pop_fields wide a dst).2.1, storesTo_operand]
  · refine hnone ?_
    rw [Insn.stores, (adjust_fields wide a down c).2, storesTo_word (name_low _)]
  · exact hnone (callNext_fields wide a target symbol).2.1
  · have hpost : '[' ∉ ',' :: src.text := by
      rw [List.mem_cons]
      exact not_or.mpr ⟨by decide, no_bracket_low (value_low h).2⟩
    have hslot := slotIn_slot (List.not_mem_nil (a := '[')) wide slot hpost
    rw [Insn.stored, Insn.stores, Insn.slot, (spill_fields wide a slot src).2.1, Slot.operand,
      storesTo_at]
    exact hslot
  · refine hnone ?_
    rw [Insn.stores, (reload_fields wide a dst slot).2.1, storesTo_word (name_low _)]
  · have hslot := slot_unnamed (x := ⟨0, text⟩) h.1
    change (if (Insn.mk 0 text).stores then (Insn.mk 0 text).slot else none) = none
    rw [hslot, ite_self]

/-- The spill `roles` sees. -/
theorem spill_line : (l.insn wide).spill =
    match l.op with
    | .spill slot src => slot.disp.map fun d => (d, src.text)
    | _ => none := by
  have hmnem := mnem_line l wide
  obtain ⟨a, op⟩ := l
  have hnone : ∀ {m : Text}, (StackLine.insn wide ⟨a, op⟩).mnem = m → m ≠ "mov".toList →
      (StackLine.insn wide ⟨a, op⟩).spill = none := by
    rintro m rfl hm
    rw [Insn.spill, beq_eq_false_iff_ne.mpr hm]
    rfl
  rcases op with src | dst | ⟨- | -, c⟩ | ⟨target, symbol⟩ | ⟨slot, src⟩ | ⟨dst, slot⟩ | text
  case spill =>
    obtain ⟨-, hops, -⟩ := spill_fields wide a slot src
    rw [Insn.spill, hmnem, hops]
    exact spillOf_slot wide slot h
  case reload =>
    obtain ⟨-, hops, -⟩ := reload_fields wide a dst slot
    rw [Insn.spill, hmnem, hops]
    exact spillOf_reload wide dst slot
  case other => exact spill_unnamed (x := ⟨0, text⟩) h.1
  all_goals
    rw [StackOp.mnem] at hmnem
    exact hnone hmnem (by decide)

/-- The reload it sees. -/
theorem reload_line : (l.insn wide).reload =
    match l.op with
    | .reload _ slot => slot.disp
    | _ => none := by
  have hmnem := mnem_line l wide
  obtain ⟨a, op⟩ := l
  have hnone : ∀ {m : Text}, (StackLine.insn wide ⟨a, op⟩).mnem = m → m ≠ "mov".toList →
      (StackLine.insn wide ⟨a, op⟩).reload = none := by
    rintro m rfl hm
    rw [Insn.reload, beq_eq_false_iff_ne.mpr hm]
    rfl
  rcases op with src | dst | ⟨- | -, c⟩ | ⟨target, symbol⟩ | ⟨slot, src⟩ | ⟨dst, slot⟩ | text
  case spill =>
    obtain ⟨-, hops, -⟩ := spill_fields wide a slot src
    rw [Insn.reload, hmnem, hops]
    exact reloadOf_slot wide slot _
  case reload =>
    obtain ⟨-, hops, -⟩ := reload_fields wide a dst slot
    rw [Insn.reload, hmnem, hops]
    exact reloadOf_reload wide dst slot
  case other => exact reload_eq_none (x := ⟨0, text⟩) h.1
  all_goals
    rw [StackOp.mnem] at hmnem
    exact hnone hmnem (by decide)

theorem line_direct : isDispatchCall (l.insn wide) = false := by
  have hmnem := mnem_line l wide
  obtain ⟨a, op⟩ := l
  have hno : ∀ {m : Text}, (StackLine.insn wide ⟨a, op⟩).mnem = m → m ≠ "call".toList →
      isDispatchCall (StackLine.insn wide ⟨a, op⟩) = false := by
    rintro m rfl hm
    rw [isDispatchCall, beq_eq_false_iff_ne.mpr hm, Bool.false_and]
  rcases op with src | dst | ⟨- | -, c⟩ | ⟨target, symbol⟩ | ⟨slot, src⟩ | ⟨dst, slot⟩ | text
  case callNext => exact (callNext_fields wide a target symbol).2.2
  case other =>
    refine hno hmnem fun hm => h.2.1 ?_
    rw [show Insn.mnem ⟨0, text⟩ = "call".toList from hm]
    decide
  all_goals
    rw [StackOp.mnem] at hmnem
    exact hno hmnem (by decide)

/-- A `pop` has an operand. -/
theorem pop_line (hpop : (l.insn wide).mnem = "pop".toList) :
    ∃ p, (l.insn wide).parts.head? = some p := by
  rw [mnem_line] at hpop
  obtain ⟨a, op⟩ := l
  rcases op with src | dst | ⟨- | -, c⟩ | ⟨target, symbol⟩ | ⟨slot, src⟩ | ⟨dst, slot⟩ | text
  case pop => exact ⟨dst.text, by rw [(pop_fields wide a dst).2.2, List.head?_cons]⟩
  case other =>
    refine absurd ?_ h.2.1
    rw [show Insn.mnem ⟨0, text⟩ = "pop".toList from hpop]
    decide
  all_goals
    rw [StackOp.mnem] at hpop
    exact absurd hpop (by decide)

/-- No line makes `live` say that a constant is a load. -/
theorem constant_line (n : ℕ) (hdef : (l.insn wide).defines = some (hexText n)) :
    (l.insn wide).reload = none ∧ plainMoves.contains (l.insn wide).mnem = false := by
  have hmnem := mnem_line l wide
  have hreload := reload_line h wide
  obtain ⟨a, op⟩ := l
  rcases op with src | dst | ⟨- | -, c⟩ | ⟨target, symbol⟩ | ⟨slot, src⟩ | ⟨dst, slot⟩ | text
  case spill =>
    obtain ⟨-, hops, -⟩ := spill_fields wide a slot src
    rw [Insn.defines, hops, firstOperand_slot, Option.map_none, ite_self] at hdef
    exact absurd hdef (by simp)
  case reload =>
    have hhead : ∀ g : Gpr, g.common.head? ≠ some '0' := by decide
    rw [reload_defines] at hdef
    exact absurd (congrArg List.head? (Option.some.inj hdef)) (hhead dst.reg)
  case other => exact ⟨hreload, h.2.2 n hdef⟩
  all_goals
    refine ⟨hreload, ?_⟩
    rw [hmnem, StackOp.mnem]
    decide

end Line

end OMB
