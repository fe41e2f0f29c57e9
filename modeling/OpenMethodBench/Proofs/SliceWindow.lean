import OpenMethodBench.Proofs.SliceRendering

/-! The slice of a rendered window, in terms of its machine registers: `bookkeeping`
returns what does not reach the call as far as the names `REG` matches tell. -/

namespace OMB

open DefUse

/-! ## One instruction -/

theorem mentions_join₂ (o p : Operand) :
    Mentions (Text.join ',' [o.text, p.text]) (o.names ++ p.names) := by
  rw [Text.join_cons_cons, Text.join_singleton]
  exact (mentions_operand o).append (mentions_operand p) (by decide)

theorem dst_name_reg (d : Dst) : isReg d.name.text = true ∧ canon d.name.text = d.reg.common := by
  have hfull : ∀ g : Gpr, isReg (RegName.full g).text = true ∧
      canon (RegName.full g).text = g.common := by decide
  have hhalf : ∀ g : Gpr, isReg (RegName.half g).text = true ∧
      canon (RegName.half g).text = g.common := by decide
  obtain ⟨g, - | -⟩ := d
  · exact hhalf g
  · exact hfull g

/-- A mnemonic that does not read its first operand. -/
def Writes (m : Text) : Prop := m ≠ [] ∧ (∀ c ∈ m, isLow c = true) ∧ m ∉ readsFirst

theorem Mnem.writes (m : Mnem) : Writes m.text :=
  ⟨m.nonempty, m.low, fun h => m.computes (List.mem_append_left _ h)⟩

theorem Mnem.not_plain (m : Mnem) : m.text ∉ plainMoves :=
  fun h => m.computes (List.mem_append_right _ h)

theorem Move.writes (m : Move) : Writes m.text ∧ m.text ∈ plainMoves := by
  cases m <;> exact ⟨⟨by decide, by decide, by decide⟩, by decide⟩

theorem lea_writes : Writes "lea".toList ∧ "lea".toList ∈ plainMoves :=
  ⟨⟨by decide, by decide, by decide⟩, by decide⟩

theorem mov_writes : Writes "mov".toList := ⟨by decide, by decide, by decide⟩

/-- The mnemonics of a compare. -/
theorem compare_mnem : ∀ test : Bool,
    let m := if test then "test".toList else "cmp".toList
    (m = "cmp".toList ∨ m = "test".toList) ∧ m ≠ [] ∧ (∀ c ∈ m, isLow c = true) ∧
      m ≠ "call".toList := by
  decide

section Fields

variable {m : Text} (addr : ℕ)

/-- What writes a register by its name: a plain move reads its sources, any other form
the register too. -/
theorem seen_define (hm : Writes m) (d : Dst) (s : Text) (os : List Text)
    (hs : ∀ o ∈ s :: os, Piece o) :
    (Insn.mk addr (m ++ ' ' :: Text.join ',' (d.name.text :: s :: os))).seen =
      .define d.reg.common
        (if m ∈ plainMoves then regsOf (Text.join ',' (s :: os))
          else d.reg.common :: regsOf (Text.join ',' (s :: os))) := by
  obtain ⟨hne, hlow, hreads⟩ := hm
  have hfields : ∀ o ∈ d.name.text :: s :: os, Piece o := by
    intro o ho
    rcases List.mem_cons.mp ho with rfl | ho
    · exact piece_name _
    · exact hs o ho
  obtain ⟨hmnem, hops, hparts⟩ := insn_fields hne hlow hfields addr
  generalize Insn.mk addr (m ++ ' ' :: Text.join ',' (d.name.text :: s :: os)) = x at *
  have hdst : x.dst = some d.reg.common := by
    obtain ⟨hreg, hcanon⟩ := dst_name_reg d
    rw [Insn.dst, hparts, hmnem]
    simp [hreg, hcanon, hreads]
  have hkept : x.alwaysKept = false := by
    have hstores : x.stores = false := by
      rw [Insn.stores, hops, Text.join_cons_cons]
      exact storesTo_word (name_low _) _
    have hpush : m ≠ "push".toList := fun h => hreads (h ▸ by decide)
    have hcall : m ≠ "call".toList := fun h => hreads (h ▸ by decide)
    rw [Insn.alwaysKept, hstores, hmnem, Bool.false_or, Bool.or_eq_false_iff]
    exact ⟨beq_eq_false_iff_ne.mpr hpush, beq_eq_false_iff_ne.mpr hcall⟩
  have hreads' : x.reads = regsOf (Text.join ',' (s :: os)) := by
    rw [Insn.reads, hdst, hparts, List.tail_cons]
  rw [Insn.seen, hkept, hdst, hmnem, hreads']
  simp

/-- What is written `X PTR […],src` is kept, and reads all it mentions. -/
theorem seen_keep (hne : m ≠ []) (hlow : ∀ c ∈ m, isLow c = true) (z : Size) (a : Addr)
    (s : Operand) :
    (Insn.mk addr (m ++ ' ' :: Text.join ',' [(Operand.mem z (.at a)).text, s.text])).seen =
      .keep (regsOf (Text.join ',' [(Operand.mem z (.at a)).text, s.text])) := by
  have hfields : ∀ o ∈ [(Operand.mem z (.at a)).text, s.text], Piece o := by
    simp [piece_operand]
  obtain ⟨-, hops, -⟩ := insn_fields hne hlow hfields addr
  generalize Insn.mk addr (m ++ ' ' :: Text.join ',' [(Operand.mem z (.at a)).text, s.text])
    = x at *
  have hstores : x.stores = true := by
    rw [Insn.stores, hops, Text.join_cons_cons]
    exact storesTo_at z a _
  rw [Insn.seen, if_pos (by simp [Insn.alwaysKept, hstores]), Insn.reads,
    dst_none_of_stores x hstores, hops]

/-- A compare that does not start with a place in brackets is never wanted. -/
theorem seen_skip (hm : m = "cmp".toList ∨ m = "test".toList) {l : Operand} (r : Operand)
    (hl : ∀ t, storesTo (l.text ++ ',' :: t) = false) :
    (Insn.mk addr (m ++ ' ' :: Text.join ',' [l.text, r.text])).seen = .skip := by
  have hm' : m ≠ [] ∧ (∀ c ∈ m, isLow c = true) ∧ m ∈ readsFirst ∧ m ≠ "push".toList ∧
      m ≠ "call".toList := by
    rcases hm with rfl | rfl <;> decide
  obtain ⟨hne, hlow, hreads, hpush, hcall⟩ := hm'
  have hfields : ∀ o ∈ [l.text, r.text], Piece o := by simp [piece_operand]
  obtain ⟨hmnem, hops, -⟩ := insn_fields hne hlow hfields addr
  generalize Insn.mk addr (m ++ ' ' :: Text.join ',' [l.text, r.text]) = x at *
  have hkept : x.alwaysKept = false := by
    have hstores : x.stores = false := by
      rw [Insn.stores, hops, Text.join_cons_cons]
      exact hl _
    rw [Insn.alwaysKept, hstores, hmnem, Bool.false_or, Bool.or_eq_false_iff]
    exact ⟨beq_eq_false_iff_ne.mpr hpush, beq_eq_false_iff_ne.mpr hcall⟩
  have hdst : x.dst = none := dst_none_of_readsFirst x (by simpa [hmnem] using hreads)
  rw [Insn.seen, hkept, hdst]
  rfl

end Fields

/-- `bookkeeping` sees of an instruction what `Op.spotted` says. -/
theorem renames_seen (l : Line) : Renames Gpr.common l.op.spotted l.insn.seen := by
  obtain ⟨addr, next, op⟩ := l
  have hf := fun o => piece_operand o
  have hplace : ∀ a : Addr, Piece (Place.at a).text := fun a => piece_place _
  rcases op with ⟨m, d, s⟩ | ⟨d, a⟩ | ⟨m, d, s⟩ | ⟨m, d, s, t⟩ | ⟨z, a, s⟩ | ⟨m, z, a, s⟩ |
    ⟨test, l, r⟩
  · have h := seen_define addr m.writes.1 d s.text [] (by simp [hf])
    rw [if_pos m.writes.2, Text.join_singleton] at h
    exact h ▸ ⟨rfl, mentions_operand s⟩
  · have h := seen_define addr lea_writes.1 d (Place.at a).text [] (by simp [hplace])
    rw [if_pos lea_writes.2, Text.join_singleton] at h
    exact h ▸ ⟨rfl, mentions_place (.at a)⟩
  · have h := seen_define addr m.writes d s.text [] (by simp [hf])
    rw [if_neg m.not_plain, Text.join_singleton] at h
    refine h ▸ ⟨rfl, fun g => ?_⟩
    rw [List.mem_cons, List.mem_cons, common_injective.eq_iff, mentions_operand s g]
  · have h := seen_define addr m.writes d s.text [t.text] (by simp [hf])
    rw [if_neg m.not_plain] at h
    refine h ▸ ⟨rfl, fun g => ?_⟩
    rw [List.mem_cons, List.mem_cons, common_injective.eq_iff, mentions_join₂ s t g]
  · exact seen_keep addr mov_writes.1 mov_writes.2.1 z a s ▸ mentions_join₂ _ s
  · exact seen_keep addr m.nonempty m.low z a s ▸ mentions_join₂ _ s
  · obtain ⟨hm, hne, hlow, -⟩ := compare_mnem test
    rcases l with n | v | ⟨z, a | n⟩
    · exact seen_skip addr hm (l := .reg n) r
        (fun t => storesTo_word (name_low n) t) ▸ trivial
    · exact seen_skip addr hm (l := .imm v) r
        (fun t => storesTo_word hexText_low t) ▸ trivial
    · exact seen_keep addr hne hlow z a r ▸ mentions_join₂ _ r
    · exact seen_skip addr hm (l := .mem z (.abs n)) r
        (fun t => storesTo_abs z n t) ▸ trivial

/-! ## The window -/

theorem firstWord_of_afterMnem {name : String} {t r : Text} (hne : name.toList ≠ [])
    (hname : ∀ c ∈ name.toList, Text.isSpace c = false) (h : afterMnem name t = some r) :
    Text.firstWord t = name.toList := by
  simp only [afterMnem] at h
  split_ifs at h with hc
  rw [Bool.and_eq_true, beq_iff_eq, Bool.not_eq_true', List.isEmpty_eq_false_iff] at hc
  obtain ⟨htake, hspace⟩ := hc
  rw [← List.take_append_drop name.toList.length t, htake]
  refine Text.firstWord_append hne hname fun c hc => ?_
  rcases hd : t.drop name.toList.length with - | ⟨d, ds⟩
  · rw [hd] at hc
    simp at hc
  · rw [hd] at hc hspace
    obtain rfl := Option.some.inj hc
    by_contra hs
    exact hspace (by rw [List.takeWhile_cons_of_neg hs])

theorem afterMnem_append (name : String) {t : Text} (ht : ∀ c ∈ t.head?, Text.isSpace c = false) :
    afterMnem name (name.toList ++ ' ' :: t) = some t := by
  have hspace : Text.isSpace ' ' = true := by decide
  have hlstrip : t.dropWhile Text.isSpace = t := Text.lstrip_of_head ht
  simp only [afterMnem]
  rw [List.take_left, List.drop_left, List.takeWhile_cons_of_pos hspace,
    List.dropWhile_cons_of_pos hspace, hlstrip]
  simp

/-- Without a call before the last instruction there is no PIC idiom. -/
theorem picSetup_eq_nil {init : List Insn} (call : Insn)
    (h : ∀ x ∈ init, x.mnem ≠ "call".toList) : picSetup (init ++ [call]) = [] := by
  rw [picSetup, List.flatMap_eq_nil_iff]
  intro i hi
  rw [List.mem_range, List.length_append, List.length_singleton, Nat.add_sub_cancel] at hi
  have hnone : ∀ x ∈ init, directTarget x.text = none := by
    intro x hx
    rw [directTarget]
    rcases hc : afterMnem "call" x.text with - | r
    · rfl
    · exact absurd (firstWord_of_afterMnem (by decide) (by decide) hc) (h x hx)
  unfold picMarks
  rw [List.getElem?_append_left hi, List.getElem?_eq_getElem hi]
  split
  · rename_i a b ha _
    obtain rfl := Option.some.inj ha
    rw [hnone _ (List.getElem_mem hi)]
    simp
  · rfl

theorem Writes.ne_call {m : Text} (h : Writes m) : m ≠ "call".toList :=
  fun hcall => h.2.2 (hcall ▸ by decide)

theorem op_mnem (o : Op) :
    o.mnem ≠ [] ∧ (∀ c ∈ o.mnem, isLow c = true) ∧ o.mnem ≠ "call".toList := by
  rcases o with ⟨m, _, _⟩ | _ | ⟨m, _, _⟩ | ⟨m, _, _, _⟩ | _ | ⟨m, _, _, _⟩ | ⟨test, _, _⟩
  · exact ⟨m.writes.1.1, m.writes.1.2.1, m.writes.1.ne_call⟩
  · exact ⟨lea_writes.1.1, lea_writes.1.2.1, lea_writes.1.ne_call⟩
  · exact ⟨m.nonempty, m.low, m.writes.ne_call⟩
  · exact ⟨m.nonempty, m.low, m.writes.ne_call⟩
  · exact ⟨mov_writes.1, mov_writes.2.1, mov_writes.ne_call⟩
  · exact ⟨m.nonempty, m.low, m.writes.ne_call⟩
  · exact (compare_mnem test).2

theorem insn_mnem (l : Line) : l.insn.mnem = l.op.mnem := by
  obtain ⟨hne, hlow, -⟩ := op_mnem l.op
  exact Text.firstWord_append hne (fun c hc => not_space_of_low (hlow c hc))
    (by simp [Text.isSpace])

theorem window_picSetup (w : Window) : picSetup w.insns = [] := by
  refine picSetup_eq_nil _ fun x hx => ?_
  obtain ⟨l, -, rfl⟩ := List.mem_map.mp hx
  rw [insn_mnem]
  exact (op_mnem l.op).2.2

theorem target_names_spotted (t : Target) : ∀ n ∈ t.operand.names, n.spotted = true := by
  have hname : ∀ (g : Gpr) (wide : Bool), (Dst.mk g wide).name.spotted = true := by
    intro g wide
    cases wide <;> rfl
  rcases t with ⟨g, wide⟩ | ⟨z, d | ⟨wide, b, - | ⟨i, s⟩, d⟩ | ⟨wide, i, s, d⟩⟩ <;>
    simp [Target.operand, Operand.names, Place.names, Addr.names, hname]

/-- The roots of the slice are what the call reads. -/
theorem mentions_target (w : Window) (g : Gpr) :
    g.common ∈ callRoots ⟨w.addr, w.target.text⟩ ↔ g ∈ w.roots := by
  have hcall : regsOf "call".toList = [] := by decide
  have htext : w.target.text = "call".toList ++ ' ' :: w.target.operand.text := rfl
  rw [callRoots, htext, regsOf_append (by decide), hcall, List.nil_append,
    mentions_operand w.target.operand g, regsSpotted,
    List.filter_eq_self.mpr (target_names_spotted w.target)]
  rfl

/-- `bookkeeping` returns the instructions that, by the names `REG` matches, reach
neither the call nor memory. -/
theorem window_bookkeeping (w : Window) (word i : ℕ) :
    i ∈ bookkeeping w.insns word ↔
      i < w.lines.length ∧ ¬ Reaches w.roots w.spotted i := by
  rw [Window.insns, mem_bookkeeping_iff (window_picSetup w), List.length_map]
  have hseen : List.Forall₂ (Renames Gpr.common) w.spotted
      ((w.lines.map Line.insn).map Insn.seen) := by
    rw [Window.spotted, List.map_map, List.forall₂_map_left_iff, List.forall₂_map_right_iff]
    exact List.forall₂_same.mpr fun l _ => renames_seen l
  rw [reaches_rename common_injective hseen (mentions_target w)]

end OMB
