import OpenMethodBench.Spec.Arguments
import OpenMethodBench.Proofs.SliceSoundness

/-! What the slice does to the call's arguments. Its roots are the registers spelled in
the call, so an argument survives only when the instruction that sets it up is kept for
some other reason; and of a push it keeps the instruction but not what moved `rsp` before. -/

namespace OMB

open DefUse

/-! ## One instruction -/

theorem Unary.writes (u : Unary) : Writes u.text ∧ u.text ∉ plainMoves := by
  cases u <;> exact ⟨⟨by decide, by decide, by decide⟩, by decide⟩

section Fields

variable {m : Text} (addr : ℕ)

/-- One operand, a register: it is read as well. -/
theorem seen_unary (hm : Writes m) (hplain : m ∉ plainMoves) (d : Dst) :
    (Insn.mk addr (m ++ ' ' :: d.name.text)).seen = .define d.reg.common [d.reg.common] := by
  obtain ⟨hne, hlow, hreads⟩ := hm
  have hpiece : ∀ p ∈ [d.name.text], Piece p := by simp [piece_name]
  obtain ⟨hmnem, hops, hparts⟩ := insn_fields hne hlow hpiece addr
  rw [Text.join_singleton] at hmnem hops hparts
  generalize Insn.mk addr (m ++ ' ' :: d.name.text) = x at *
  have hdst : x.dst = some d.reg.common := by
    obtain ⟨hreg, hcanon⟩ := dst_name_reg d
    rw [Insn.dst, hparts, hmnem]
    simp [hreg, hcanon, hreads]
  have hkept : x.alwaysKept = false := by
    by_contra h
    rw [dst_none_of_alwaysKept x (by simpa using h)] at hdst
    exact absurd hdst (by simp)
  have hnone : x.reads = [] := by
    rw [Insn.reads, hdst, hparts]
    rfl
  rw [Insn.seen, hkept, hdst, hmnem, hnone]
  simp [hplain]

theorem comma_of_storesTo {ops : Text} (h : storesTo ops = true) : ',' ∈ ops := by
  simp only [storesTo, Bool.and_eq_true, beq_iff_eq] at h
  have hclose := h.2
  have hmem : ',' ∈ (((ops.dropWhile isWordChar).drop 6).dropWhile (· != ']')).take 2 := by
    rw [hclose]
    decide
  exact (List.dropWhile_sublist _).subset (List.drop_subset _ _
    ((List.dropWhile_sublist _).subset (List.take_subset _ _ hmem)))

/-- A place in memory written otherwise than as `X PTR […],` is not seen. -/
theorem seen_hidden (hm : Writes m) (z : Size) (p : Place) {os : List Text}
    (hos : ∀ o ∈ os, Piece o)
    (hstores : storesTo (Text.join ',' ((Operand.mem z p).text :: os)) = false) :
    (Insn.mk addr (m ++ ' ' :: Text.join ',' ((Operand.mem z p).text :: os))).seen = .skip := by
  obtain ⟨hne, hlow, hreads⟩ := hm
  have hfields : ∀ o ∈ (Operand.mem z p).text :: os, Piece o := by
    simpa [piece_operand] using hos
  obtain ⟨hmnem, hops, hparts⟩ := insn_fields hne hlow hfields addr
  generalize Insn.mk addr (m ++ ' ' :: Text.join ',' ((Operand.mem z p).text :: os)) = x at *
  have hkept : x.alwaysKept = false := by
    have hpush : m ≠ "push".toList := fun h => hreads (h ▸ by decide)
    have hcall : m ≠ "call".toList := fun h => hreads (h ▸ by decide)
    rw [Insn.alwaysKept, Insn.stores, hops, hstores, hmnem, Bool.false_or, Bool.or_eq_false_iff]
    exact ⟨beq_eq_false_iff_ne.mpr hpush, beq_eq_false_iff_ne.mpr hcall⟩
  have hreg : isReg (Operand.mem z p).text = false := by
    have hblank : ' ' ∈ (Operand.mem z p).text := by simp [Operand.text]
    by_contra h
    exact absurd (isReg_low (by simpa using h) ' ' hblank) (by decide)
  have hdst : x.dst = none := by
    rw [Insn.dst, hparts]
    simp [hreg]
  rw [Insn.seen, hkept, hdst]
  rfl

theorem seen_push (o : Operand) :
    (Insn.mk addr ("push".toList ++ ' ' :: o.text)).seen = .keep (regsOf o.text) := by
  have hne : "push".toList ≠ [] := by decide
  have hlow : ∀ c ∈ "push".toList, isLow c = true := by decide
  have hpiece : ∀ p ∈ [o.text], Piece p := by simp [piece_operand]
  obtain ⟨hmnem, hops, -⟩ := insn_fields hne hlow hpiece addr
  rw [Text.join_singleton] at hmnem hops
  generalize Insn.mk addr ("push".toList ++ ' ' :: o.text) = x at *
  have hkept : x.alwaysKept = true := by simp [Insn.alwaysKept, hmnem]
  rw [Insn.seen, if_pos hkept, Insn.reads, dst_none_of_alwaysKept x hkept, hops]

end Fields

/-- `bookkeeping` sees of an instruction what `FullOp.spotted` says. -/
theorem renames_full (l : FullLine) : Renames Gpr.common l.op.spotted l.insn.seen := by
  obtain ⟨addr, next, o | ⟨u, d⟩ | ⟨u, z, p⟩ | ⟨z, n, s⟩ | s⟩ := l
  · exact renames_seen ⟨addr, next, o⟩
  · refine seen_unary addr u.writes.1 u.writes.2 d ▸ ⟨rfl, fun g => ?_⟩
    simp [common_injective.eq_iff]
  · have hstores : storesTo (Text.join ',' [(Operand.mem z p).text]) = false := by
      rw [Text.join_singleton]
      by_contra h
      exact (piece_operand (.mem z p)).no_comma (comma_of_storesTo (by simpa using h))
    have hnil : ∀ o ∈ ([] : List Text), Piece o := by simp
    have hseen := seen_hidden addr u.writes.1 z p hnil hstores
    rw [Text.join_singleton] at hseen
    exact hseen ▸ trivial
  · have hstores : storesTo (Text.join ',' [(Operand.mem z (.abs n)).text, s.text]) = false := by
      rw [Text.join_cons_cons]
      exact storesTo_abs z n _
    exact seen_hidden addr mov_writes z (.abs n) (by simp [piece_operand]) hstores ▸ trivial
  · exact seen_push addr s ▸ mentions_operand s

/-! ## The window -/

theorem full_mnem_ne_call (l : FullLine) : l.insn.mnem ≠ "call".toList := by
  have hword : ∀ {m t : Text}, m ≠ [] → (∀ c ∈ m, isLow c = true) →
      (Insn.mk l.addr (m ++ ' ' :: t)).mnem = m := fun hne hlow =>
    Text.firstWord_append hne (fun c hc => not_space_of_low (hlow c hc)) (by simp [Text.isSpace])
  obtain ⟨addr, next, o | ⟨u, d⟩ | ⟨u, z, p⟩ | ⟨z, n, s⟩ | s⟩ := l
  · have hmnem := insn_mnem ⟨addr, next, o⟩
    exact fun h => (op_mnem o).2.2 (hmnem.symm.trans h)
  · exact fun h => u.writes.1.ne_call ((hword u.writes.1.1 u.writes.1.2.1).symm.trans h)
  · exact fun h => u.writes.1.ne_call ((hword u.writes.1.1 u.writes.1.2.1).symm.trans h)
  · exact fun h => mov_writes.ne_call ((hword mov_writes.1 mov_writes.2.1).symm.trans h)
  · have hpush : ("push".toList : Text) ≠ "call".toList := by decide
    exact fun h => hpush ((hword (by decide) (by decide)).symm.trans h)

/-- `bookkeeping` returns the instructions that, by the names `REG` matches, reach neither the
call nor a store or push. -/
theorem full_bookkeeping (w : FullWindow) (word i : ℕ) :
    i ∈ bookkeeping w.insns word ↔ i < w.lines.length ∧ ¬ DefUse.Reaches w.roots w.spotted i := by
  have hpic : picSetup w.insns = [] := by
    refine picSetup_eq_nil _ fun x hx => ?_
    obtain ⟨l, -, rfl⟩ := List.mem_map.mp hx
    exact full_mnem_ne_call l
  rw [FullWindow.insns, mem_bookkeeping_iff hpic, List.length_map]
  have hseen : List.Forall₂ (Renames Gpr.common) w.spotted
      ((w.lines.map FullLine.insn).map Insn.seen) := by
    rw [FullWindow.spotted, List.map_map, List.forall₂_map_left_iff, List.forall₂_map_right_iff]
    exact List.forall₂_same.mpr fun l _ => renames_full l
  rw [reaches_rename common_injective hseen (mentions_target ⟨[], w.addr, w.next, w.target⟩)]
  rfl

/-! ## Execution -/

section Values

variable {s t : Machine}

theorem operand_value_same {o : Operand} (next : ℕ) (h : ∀ r ∈ o.places, Places.Same s t r) :
    o.value next s = o.value next t := by
  rcases o with n | v | ⟨z, a | n⟩
  · exact name_value_congr (h (some n.reg) List.mem_cons_self)
  · rfl
  · have hmem : s.mem = t.mem := h none List.mem_cons_self
    have hregs : ∀ g ∈ regsNamed a.names, s.regs g = t.regs g := fun g hg =>
      h (some g) (List.mem_cons_of_mem _ (List.mem_map_of_mem hg))
    simp only [Operand.value, Place.value]
    rw [hmem, addr_value_congr next hregs]
  · have hmem : s.mem = t.mem := h none List.mem_cons_self
    simp only [Operand.value, Place.value]
    rw [hmem]

theorem operand_arg_same {o : Operand} (next : ℕ) (h : ∀ r ∈ o.places, Places.Same s t r) :
    o.arg next s = o.arg next t := by
  rw [Operand.arg, Operand.arg, operand_value_same next h]

theorem addr_value_same {a : Addr} (next : ℕ)
    (h : ∀ r ∈ (regsNamed a.names).map some, Places.Same s t r) :
    a.value next s.regs = a.value next t.regs :=
  addr_value_congr next fun g hg => h (some g) (List.mem_map_of_mem hg)

end Values

/-- A write of a register, computed from the places `us`. -/
theorem performs_write (d : Dst) {us : List (Option Gpr)} {v : Machine → BitVec 64}
    (hv : ∀ s t : Machine, (∀ r ∈ us, Places.Same s t r) → v s = v t) :
    Places.Performs (fun s => d.write (v s) s) [(some d.reg, us)] where
  frame s r hr := by
    rcases r with - | r
    · rfl
    · have hne : r ≠ d.reg := fun h => hr _ List.mem_cons_self (congrArg some h.symm)
      exact if_neg hne
  write e he s t h := by
    obtain rfl := List.mem_singleton.mp he
    simp only [Places.Same, Dst.write, if_true]
    rw [hv s t h]

/-- A write of memory, computed from the places `us` and from what memory held. -/
theorem performs_store (z : Size) {us : List (Option Gpr)} {a v : Machine → BitVec 64}
    (h : ∀ s t : Machine, (∀ r ∈ none :: us, Places.Same s t r) → a s = a t ∧ v s = v t) :
    Places.Performs (fun s : Machine => { s with mem := s.mem.store z (a s) (v s) })
      [(none, none :: us)] where
  frame s r hr := by
    rcases r with - | r
    · exact absurd rfl (hr _ List.mem_cons_self)
    · rfl
  write e he s t hst := by
    obtain rfl := List.mem_singleton.mp he
    have hmem : s.mem = t.mem := hst none List.mem_cons_self
    simp only [Places.Same]
    rw [hmem, (h s t hst).1, (h s t hst).2]

theorem name_arg_same {d : Dst} {s t : Machine} (next : ℕ) (h : Places.Same s t (some d.reg)) :
    (Operand.reg d.name).arg next s = (Operand.reg d.name).arg next t := by
  refine operand_arg_same next fun r hr => ?_
  obtain rfl := List.mem_singleton.mp hr
  obtain ⟨g, - | -⟩ := d
  · exact h
  · exact h

theorem performs_plain (F : Arith) (addr next : ℕ) (o : Op) :
    Places.Performs (Line.step F ⟨addr, next, o⟩) o.writes := by
  rcases o with ⟨m, d, o⟩ | ⟨d, a⟩ | ⟨m, d, o⟩ | ⟨m, d, o, p⟩ | ⟨z, a, o⟩ | ⟨m, z, a, o⟩ |
    ⟨test, o, p⟩
  · have hvalue := fun s t (h : ∀ r ∈ o.places, Places.Same s t r) =>
      operand_value_same (s := s) (t := t) next h
    cases m with
    | mov => exact performs_write d hvalue
    | movzx => exact performs_write d hvalue
    | movsx => exact performs_write d fun s t h => congrArg o.size.extend (hvalue s t h)
  · exact performs_write d fun s t h => addr_value_same next h
  · refine performs_write d fun s t h => ?_
    rw [name_arg_same next (h _ List.mem_cons_self),
      operand_arg_same next fun r hr => h r (List.mem_cons_of_mem _ hr)]
  · refine performs_write d fun s t h => ?_
    rw [operand_arg_same next fun r hr => h r (List.mem_append_left _ hr),
      operand_arg_same next fun r hr => h r (List.mem_append_right _ hr)]
  · refine performs_store z fun s t h => ⟨?_, ?_⟩
    · exact addr_value_same next fun r hr =>
        h r (List.mem_cons_of_mem _ (List.mem_append_left _ hr))
    · exact operand_value_same next fun r hr =>
        h r (List.mem_cons_of_mem _ (List.mem_append_right _ hr))
  · refine performs_store z fun s t h => ?_
    have haddr : ∀ r ∈ (regsNamed a.names).map some, Places.Same s t r := fun r hr =>
      h r (List.mem_cons_of_mem _ (List.mem_append_left _ hr))
    have hmem : (Operand.mem z (.at a)).arg next s = (Operand.mem z (.at a)).arg next t := by
      refine operand_arg_same next fun r hr => ?_
      rcases List.mem_cons.mp hr with rfl | hr
      · exact h none List.mem_cons_self
      · exact haddr r hr
    rw [hmem, operand_arg_same next fun r hr =>
      h r (List.mem_cons_of_mem _ (List.mem_append_right _ hr))]
    exact ⟨addr_value_same next haddr, rfl⟩
  · exact ⟨fun s r _ => Places.Same.refl s r, fun e he => absurd he List.not_mem_nil⟩

theorem performs_push (next : ℕ) (src : Operand) :
    Places.Performs (fun s : Machine =>
      ⟨fun g => if g = rsp then s.regs rsp - 8 else s.regs g,
        s.mem.store .qword (s.regs rsp - 8) (src.value next s)⟩)
      (FullOp.push src).writes where
  frame s r hr := by
    rcases r with - | r
    · exact absurd rfl (hr _ List.mem_cons_self)
    · have hne : r ≠ rsp := fun h =>
        hr _ (List.mem_cons_of_mem _ List.mem_cons_self) (congrArg some h.symm)
      exact if_neg hne
  write e he s t h := by
    rw [FullOp.writes, List.mem_cons, List.mem_singleton] at he
    rcases he with rfl | rfl
    · have hmem : s.mem = t.mem := h none List.mem_cons_self
      have hsp : s.regs rsp = t.regs rsp :=
        h (some rsp) (List.mem_cons_of_mem _ List.mem_cons_self)
      simp only [Places.Same]
      rw [hmem, hsp, operand_value_same next fun r hr =>
        h r (List.mem_cons_of_mem _ (List.mem_cons_of_mem _ hr))]
    · have hsp : s.regs rsp = t.regs rsp :=
        h (some rsp) List.mem_cons_self
      simp only [Places.Same, if_true]
      rw [hsp]

/-- Instructions do what `writes` says of them. -/
theorem performs_step (F : Arith) (l : FullLine) : Places.Performs (l.step F) l.op.writes := by
  obtain ⟨addr, next, o | ⟨u, d⟩ | ⟨u, z, p⟩ | ⟨z, n, src⟩ | src⟩ := l
  · exact performs_plain F addr next o
  · refine performs_write d fun s t h => ?_
    rw [name_arg_same next (h _ List.mem_cons_self)]
  · refine performs_store z fun s t h => ?_
    have harg : (Operand.mem z p).arg next s = (Operand.mem z p).arg next t :=
      operand_arg_same next h
    rw [harg]
    rcases p with a | n
    · exact ⟨addr_value_same next fun r hr => h r (List.mem_cons_of_mem _ hr), rfl⟩
    · exact ⟨rfl, rfl⟩
  · exact performs_store z fun s t h =>
      ⟨rfl, operand_value_same next fun r hr => h r (List.mem_cons_of_mem _ hr)⟩
  · exact performs_push next src

/-! ## The two views -/

theorem mem_places {o : Operand} {g : Gpr} (h : some g ∈ o.places) : g ∈ regsNamed o.names := by
  rcases o with n | v | ⟨z, p⟩
  · simpa [Operand.places, Operand.names, regsNamed] using h
  · exact absurd h List.not_mem_nil
  · exact (by simpa [Operand.places] using h : g ∈ regsNamed p.names)

theorem mem_places_append {ns ms : List RegName} {g : Gpr}
    (h : g ∈ regsNamed ns ∨ g ∈ regsNamed ms) : g ∈ regsNamed (ns ++ ms) := by
  rw [regsNamed_append]
  exact List.mem_append.mpr h

/-- What an address and an operand are computed from. -/
theorem mem_store_places {a : Addr} {o : Operand} {g : Gpr}
    (h : some g ∈ none :: ((regsNamed a.names).map some ++ o.places)) :
    g ∈ regsNamed (a.names ++ o.names) := by
  rcases List.mem_append.mp (List.mem_of_ne_of_mem (by simp) h) with h | h
  · exact mem_places_append (Or.inl (by simpa using h))
  · exact mem_places_append (Or.inr (mem_places h))

theorem mem_spotted {ns : List RegName} (h : ∀ n ∈ ns, n.spotted = true) {g : Gpr}
    (hg : g ∈ regsNamed ns) : g ∈ regsSpotted ns := by
  rwa [regsSpotted, List.filter_eq_self.mpr h]

/-- Where every register is read by a name `REG` matches, `bookkeeping` misses of an instruction
only how a push moves `rsp`, and the writes of memory it does not recognise. -/
theorem views_spotted {o : FullOp} (h : ∀ n ∈ o.names, n.spotted = true) :
    Places.Views rsp o.writes o.spotted := by
  rcases o with (⟨m, d, o⟩ | ⟨d, a⟩ | ⟨m, d, o⟩ | ⟨m, d, o, p⟩ | ⟨z, a, o⟩ | ⟨m, z, a, o⟩ |
    ⟨test, o, p⟩) | ⟨u, d⟩ | ⟨u, z, p⟩ | ⟨z, n, o⟩ | o
  · exact .define fun g hg => mem_spotted h (mem_places hg)
  · refine .define fun g hg => mem_spotted h ?_
    exact (by simpa using hg : g ∈ regsNamed a.names)
  · refine .define fun g hg => ?_
    rcases List.mem_cons.mp hg with hg | hg
    · exact Option.some.inj hg ▸ List.mem_cons_self
    · exact List.mem_cons_of_mem _ (mem_spotted h (mem_places hg))
  · refine .define fun g hg => List.mem_cons_of_mem _ (mem_spotted h ?_)
    exact mem_places_append ((List.mem_append.mp hg).imp mem_places mem_places)
  · exact .store List.mem_cons_self fun g hg => mem_spotted h (mem_store_places hg)
  · exact .store List.mem_cons_self fun g hg => mem_spotted h (mem_store_places hg)
  · refine .idle ?_
    rcases o with n | v | ⟨z, a | n⟩ <;> rfl
  · exact .define fun g hg => by simpa using hg
  · exact .hidden List.mem_cons_self
  · exact .hidden List.mem_cons_self
  · refine .push List.mem_cons_self (List.mem_cons_of_mem _ List.mem_cons_self) fun g hg => ?_
    rcases List.mem_cons.mp (List.mem_of_ne_of_mem (by simp) hg) with hg | hg
    · exact Or.inl (Option.some.inj hg)
    · exact Or.inr (mem_spotted h (mem_places hg))

/-! ## The arguments -/

/-- The integer argument registers of the calling convention, in order: rdi, rsi, rdx,
rcx, r8, r9. -/
def argRegs : List Gpr :=
  [.pointer .di, .pointer .si, .quad .d, .quad .c, .ext 0, .ext 1]

/-- Something the instruction at `i` writes reaches an argument register. -/
def FullWindow.ReachesArgument (w : FullWindow) (i : ℕ) : Prop := Places.Reaches argRegs w.writes i

/-- Every argument register ends the slice as it ends the window, and nothing that
reaches one of them is dropped. -/
def ArgumentsPreserved (w : FullWindow) (word : ℕ) : Prop :=
  (∀ F s, ∀ g ∈ argRegs, (w.sliced F word s).regs g = (w.whole F s).regs g) ∧
    ∀ i, w.ReachesArgument i → i ∉ bookkeeping w.insns word

/-- An instruction after position `k` loads from memory what reaches an argument register. -/
def FullWindow.LoadsArgumentAfter (w : FullWindow) (k : ℕ) : Prop :=
  ∃ j d us, k < j ∧ w.writes[j]? = some [(some d, us)] ∧ none ∈ us ∧ w.ReachesArgument j

/-- The last write of each argument register reaches the call's target, a store or a push; so
does, before a push behind which an argument is loaded, the last write of `rsp` that is no push;
and no argument is loaded behind a write of memory that is neither push nor `X PTR […],`. -/
structure ArgumentsReachCall (w : FullWindow) : Prop where
  args : ∀ g ∈ argRegs, ∀ i, Places.SetBefore w.writes g w.lines.length i →
    DefUse.Reaches w.roots w.spotted i
  pushes : ∀ k l, w.lines[k]? = some l → l.op.isPush = true → w.LoadsArgumentAfter k →
    ∀ i, Places.SetBefore w.writes rsp k i → DefUse.Reaches w.roots w.spotted i
  hidden : ∀ k l, w.lines[k]? = some l → l.op.isHidden = true → ¬w.LoadsArgumentAfter k

theorem argumentsPreserved_iff_kept (w : FullWindow) (word : ℕ) :
    ArgumentsPreserved w word ↔ ∀ i, w.ReachesArgument i → DefUse.Reaches w.roots w.spotted i := by
  refine ⟨fun h i hi => ?_, fun h => ?_⟩
  · have hlt : i < w.lines.length := by simpa [FullWindow.writes] using Places.Reaches.lt_length hi
    by_contra hdead
    exact h.2 i hi ((full_bookkeeping w word i).mpr ⟨hlt, hdead⟩)
  · have hkept : ∀ i, w.ReachesArgument i → i ∉ bookkeeping w.insns word :=
      fun i hi hdrop => ((full_bookkeeping w word i).mp hdrop).2 (h i hi)
    refine ⟨fun F s g hg => ?_, hkept⟩
    have hsteps : List.Forall₂ (fun x f => Places.Performs f x) w.writes
        (w.lines.map (FullLine.step F)) := by
      rw [FullWindow.writes, List.forall₂_map_left_iff, List.forall₂_map_right_iff]
      exact List.forall₂_same.mpr fun l _ => performs_step F l
    exact (Places.same_run hsteps _ (fun i hi => by simpa using hkept i hi)
      (fun r _ => Places.Same.refl s r) g hg).symm

section Window

variable {w : FullWindow} (hnames : ∀ l ∈ w.lines, ∀ n ∈ l.op.names, n.spotted = true)

include hnames

theorem window_views : List.Forall₂ (Places.Views rsp) w.writes w.spotted := by
  rw [FullWindow.writes, FullWindow.spotted, List.forall₂_map_left_iff, List.forall₂_map_right_iff]
  exact List.forall₂_same.mpr fun l hl => views_spotted (hnames l hl)

/-- Memory is read behind a position where an argument is loaded. -/
theorem live_memory_iff (k : ℕ) :
    none ∈ Places.live argRegs (w.writes.drop (k + 1)) ↔ w.LoadsArgumentAfter k := by
  have hshift : ∀ j, Places.Reaches argRegs (w.writes.drop (k + 1)) j ↔
      w.ReachesArgument (k + 1 + j) := by
    intro j
    rw [FullWindow.ReachesArgument, Places.Reaches, Places.Reaches, List.getElem?_drop,
      List.drop_drop, ← Nat.add_assoc (k + 1) j 1]
  rw [Places.mem_live_memory_iff (List.forall₂_drop (k + 1) (window_views hnames))]
  constructor
  · rintro ⟨j, d, us, hj, hus, hreach⟩
    rw [List.getElem?_drop] at hj
    exact ⟨k + 1 + j, d, us, by omega, hj, hus, (hshift j).mp hreach⟩
  · rintro ⟨j, d, us, hkj, hj, hus, hreach⟩
    obtain ⟨j, rfl⟩ : ∃ m, j = k + 1 + m := ⟨j - (k + 1), by omega⟩
    exact ⟨j, d, us, by rwa [List.getElem?_drop], hus, (hshift j).mpr hreach⟩

omit hnames in
theorem push_iff {o : FullOp} : o.isPush = true ↔
    ∃ us, o.writes = [(none, us), (some rsp, [some rsp])] := by
  rcases o with (⟨m, d, o⟩ | ⟨d, a⟩ | ⟨m, d, o⟩ | ⟨m, d, o, p⟩ | ⟨z, a, o⟩ | ⟨m, z, a, o⟩ |
    ⟨test, o, p⟩) | ⟨u, d⟩ | ⟨u, z, p⟩ | ⟨z, n, o⟩ | o <;>
    simp [FullOp.isPush, FullOp.writes, Op.writes]

omit hnames in
theorem hidden_iff {o : FullOp} :
    o.isHidden = true ↔ (∃ us, o.writes = [(none, us)]) ∧ o.spotted = .skip := by
  rcases o with (⟨m, d, o⟩ | ⟨d, a⟩ | ⟨m, d, o⟩ | ⟨m, d, o, p⟩ | ⟨z, a, o⟩ | ⟨m, z, a, o⟩ |
    ⟨test, o, p⟩) | ⟨u, d⟩ | ⟨u, z, p⟩ | ⟨z, n, o⟩ | o <;>
    simp [FullOp.isHidden, FullOp.writes, Op.writes, FullOp.spotted, Op.spotted]

/-- What a slice of registers has to keep, line by line. -/
theorem suffices_iff :
    Places.Suffices rsp argRegs w.roots w.writes w.spotted ↔ ArgumentsReachCall w := by
  have hlength : w.writes.length = w.lines.length := List.length_map _
  have hwrites : ∀ k : ℕ, w.writes[k]? = w.lines[k]?.map fun l : FullLine => l.op.writes := by
    intro k
    rw [FullWindow.writes, List.getElem?_map]
  have hspotted : ∀ k : ℕ, w.spotted[k]? = w.lines[k]?.map fun l : FullLine => l.op.spotted := by
    intro k
    rw [FullWindow.spotted, List.getElem?_map]
  constructor
  · intro h
    refine ⟨fun g hg i hi => h.roots g hg i (by rwa [hlength]), fun k l hl hpush hload => ?_,
      fun k l hl hhidden hload => ?_⟩
    · obtain ⟨us, hus⟩ := push_iff.mp hpush
      exact h.pushes k us (by rw [hwrites, hl, Option.map_some, hus])
        ((live_memory_iff hnames k).mpr hload)
    · obtain ⟨⟨us, hus⟩, hskip⟩ := hidden_iff.mp hhidden
      exact h.hidden k us (by rw [hwrites, hl, Option.map_some, hus])
        (by rw [hspotted, hl, Option.map_some, hskip]) ((live_memory_iff hnames k).mpr hload)
  · intro h
    refine ⟨fun g hg i hi => h.args g hg i (by rwa [← hlength]), fun k us hk hmem => ?_,
      fun k us hk hq hmem => ?_⟩
    · obtain ⟨l, hl, hus⟩ := Option.map_eq_some_iff.mp ((hwrites k).symm.trans hk)
      exact h.pushes k l hl (push_iff.mpr ⟨us, hus⟩) ((live_memory_iff hnames k).mp hmem)
    · obtain ⟨l, hl, hus⟩ := Option.map_eq_some_iff.mp ((hwrites k).symm.trans hk)
      obtain ⟨l', hl', hskip⟩ := Option.map_eq_some_iff.mp ((hspotted k).symm.trans hq)
      obtain rfl := Option.some.inj (hl.symm.trans hl')
      exact h.hidden k l hl (hidden_iff.mpr ⟨⟨us, hus⟩, hskip⟩) ((live_memory_iff hnames k).mp hmem)

end Window

/-- `push rbx`, `mov rdi,rbx`, `neg rdi`, `mov rax,QWORD PTR [rdi]`, `call QWORD PTR [rax+0x8]`. -/
def receiverWindow : FullWindow where
  lines := [⟨0, 1, .push (.reg (.full (.quad .b)))⟩,
    ⟨1, 4, .plain (.move .mov ⟨.pointer .di, true⟩ (.reg (.full (.quad .b))))⟩,
    ⟨4, 7, .unary .neg ⟨.pointer .di, true⟩⟩,
    ⟨7, 10, .plain (.move .mov ⟨.quad .a, true⟩
      (.mem .qword (.at (.based true (.pointer .di) none none))))⟩]
  addr := 10
  next := 13
  target := .mem .qword (.based true (.quad .a) none (some 8))

/-- `sub rsp,0x10` is dropped before a push, though an argument is loaded behind it. -/
example : bookkeeping (FullWindow.insns
    { lines := [⟨0, 4, .plain (.arith2 ⟨"sub".toList, by decide, by decide, by decide⟩
          ⟨.pointer .sp, true⟩ (.imm 16))⟩,
        ⟨4, 5, .push (.reg (.full (.quad .b)))⟩,
        ⟨5, 9, .plain (.move .mov ⟨.pointer .di, true⟩
          (.mem .qword (.at (.based true (.pointer .bp) none (some (-24))))))⟩]
      addr := 9, next := 11, target := .mem .qword (.based true (.pointer .di) none none) }) 8 = [0] := by
  decide

end OMB
