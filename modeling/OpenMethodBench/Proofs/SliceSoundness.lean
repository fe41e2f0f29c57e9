import OpenMethodBench.Proofs.SliceWindow

/-! Soundness of the slice: what `bookkeeping` drops changes neither the target of the
call nor memory, as long as no value reaches them through a name `REG` does not match. -/

namespace OMB

open DefUse

/-! ## Instructions do what their effect says -/

section Values

variable {s t : Machine}

theorem name_value_congr {n : RegName} (h : s.regs n.reg = t.regs n.reg) :
    n.value s.regs = n.value t.regs := by
  rcases n with g | g | g | g | x <;> simp only [RegName.value, RegName.reg] at h ⊢ <;> rw [h]

theorem addr_value_congr {a : Addr} (next : ℕ)
    (h : ∀ g ∈ regsNamed a.names, s.regs g = t.regs g) :
    a.value next s.regs = a.value next t.regs := by
  have hname : ∀ (g : Gpr) (wide : Bool), (Dst.mk g wide).name.reg = g := by
    intro g wide
    cases wide <;> rfl
  rcases a with d | ⟨wide, b, - | ⟨i, z⟩, d⟩ | ⟨wide, i, z, d⟩
  · rfl
  · have hb : s.regs b = t.regs b := h b (by simp [regsNamed, Addr.names, hname])
    simp [Addr.value, hb]
  · have hb : s.regs b = t.regs b := h b (by simp [regsNamed, Addr.names, hname])
    have hi : s.regs i = t.regs i := h i (by simp [regsNamed, Addr.names, hname])
    simp [Addr.value, hb, hi]
  · have hi : s.regs i = t.regs i := h i (by simp [regsNamed, Addr.names, hname])
    simp [Addr.value, hi]

theorem operand_value_congr {o : Operand} (next : ℕ) (h : Agree (regsNamed o.names) s t) :
    o.value next s = o.value next t := by
  rcases o with n | v | ⟨z, a | n⟩
  · exact name_value_congr (h.2 n.reg (by simp [regsNamed, Operand.names]))
  · rfl
  · simp only [Operand.value, Place.value]
    rw [h.1, addr_value_congr next h.2]
  · simp only [Operand.value, Place.value]
    rw [h.1]

theorem operand_arg_congr {o : Operand} (next : ℕ) (h : Agree (regsNamed o.names) s t) :
    o.arg next s = o.arg next t := by
  rw [Operand.arg, Operand.arg, operand_value_congr next h]

end Values

theorem regsNamed_append (ns ms : List RegName) :
    regsNamed (ns ++ ms) = regsNamed ns ++ regsNamed ms :=
  List.map_append

theorem agree_append_left {ns ms : List RegName} {s t : Machine}
    (h : Agree (regsNamed (ns ++ ms)) s t) : Agree (regsNamed ns) s t :=
  h.mono (by rw [regsNamed_append]; exact List.subset_append_left _ _)

theorem agree_append_right {ns ms : List RegName} {s t : Machine}
    (h : Agree (regsNamed (ns ++ ms)) s t) : Agree (regsNamed ms) s t :=
  h.mono (by rw [regsNamed_append]; exact List.subset_append_right _ _)

/-- A write of a value computed from the registers `u` and from memory. -/
theorem respects_write (d : Dst) {u : List Gpr} {v : Machine → BitVec 64}
    (hv : ∀ s t, Agree u s t → v s = v t) :
    Respects (fun s => d.write (v s) s) (.define d.reg u) := by
  refine ⟨fun _ => rfl, fun s r hr => if_neg hr, fun s t h => ?_⟩
  simp only [Dst.write, if_true]
  rw [hv s t h]

/-- A store of a value, at an address, both computed from the registers `u` and memory. -/
theorem respects_store (z : Size) {u : List Gpr} {a v : Machine → BitVec 64}
    (ha : ∀ s t, Agree u s t → a s = a t) (hv : ∀ s t, Agree u s t → v s = v t) :
    Respects (fun s : Machine => { s with mem := s.mem.store z (a s) (v s) }) (.keep u) := by
  refine ⟨fun _ => rfl, fun s t h => ?_⟩
  simp only
  rw [h.1, ha s t h, hv s t h]

theorem respects_step (F : Arith) (l : Line) : Respects (l.step F) l.op.effect := by
  obtain ⟨addr, next, op⟩ := l
  rcases op with ⟨m, d, o⟩ | ⟨d, a⟩ | ⟨m, d, o⟩ | ⟨m, d, o, p⟩ | ⟨z, a, o⟩ | ⟨m, z, a, o⟩ |
    ⟨test, o, p⟩
  · have hvalue := fun s t (h : Agree (regsNamed o.names) s t) => operand_value_congr next h
    cases m with
    | mov => exact respects_write d hvalue
    | movzx => exact respects_write d hvalue
    | movsx =>
      exact respects_write d fun s t h => congrArg o.size.extend (hvalue s t h)
  · exact respects_write d fun s t h => addr_value_congr next h.2
  · refine respects_write d fun s t h => ?_
    have hd : (Operand.reg d.name).arg next s = (Operand.reg d.name).arg next t := by
      obtain ⟨g, - | -⟩ := d <;> exact operand_arg_congr next (h.mono (by simp [regsNamed,
        Operand.names, Dst.name, RegName.reg]))
    rw [hd, operand_arg_congr next (h.mono (List.subset_cons_self _ _))]
  · refine respects_write d fun s t h => ?_
    rw [operand_arg_congr next (agree_append_left h),
      operand_arg_congr next (agree_append_right h)]
  · exact respects_store z (fun s t h => addr_value_congr next (agree_append_left h).2)
      fun s t h => operand_value_congr next (agree_append_right h)
  · refine respects_store z (fun s t h => addr_value_congr next (agree_append_left h).2)
      fun s t h => ?_
    have hmem : (Operand.mem z (.at a)).arg next s = (Operand.mem z (.at a)).arg next t :=
      operand_arg_congr next (agree_append_left h)
    rw [hmem, operand_arg_congr next (agree_append_right h)]
  · exact fun s => rfl

/-- A window run without instructions that reach neither `roots` nor memory. -/
theorem agree_sliced (w : Window) (word : ℕ) {roots : List Gpr}
    (hroots : ∀ i, Reaches roots w.effects i → i ∉ bookkeeping w.insns word)
    (F : Arith) (s : Machine) : Agree roots (w.whole F s) (w.sliced F word s) := by
  have hsteps : List.Forall₂ (fun x f => Respects f x) w.effects (w.lines.map (Line.step F)) := by
    rw [Window.effects, List.forall₂_map_left_iff, List.forall₂_map_right_iff]
    exact List.forall₂_same.mpr fun l _ => respects_step F l
  refine agree_run hsteps _ (fun i hi => ?_) ⟨rfl, fun _ _ => rfl⟩
  simpa using hroots i hi

/-! ## Target and memory -/

/-- Whatever reaches the call or memory reaches it through names `REG` matches. -/
def Window.ReadsMatched (w : Window) : Prop :=
  ∀ i, Reaches w.roots w.effects i → Reaches w.roots w.spotted i

/-- The slice calls the same target with the same memory as the whole window. -/
theorem slice_sound (w : Window) (word : ℕ) (hread : w.ReadsMatched) (F : Arith) (s : Machine) :
    w.callee (w.sliced F word s) = w.callee (w.whole F s) ∧
      (w.sliced F word s).mem = (w.whole F s).mem := by
  have hagree : Agree w.roots (w.whole F s) (w.sliced F word s) := by
    refine agree_sliced w word (fun i hi hdrop => ?_) F s
    exact ((window_bookkeeping w word i).mp hdrop).2 (hread i hi)
  exact ⟨(operand_value_congr w.next hagree).symm, hagree.1.symm⟩

/-- Where every register is read by a name `REG` matches, `bookkeeping` misses no read. -/
theorem covers_spotted {o : Op} (h : ∀ n ∈ o.names, n.spotted = true) :
    Covers o.effect o.spotted := by
  have hall : regsNamed o.names ⊆ regsSpotted o.names := by
    rw [regsSpotted, List.filter_eq_self.mpr h, regsNamed]
    exact List.Subset.refl _
  rcases o with ⟨m, d, o⟩ | ⟨d, a⟩ | ⟨m, d, o⟩ | ⟨m, d, o, p⟩ | ⟨z, a, o⟩ | ⟨m, z, a, o⟩ |
    ⟨test, o, p⟩
  · exact ⟨rfl, hall, fun _ => id⟩
  · exact ⟨rfl, hall, fun _ => id⟩
  · exact ⟨rfl, List.cons_subset_cons _ hall, fun _ => id⟩
  · exact ⟨rfl, fun _ hg => List.mem_cons_of_mem _ (hall hg), fun _ => id⟩
  · exact ⟨rfl, hall, fun _ => id⟩
  · exact ⟨rfl, hall, fun _ => id⟩
  · -- a compare has no effect, whatever `bookkeeping` makes of it
    refine ⟨?_, by simp [Op.effect, Effect.uses], fun _ hskip => absurd hskip id⟩
    rcases o with n | v | ⟨z, a | n⟩ <;> rfl

theorem map_covers_spotted {w : Window} (h : ∀ l ∈ w.lines, ∀ n ∈ l.op.names, n.spotted = true) :
    List.Forall₂ Covers w.effects w.spotted := by
  rw [Window.effects, Window.spotted, List.forall₂_map_left_iff, List.forall₂_map_right_iff]
  exact List.forall₂_same.mpr fun l hl => covers_spotted (h l hl)

/-- Reads by 32- and 64-bit names, and by any name of `r8` to `r15`, are all matched. -/
theorem readsMatched_of_spotted {w : Window}
    (h : ∀ l ∈ w.lines, ∀ n ∈ l.op.names, n.spotted = true) : w.ReadsMatched :=
  reaches_mono (List.Subset.refl _) ((map_covers_spotted h).imp fun _ _ => Covers.widens)

/-! ## Windows -/

/-- A machine in which rbx holds 1 and everything else is 0. -/
def oneInRbx : Machine := ⟨fun g => if g = .quad .b then 1 else 0, fun _ => 0⟩

/-- `mov rax,rbx` is dropped though `movzx ecx,al` reads it for the call's target. -/
theorem narrow_read_dropped :
    let w : Window := ⟨[⟨0, 3, .move .mov ⟨.quad .a, true⟩ (.reg (.full (.quad .b)))⟩,
      ⟨3, 6, .move .movzx ⟨.quad .c, false⟩ (.reg (.low (.quad .a)))⟩], 6, 8,
      .reg ⟨.quad .c, true⟩⟩
    0 ∈ bookkeeping w.insns 8 ∧
      w.callee (w.sliced (fun _ _ => 0) 8 oneInRbx) ≠ w.callee (w.whole (fun _ _ => 0) oneInRbx) := by
  decide

/-- Read as eax, the register keeps the move and the target. -/
theorem wide_read_slice_sound :
    let w : Window := ⟨[⟨0, 3, .move .mov ⟨.quad .a, true⟩ (.reg (.full (.quad .b)))⟩,
      ⟨3, 6, .lea ⟨.quad .d, true⟩ (.rip 16)⟩,
      ⟨6, 8, .move .mov ⟨.quad .c, false⟩ (.reg (.half (.quad .a)))⟩], 8, 10,
      .reg ⟨.quad .c, true⟩⟩
    bookkeeping w.insns 8 = [1] ∧
      w.callee (w.sliced (fun _ _ => 0) 8 oneInRbx) = w.callee (w.whole (fun _ _ => 0) oneInRbx) ∧
      (w.sliced (fun _ _ => 0) 8 oneInRbx).mem = (w.whole (fun _ _ => 0) oneInRbx).mem :=
  ⟨by decide, slice_sound _ 8 (readsMatched_of_spotted (by decide)) _ oneInRbx⟩

end OMB
