import OpenMethodBench.Spec.Chain
import OpenMethodBench.Proofs.DispatchStores
import OpenMethodBench.Proofs.SliceWindow

/-! What `chain` finds in the text of an instruction: the same general registers as the
slice, the first brackets, and a stack slot where the address is one. -/

namespace OMB

/-! ## General registers -/

theorem gprAt_head {t m : Text} (h : gprAt t = some m) : m.head? ≠ some 'x' := by
  unfold gprAt at h
  rcases hl : legacyAt t with - | a
  · rw [hl] at h
    rcases t with - | ⟨r, t⟩
    · simp [numberedAt] at h
    · have hn : numberedAt (r :: t) = some m := h
      simp only [numberedAt] at hn
      split_ifs at hn with hc
      simp only [Bool.and_eq_true, beq_iff_eq] at hc
      obtain ⟨rfl, -⟩ := hc
      obtain rfl := Option.some.inj hn
      simp
  · rw [hl] at h
    obtain rfl := Option.some.inj h
    unfold legacyAt at hl
    split at hl
    · split_ifs at hl with hc
      simp only [Bool.and_eq_true, Bool.or_eq_true, beq_iff_eq] at hc
      obtain rfl := Option.some.inj hl
      rcases hc.1.1 with rfl | rfl <;> simp
    · simp at hl

theorem xmmAt_eq {t m : Text} (h : xmmAt t = some m) :
    ∃ ds, ds ≠ [] ∧ (∀ c ∈ ds, c.isDigit = true) ∧ m = "xmm".toList ++ ds := by
  simp only [xmmAt] at h
  split_ifs at h with hc
  simp only [Bool.and_eq_true, Bool.not_eq_true', List.isEmpty_eq_false_iff] at hc
  exact ⟨_, hc.2, fun c hd => List.mem_takeWhile_imp hd, (Option.some.inj h).symm⟩

theorem regAt_eq (t : Text) : regAt t = (gprAt t <|> xmmAt t) := by
  unfold regAt gprAt
  cases legacyAt t <;> rfl

theorem gprAt_toList (t : Text) :
    (gprAt t).toList = (regAt t).toList.filter (·.head? != some 'x') := by
  rw [regAt_eq]
  rcases hg : gprAt t with - | m
  · rcases hx : xmmAt t with - | m
    · rfl
    · obtain ⟨ds, -, -, rfl⟩ := xmmAt_eq hx
      rfl
  · have hhead := gprAt_head hg
    simp [hhead]

/-- `chain` recognises what the slice does, save the vector registers. -/
theorem scanGprs_eq (b : Bool) (t : Text) :
    scanGprs b t = (scanRegs b t).filter (·.head? != some 'x') := by
  induction t generalizing b with
  | nil => cases b <;> rfl
  | cons c t ih =>
    cases b with
    | true => exact ih _
    | false => rw [scanGprs, scanRegs, List.filter_append, ih, gprAt_toList]

theorem gprsOf_eq (t : Text) :
    gprsOf t = ((findRegs t).filter (·.head? != some 'x')).map canon := by
  rw [gprsOf, scanGprs_eq]
  rfl

theorem gprsOf_append {c : Char} (hc : isLow c = false) (s t : Text) :
    gprsOf (s ++ c :: t) = gprsOf s ++ gprsOf t := by
  rw [gprsOf_eq, gprsOf_eq, gprsOf_eq, findRegs, scanRegs_append hc, List.filter_append,
    List.map_append]
  rfl

theorem canon_xmm {ds : Text} (hne : ds ≠ []) : canon ("xmm".toList ++ ds) = "xmm".toList ++ ds := by
  obtain ⟨d, ds, rfl⟩ := List.exists_cons_of_ne_nil hne
  rfl

theorem regAt_of_mem {b : Bool} {t m : Text} (h : m ∈ scanRegs b t) : ∃ u, regAt u = some m := by
  induction t generalizing b with
  | nil => cases b <;> simp [scanRegs] at h
  | cons c t ih =>
    cases b with
    | true => exact ih h
    | false =>
      rcases List.mem_append.mp h with h | h
      · exact ⟨_, by simpa using h⟩
      · exact ih h

theorem common_mem_gprsOf (g : Gpr) (t : Text) : g.common ∈ gprsOf t ↔ g.common ∈ regsOf t := by
  rw [gprsOf_eq, regsOf, List.mem_map, List.mem_map]
  constructor
  · intro h
    obtain ⟨m, hm, hg⟩ := h
    exact ⟨m, List.mem_of_mem_filter hm, hg⟩
  intro h
  obtain ⟨m, hm, hg⟩ := h
  refine ⟨m, ?_, hg⟩
  rw [List.mem_filter]
  refine ⟨hm, bne_iff_ne.mpr fun hx => ?_⟩
  obtain ⟨u, hu⟩ := regAt_of_mem hm
  have hxmm : xmmAt u = some m := by
    rw [regAt_eq] at hu
    rcases hgpr : gprAt u with - | a
    · rwa [hgpr] at hu
    · rw [hgpr] at hu
      obtain rfl := Option.some.inj hu
      exact absurd hx (gprAt_head hgpr)
  obtain ⟨ds, hne, -, rfl⟩ := xmmAt_eq hxmm
  rw [canon_xmm hne] at hg
  have hcommon : ∀ g : Gpr, g.common.head? ≠ some 'x' := by decide
  exact hcommon g (by rw [← hg]; rfl)

/-! ## Brackets and slots -/

theorem bracketed_eq_none {t : Text} (h : '[' ∉ t) : bracketed t = none := by
  induction t with
  | nil => rfl
  | cons c t ih =>
    have hc : (c == '[') = false := beq_eq_false_iff_ne.mpr fun hc => h (hc ▸ List.mem_cons_self)
    rw [bracketed, ih fun ht => h (List.mem_cons_of_mem c ht)]
    simp [hc]

theorem slotAt_eq_none {c : Char} (hc : c ≠ '[') (t : Text) : slotAt (c :: t) = none := by
  unfold slotAt
  split
  · rename_i heq
    exact absurd (List.cons.inj heq).1 hc
  · rfl

theorem slotIn_append {pre : Text} (h : '[' ∉ pre) (t : Text) : slotIn (pre ++ t) = slotIn t := by
  induction pre with
  | nil => rfl
  | cons c pre ih =>
    have hc : c ≠ '[' := fun hc => h (hc ▸ List.mem_cons_self)
    rw [List.cons_append, slotIn, slotAt_eq_none hc, ih fun hp => h (List.mem_cons_of_mem c hp)]
    rfl

theorem slotIn_eq_none {t : Text} (h : '[' ∉ t) : slotIn t = none := by
  have happend := slotIn_append h []
  rwa [List.append_nil] at happend

/-- A slot stands in brackets. -/
theorem bracketed_of_slotIn {t : Text} (h : (slotIn t).isSome = true) :
    (bracketed t).isSome = true := by
  induction t with
  | nil => exact absurd h (by decide)
  | cons c t ih =>
    rw [bracketed]
    split_ifs with hc
    · rfl
    · refine ih ?_
      have hat : slotAt (c :: t) = none := by
        refine Option.eq_none_iff_forall_not_mem.mpr fun v hv => hc ?_
        unfold slotAt at hv
        split at hv
        · rename_i d u heq
          obtain ⟨rfl, rfl⟩ := List.cons.inj heq
          split at hv
          · rename_i rest hdrop
            have hclose : ']' ∈ u := (List.dropWhile_sublist isHex).subset (hdrop ▸ List.mem_cons_self)
            have hd : d ≠ ']' := by
              intro hd
              simp [hd] at hv
            simp [hd, hclose]
          · simp at hv
        · simp at hv
      rwa [slotIn, hat] at h

/-- A 64- or 32-bit name. -/
def RegName.isWide : RegName → Bool
  | .full _ | .half _ => true
  | _ => false

/-- An address `[esp+0x…]` or `[rsp+0x…]`, which both passes take for a stack slot. -/
def Addr.isSlot : Addr → Bool
  | .based _ (.pointer .sp) none (some d) => decide (0 ≤ d)
  | _ => false

theorem no_bracket_addr (a : Addr) : '[' ∉ a.text :=
  fun h => ne_of_inner (addr_inner a _ h) (by decide) rfl

theorem no_bracket_name (n : RegName) : '[' ∉ n.text :=
  fun h => ne_of_low (name_low n _ h) (by decide) rfl

theorem no_bracket_hexText (n : ℕ) : '[' ∉ hexText n :=
  fun h => ne_of_low (hexText_low _ h) (by decide) rfl

theorem slotAt_name {g : Gpr} (hg : g ≠ .pointer .sp) (wide : Bool) (u : Text) :
    slotAt ('[' :: ((Dst.mk g wide).name.text ++ u)) = none := by
  rcases g with x | p | n
  · cases x <;> cases wide <;> rfl
  · cases p
    case sp => exact absurd rfl hg
    all_goals cases wide <;> rfl
  · fin_cases n <;> cases wide <;> rfl

theorem slotAt_sp {u : Text} (hu : u.take 3 ≠ "+0x".toList) (wide : Bool) :
    slotAt ('[' :: ((Dst.mk (.pointer .sp) wide).name.text ++ u)) = none := by
  unfold slotAt
  split
  · rename_i c t heq
    have hplus : u = '+' :: '0' :: 'x' :: t := by
      cases wide <;>
        exact (List.cons.inj (List.cons.inj (List.cons.inj (List.cons.inj heq).2).2).2).2
    exact absurd (hplus ▸ rfl) hu
  · rfl

theorem slotAt_reg (g : Gpr) (wide : Bool) {u : Text} (hu : u.take 3 ≠ "+0x".toList) :
    slotAt ('[' :: ((Dst.mk g wide).name.text ++ u)) = none := by
  by_cases hg : g = .pointer .sp
  · rw [hg]
    exact slotAt_sp hu wide
  · exact slotAt_name hg wide u

/-- The texts of the other addresses are not taken for a slot. -/
theorem slotAt_addr {a : Addr} (h : a.isSlot = false) (rest : Text) :
    slotAt ('[' :: (a.text ++ ']' :: rest)) = none := by
  rcases a with d | ⟨wide, b, - | ⟨i, s⟩, d⟩ | ⟨wide, i, s, d⟩
  · rfl
  · rcases d with - | d
    · rw [Addr.text, List.append_assoc]
      exact slotAt_reg b wide (by simp)
    · rw [Addr.text, List.append_assoc]
      by_cases hd : d < 0
      · exact slotAt_reg b wide (by simp [dispText, hd])
      · -- a displacement from any other register
        refine slotAt_name (fun hb => ?_) wide _
        rw [hb, Addr.isSlot, decide_eq_false_iff_not] at h
        exact h (not_lt.mp hd)
  · have hname : ∀ (wide : Bool) (g : Gpr) (u : Text),
        ('+' :: ((Dst.mk g wide).name.text ++ u)).take 3 ≠ "+0x".toList := by
      intro wide g u
      have hhead : ∀ (wide : Bool) (g : Gpr), (Dst.mk g wide).name.text.head? ≠ some '0' ∧
          (Dst.mk g wide).name.text ≠ [] := by decide
      obtain ⟨h0, hne⟩ := hhead wide g
      obtain ⟨c, n, hn⟩ := List.exists_cons_of_ne_nil hne
      rw [hn] at h0 ⊢
      intro htake
      exact h0 (congrArg some (List.cons.inj (List.cons.inj htake).2).1)
    rw [Addr.text, Addr.scaledText, List.append_assoc, List.append_assoc, List.cons_append,
      List.append_assoc]
    exact slotAt_reg b wide (hname wide i _)
  · rw [Addr.text, Addr.scaledText, List.append_assoc, List.append_assoc]
    exact slotAt_reg i wide (by simp)

theorem no_bracket_size (z : Size) : '[' ∉ z.text ++ " PTR ".toList := by
  cases z <;> decide

/-- An address that is no slot is passed over. -/
theorem slotIn_addr {u : Text} (hu : '[' ∉ u) {a : Addr} (h : a.isSlot = false) (rest : Text) :
    slotIn (u ++ '[' :: (a.text ++ ']' :: rest)) = slotIn rest := by
  have hclose : a.text ++ ']' :: rest = (a.text ++ [']']) ++ rest := by simp
  rw [slotIn_append hu, slotIn, slotAt_addr h, hclose,
    slotIn_append (by simpa using no_bracket_addr a)]
  rfl

theorem slotIn_operand {o : Operand} (h : ∀ z a, o = .mem z (.at a) → a.isSlot = false)
    (rest : Text) : slotIn (o.text ++ rest) = slotIn rest := by
  rcases o with n | v | ⟨z, a | n⟩
  · exact slotIn_append (no_bracket_name n) rest
  · exact slotIn_append (no_bracket_hexText v) rest
  · have htext : (Operand.mem z (.at a)).text ++ rest =
        (z.text ++ " PTR ".toList) ++ '[' :: (a.text ++ ']' :: rest) := by
      simp [Operand.text, Place.text]
    rw [htext, slotIn_addr (no_bracket_size z) (h z a rfl)]
  · have hds : '[' ∉ "ds:".toList ++ hexText n := by
      rw [List.mem_append]
      exact not_or.mpr ⟨by decide, no_bracket_hexText n⟩
    rw [Operand.text, List.append_assoc, slotIn_append (no_bracket_size z)]
    exact slotIn_append hds rest

theorem bracketed_addr {pre : Text} (hpre : '[' ∉ pre) (a : Addr) :
    bracketed (pre ++ '[' :: (a.text ++ [']'])) = some a.text := by
  have hne : a.text ≠ [] := by
    rcases a with d | ⟨wide, b, - | ⟨i, s⟩, d⟩ | ⟨wide, i, s, d⟩ <;>
      simp [Addr.text, Addr.scaledText, name_ne_nil]
  exact bracketed_append (fun c hc h => hpre (h ▸ hc)) hne
    fun c hc => ne_of_inner (addr_inner a c hc) (by decide)

/-- The operand of a call is followed by no other. -/
theorem storesTo_alone (z : Size) (a : Addr) : storesTo (Operand.mem z (.at a)).text = false := by
  have htext : (Operand.mem z (.at a)).text = z.text ++ (" PTR [".toList ++ (a.text ++ [']'])) := by
    simp [Operand.text, Place.text]
  have hword : ∀ c ∈ (" PTR [".toList ++ (a.text ++ [']'])).head?, isWordChar c = false := by
    simp [isWordChar]
  have hclose : ∀ c ∈ a.text, (c != ']') = true := fun c hc =>
    bne_iff_ne.mpr (ne_of_inner (addr_inner a c hc) (by decide))
  have hdrop : (" PTR [".toList ++ (a.text ++ [']'])).drop 6 = a.text ++ [']'] := rfl
  rw [htext, storesTo, Text.dropWhile_append_of_head (fun c hc => ((size_word z).2 c hc).1) hword]
  simp only [hdrop, Text.dropWhile_append_of_head hclose (r := [']']) (by simp)]
  simp

/-! ## The loop -/

/-- Up to the first indirect call the loop runs the steps. -/
theorem chainFrom_append {body : List Insn} (hbody : ∀ x ∈ body, isDispatchCall x = false)
    (word : ℕ) (s : ChainState) (rest : List Insn) :
    chainFrom word s (body ++ rest) =
      (body.foldlM (chainStep word) s).bind fun s => chainFrom word s rest := by
  induction body generalizing s with
  | nil => rfl
  | cons x body ih =>
    rw [List.cons_append, chainFrom, hbody x List.mem_cons_self, List.foldlM_cons,
      Option.bind_eq_bind, Option.bind_assoc]
    simp only [Bool.false_eq_true, if_false]
    exact congrArg _ (funext fun s => ih (fun y hy => hbody y (List.mem_cons_of_mem x hy)) s)

/-- There it stops. -/
theorem chainFrom_call {call : Insn} (hcall : isDispatchCall call = true) (word : ℕ)
    (s : ChainState) (rest : List Insn) : chainFrom word s (call :: rest) = callDepth s call := by
  rw [chainFrom, if_pos hcall]

/-! ## Depths of the registers an operand names -/

/-- `dep` says of the machine's registers what `d` does, and of other names nothing. -/
structure Tracks (dep : Text → ℕ) (d : Gpr → ℕ) : Prop where
  reg : ∀ g, dep g.common = d g
  other : ∀ r, (∀ g : Gpr, g.common ≠ r) → dep r = 0

theorem Tracks.deepest {dep : Text → ℕ} {d : Gpr → ℕ} (h : Tracks dep d) {t : Text}
    {ns : List RegName} (ht : Mentions t ns) :
    deepest dep (gprsOf t) = Depth.greatest d (regsSpotted ns) := by
  refine Nat.le_antisymm (Depth.greatest_le fun r hr => ?_) (Depth.greatest_le fun g hg => ?_)
  · by_cases hg : ∃ g : Gpr, g.common = r
    · obtain ⟨g, rfl⟩ := hg
      rw [h.reg]
      exact Depth.le_greatest ((ht g).mp ((common_mem_gprsOf g t).mp hr))
    · rw [h.other r fun g he => hg ⟨g, he⟩]
      exact Nat.zero_le _
  · rw [← h.reg]
    exact Depth.le_greatest ((common_mem_gprsOf g t).mpr ((ht g).mpr hg))

theorem Tracks.update {dep : Text → ℕ} {d : Gpr → ℕ} (h : Tracks dep d) (g : Gpr) (n : ℕ) :
    Tracks (Function.update dep g.common n) (Function.update d g n) := by
  refine ⟨fun k => ?_, fun r hr => ?_⟩
  · by_cases hk : k = g
    · rw [hk, Function.update_self, Function.update_self]
    · rw [Function.update_of_ne hk, Function.update_of_ne (common_injective.ne hk), h.reg]
  · rw [Function.update_of_ne (hr g).symm, h.other r hr]

end OMB
