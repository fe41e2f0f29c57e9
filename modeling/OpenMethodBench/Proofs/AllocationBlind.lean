import Mathlib
import OpenMethodBench.Spec.Allocation
import OpenMethodBench.Proofs.Respelling

/-! What the oracle compares does not depend on how registers were allocated. -/

namespace OMB

/-! ## Registers in a run -/

theorem legacyAt_prefix {t m : Text} (h : legacyAt t = some m) : m <+: t := by
  unfold legacyAt at h
  split at h
  · split_ifs at h
    obtain rfl := Option.some.inj h
    exact ⟨_, rfl⟩
  · simp at h

theorem numberedAt_prefix {t m : Text} (h : numberedAt t = some m) : m <+: t := by
  cases t with
  | nil => simp [numberedAt] at h
  | cons c t =>
    simp only [numberedAt] at h
    split_ifs at h
    obtain rfl := Option.some.inj h
    have hsuffix : ((t.dropWhile Char.isDigit).head?.filter
        fun s => s == 'd' || s == 'w' || s == 'b').toList <+: t.dropWhile Char.isDigit := by
      rcases t.dropWhile Char.isDigit with - | ⟨s, u⟩
      · exact List.nil_prefix
      · rw [List.head?_cons, Option.filter_some]
        split_ifs
        · exact ⟨u, rfl⟩
        · exact List.nil_prefix
    obtain ⟨u, hu⟩ := hsuffix
    refine ⟨u, ?_⟩
    rw [List.cons_append, List.cons_append, List.append_assoc, hu, List.takeWhile_append_dropWhile]

theorem xmmAt_prefix {t m : Text} (h : xmmAt t = some m) : m <+: t := by
  simp only [xmmAt] at h
  split_ifs at h with hc
  obtain rfl := Option.some.inj h
  simp only [Bool.and_eq_true, beq_iff_eq] at hc
  refine ⟨(t.drop 3).dropWhile Char.isDigit, ?_⟩
  rw [List.append_assoc, List.takeWhile_append_dropWhile, ← hc.1, List.take_append_drop]

theorem regAt_prefix {t m : Text} (h : regAt t = some m) : m <+: t := by
  unfold regAt at h
  cases hl : legacyAt t with
  | some a => rw [hl] at h; exact legacyAt_prefix (hl.trans h)
  | none =>
    cases hn : numberedAt t with
    | some a => rw [hl, hn] at h; exact numberedAt_prefix (hn.trans h)
    | none => rw [hl, hn] at h; exact xmmAt_prefix h

theorem regAt_ne_nil {t m : Text} (h : regAt t = some m) : m ≠ [] := by
  rintro rfl
  have hgpr : gprAt t ≠ some [] := by
    intro hg
    unfold gprAt at hg
    cases hl : legacyAt t with
    | some a =>
      rw [hl] at hg
      obtain rfl := Option.some.inj hg
      unfold legacyAt at hl
      split at hl
      · split_ifs at hl
        simp at hl
      · simp at hl
    | none =>
      rw [hl] at hg
      cases t with
      | nil => simp [numberedAt] at hg
      | cons c t =>
        have hn : numberedAt (c :: t) = some [] := hg
        simp only [numberedAt] at hn
        split_ifs at hn
        simp at hn
  rw [regAt_eq] at h
  rcases hg : gprAt t with - | a
  · rw [hg] at h
    obtain ⟨ds, -, -, hds⟩ := xmmAt_eq h
    exact absurd hds (by simp)
  · rw [hg] at h
    exact hgpr (hg.trans h)

/-- A run of `[a-z0-9]` with the register at its head blotted out. -/
def blot (w : Text) : Text :=
  match regAt w with
  | some m => 'r' :: w.drop m.length
  | none => w

theorem regAt_run {w t : Text} (ht : ∀ c ∈ t.head?, isLow c = false) : regAt (w ++ t) = regAt w := by
  cases t with
  | nil => rw [List.append_nil]
  | cons c t => exact regAt_append (ht c rfl) w t

theorem mark_head {c : Char} (hc : isLow c = false) (t : Text) :
    ∀ d ∈ (c :: t).head?, isLow d = false := fun _ hd => Option.some.inj hd ▸ hc

theorem subRegs_mark {c : Char} (hc : isLow c = false) (b : Bool) (t : Text) :
    subRegs b 0 (c :: t) = c :: subRegs false 0 t := by
  cases b with
  | true => rw [subRegs, hc]
  | false =>
    have hnone : regAt (c :: t) = none := regAt_append hc [] t
    rw [subRegs, hnone, hc]

theorem subRegs_flag {t : Text} (ht : ∀ c ∈ t.head?, isLow c = false) :
    subRegs true 0 t = subRegs false 0 t := by
  cases t with
  | nil => rfl
  | cons c t => rw [subRegs_mark (ht c rfl), subRegs_mark (ht c rfl)]

/-- Past the head of a run nothing is blotted out. -/
theorem subRegs_skip {w : Text} (hw : ∀ c ∈ w, isLow c = true) {k : ℕ} (hk : k ≤ w.length)
    (t : Text) : subRegs true k (w ++ t) = w.drop k ++ subRegs true 0 t := by
  induction w generalizing k with
  | nil =>
    obtain rfl : k = 0 := by simpa using hk
    rfl
  | cons c w ih =>
    have hc := hw c List.mem_cons_self
    have hrest := fun {j : ℕ} (hj : j ≤ w.length) => ih (fun d hd => hw d (List.mem_cons_of_mem c hd)) hj
    cases k with
    | zero =>
      rw [List.cons_append, subRegs, hc, hrest (Nat.zero_le _)]
      rfl
    | succ k =>
      rw [List.cons_append, subRegs, hc, hrest (by simpa using hk)]
      rfl

theorem subRegs_run {w t : Text} (hne : w ≠ []) (hw : ∀ c ∈ w, isLow c = true)
    (ht : ∀ c ∈ t.head?, isLow c = false) :
    subRegs false 0 (w ++ t) = blot w ++ subRegs false 0 t := by
  obtain ⟨c, w, rfl⟩ := List.exists_cons_of_ne_nil hne
  have hc := hw c List.mem_cons_self
  have hrest : ∀ d ∈ w, isLow d = true := fun d hd => hw d (List.mem_cons_of_mem c hd)
  have hreg := regAt_run (w := c :: w) ht
  rw [List.cons_append] at hreg ⊢
  rw [subRegs, hreg, blot, hc]
  rcases hm : regAt (c :: w) with - | m
  · change c :: subRegs true 0 (w ++ t) = c :: w ++ subRegs false 0 t
    rw [subRegs_skip hrest (Nat.zero_le _), subRegs_flag ht]
    rfl
  · obtain ⟨u, hu⟩ := regAt_prefix hm
    have hlen : m.length - 1 ≤ w.length := by
      have := congrArg List.length hu
      rw [List.length_append, List.length_cons] at this
      omega
    obtain ⟨a, m, rfl⟩ := List.exists_cons_of_ne_nil (regAt_ne_nil hm)
    change 'r' :: subRegs true (m.length + 1 - 1) (w ++ t) = _
    rw [Nat.add_sub_cancel, subRegs_skip hrest (by simpa using hlen), subRegs_flag ht]
    rfl

theorem name_blot (d : Dst) : blot d.name.text = ['r'] := by
  have h : ∀ (g : Gpr) (w : Bool), blot (Dst.mk g w).name.text = ['r'] := by decide
  exact h d.reg d.wide

theorem subRegs_name (d : Dst) {t : Text} (ht : ∀ c ∈ t.head?, isLow c = false) :
    subRegs false 0 (d.name.text ++ t) = 'r' :: subRegs false 0 t := by
  rw [subRegs_run (name_ne_nil _) (name_low _) ht, name_blot]
  rfl

namespace Allocation.Run

variable {σ : Allocation} {w w' : Text}

theorem ne_nil (h : σ.Run w w') : w ≠ [] ∧ w' ≠ [] := by
  cases h with
  | name d => exact ⟨name_ne_nil _, name_ne_nil _⟩
  | word w hne _ _ => exact ⟨hne, hne⟩

theorem low (h : σ.Run w w') : (∀ c ∈ w, isLow c = true) ∧ ∀ c ∈ w', isLow c = true := by
  cases h with
  | name d => exact ⟨name_low _, name_low _⟩
  | word w _ hlow _ => exact ⟨hlow, hlow⟩

theorem blot_eq (h : σ.Run w w') : blot w = blot w' := by
  cases h with
  | name d => rw [name_blot, name_blot]
  | word w _ _ _ => rfl

end Allocation.Run

/-! ## Displacements of zero -/

/-- An address with its registers blotted out. -/
def blottedAddr : Option Size → Text
  | none => ['r']
  | some s => "r+r*".toList ++ Nat.toDigits 10 s.bytes

def zeroText (shown : Bool) : Text := if shown then "+0x0".toList else []

/-- Two texts that differ in displacements of zero after an address. -/
inductive Zeros : Text → Text → Prop
  | nil : Zeros [] []
  | cons (c : Char) {t t' : Text} : Zeros t t' → Zeros (c :: t) (c :: t')
  | base (s : Option Size) (z z' : Bool) {t t' : Text} : Zeros t t' →
      Zeros ('[' :: (blottedAddr s ++ (zeroText z ++ ']' :: t)))
        ('[' :: (blottedAddr s ++ (zeroText z' ++ ']' :: t')))

/-- `ops.replace("+0x0]", "]")`. -/
abbrev foldZeros (k : ℕ) (t : Text) : Text := replaceText "+0x0]".toList "]".toList k t

theorem foldZeros_base (s : Option Size) (z : Bool) (t : Text) :
    foldZeros 0 ('[' :: (blottedAddr s ++ (zeroText z ++ ']' :: t))) =
      '[' :: (blottedAddr s ++ ']' :: foldZeros 0 t) := by
  cases s with
  | none => cases z <;> rfl
  | some s => cases s <;> cases z <;> rfl

theorem Zeros.append (a : Text) {t t' : Text} (h : Zeros t t') : Zeros (a ++ t) (a ++ t') := by
  induction a with
  | nil => exact h
  | cons c a ih => exact Zeros.cons c ih

/-- What starts one starts the other, brackets apart. -/
theorem Zeros.isPrefixOf_eq {t t' : Text} (h : Zeros t t') {p : Text} (hp : '[' ∉ p) :
    p.isPrefixOf t = p.isPrefixOf t' := by
  induction p generalizing t t' with
  | nil => rw [List.isPrefixOf, List.isPrefixOf]
  | cons d p ih =>
    have hd : (d == '[') = false := beq_eq_false_iff_ne.mpr fun hd => hp (hd ▸ List.mem_cons_self)
    cases h with
    | nil => rfl
    | cons c h =>
      rw [List.isPrefixOf_cons_cons, List.isPrefixOf_cons_cons,
        ih h fun hmem => hp (List.mem_cons_of_mem d hmem)]
    | base s z z' h =>
      rw [List.isPrefixOf_cons_cons, List.isPrefixOf_cons_cons, hd, Bool.false_and, Bool.false_and]

theorem Zeros.foldZeros_eq {t t' : Text} (h : Zeros t t') :
    ∀ k, '[' ∉ t.take k → foldZeros k t = foldZeros k t' := by
  induction h with
  | nil => exact fun k _ => rfl
  | cons c h ih =>
    intro k hk
    cases k with
    | succ k => exact ih k fun hmem => hk (List.mem_cons_of_mem c hmem)
    | zero =>
      have hzero := ih 0 (by simp)
      have hpre := (Zeros.cons c h).isPrefixOf_eq (show '[' ∉ "+0x0]".toList by decide)
      unfold foldZeros at hzero ⊢
      rw [replaceText, replaceText, ← hpre]
      split_ifs with hmatch
      · have htake := List.prefix_iff_eq_take.mp (List.isPrefixOf_iff_prefix.mp hmatch)
        have hskip : '[' ∉ List.take 4 _ := fun hmem => by
          have hall : ∀ d ∈ "+0x0]".toList, d ≠ '[' := by decide
          exact hall '[' (htake ▸ List.mem_cons_of_mem c hmem) rfl
        exact congrArg _ (ih 4 hskip)
      · rw [hzero]
  | base s z z' h ih =>
    intro k hk
    cases k with
    | succ k => exact absurd List.mem_cons_self hk
    | zero => rw [foldZeros_base, foldZeros_base, ih 0 (by simp)]

/-! ## The operands -/

section Operands

variable {σ : Allocation} {t t' : Text}

theorem Realloc.head_low (h : Realloc σ t t') (ht : ∀ c ∈ t.head?, isLow c = false) :
    ∀ c ∈ t'.head?, isLow c = false := by
  cases h with
  | nil => exact ht
  | mark hc _ => exact ht
  | base wide b i z z' _ => exact ht
  | run hrun _ _ =>
    obtain ⟨c, w, hcw⟩ := List.exists_cons_of_ne_nil hrun.ne_nil.1
    have hlow := hrun.low.1 c (by rw [hcw]; exact List.mem_cons_self)
    have hnot := ht c (by rw [hcw]; rfl)
    rw [hlow] at hnot
    exact absurd hnot (by decide)

theorem zeroDisp_text (z : Bool) : ((zeroDisp z).map dispText).getD [] = zeroText z := by
  cases z <;> rfl

theorem subRegs_zeroText (z : Bool) (t : Text) :
    subRegs false 0 (zeroText z ++ ']' :: t) = zeroText z ++ ']' :: subRegs false 0 t := by
  cases z with
  | false => exact subRegs_mark rfl _ _
  | true =>
    change subRegs false 0 ('+' :: ("0x0".toList ++ ']' :: t)) = _
    rw [subRegs_mark rfl, subRegs_run (by decide) (by decide) (mark_head rfl _),
      subRegs_mark rfl]
    rfl

theorem subRegs_bytes (s : Size) {t : Text} (ht : ∀ c ∈ t.head?, isLow c = false) :
    subRegs false 0 (Nat.toDigits 10 s.bytes ++ t) =
      Nat.toDigits 10 s.bytes ++ subRegs false 0 t := by
  cases s <;> exact subRegs_run (by decide) (by decide) ht

theorem zeroText_head (z : Bool) (t : Text) :
    ∀ c ∈ (zeroText z ++ ']' :: t).head?, isLow c = false := by
  cases z
  · exact mark_head rfl _
  · exact mark_head rfl _

theorem subRegs_base (wide : Bool) (b : Gpr) (i : Option (Gpr × Size)) (z : Bool) (t : Text) :
    subRegs false 0 ('[' :: ((Addr.based wide b i (zeroDisp z)).text ++ ']' :: t)) =
      '[' :: (blottedAddr (i.map Prod.snd) ++ (zeroText z ++ ']' :: subRegs false 0 t)) := by
  rw [subRegs_mark rfl]
  rcases i with - | ⟨g, s⟩
  · rw [Addr.text, zeroDisp_text, List.append_assoc, subRegs_name _ (zeroText_head z t),
      subRegs_zeroText]
    rfl
  · have htext : (Addr.based wide b (some (g, s)) (zeroDisp z)).text ++ ']' :: t =
        (Dst.mk b wide).name.text ++ '+' :: ((Dst.mk g wide).name.text ++ '*' ::
          (Nat.toDigits 10 s.bytes ++ (zeroText z ++ ']' :: t))) := by
      rw [Addr.text, zeroDisp_text, Addr.scaledText]
      simp only [List.append_assoc, List.cons_append]
    rw [htext, subRegs_name _ (mark_head rfl _), subRegs_mark rfl, subRegs_name _ (mark_head rfl _),
      subRegs_mark rfl, subRegs_bytes s (zeroText_head z t), subRegs_zeroText]
    simp only [Option.map_some, blottedAddr, List.append_assoc]
    rfl

/-- Registers blotted out, only displacements of zero tell the two apart. -/
theorem Realloc.zeros (h : Realloc σ t t') :
    Zeros (subRegs false 0 t) (subRegs false 0 t') := by
  induction h with
  | nil => exact Zeros.nil
  | mark hc _ ih =>
    rw [subRegs_mark hc, subRegs_mark hc]
    exact Zeros.cons _ ih
  | run hrun ht h ih =>
    rw [subRegs_run hrun.ne_nil.1 hrun.low.1 ht,
      subRegs_run hrun.ne_nil.2 hrun.low.2 (h.head_low ht), hrun.blot_eq]
    exact ih.append _
  | base wide b i z z' _ ih =>
    rw [subRegs_base, subRegs_base]
    cases i with
    | none => exact Zeros.base none z z' ih
    | some x => exact Zeros.base (some x.2) z z' ih

end Operands

/-! ## Brackets and the stack pointer -/

/-- `[er]sp` at the head of a text. -/
def startsStack (t : Text) : Bool := t.take 3 == "esp".toList || t.take 3 == "rsp".toList

theorem onStack_cons (c : Char) (t : Text) :
    onStack (c :: t) = ((c == '[' && startsStack t) || onStack t) := rfl

theorem startsStack_append {u : Text} (hu : ∀ c ∈ u.head?, isLow c = false) (a : Text) :
    startsStack (a ++ u) = startsStack a := by
  cases u with
  | nil => rw [List.append_nil]
  | cons d u =>
    have hd := hu d rfl
    have he : d ≠ 'e' := ne_of_not_low hd (by decide)
    have hr : d ≠ 'r' := ne_of_not_low hd (by decide)
    have hs : d ≠ 's' := ne_of_not_low hd (by decide)
    have hp : d ≠ 'p' := ne_of_not_low hd (by decide)
    rcases a with - | ⟨x, - | ⟨y, - | ⟨z, a⟩⟩⟩
    · simp [startsStack, he, hr]
    · rcases u with - | ⟨v, u⟩ <;> simp [startsStack, hs]
    · simp [startsStack, hp]
    · rfl

theorem startsStack_of_head {t : Text} (ht : ∀ c ∈ t.head?, isLow c = false) :
    startsStack t = false := startsStack_append ht []

theorem startsStack_name (d : Dst) : startsStack d.name.text = decide (d.reg = .pointer .sp) := by
  have h : ∀ (g : Gpr) (w : Bool),
      startsStack (Dst.mk g w).name.text = decide (g = .pointer .sp) := by decide
  exact h d.reg d.wide

theorem Allocation.reg_eq_sp (σ : Allocation) (wide : Bool) (g : Gpr) :
    σ.reg wide g = .pointer .sp ↔ g = .pointer .sp := by
  have hsp : σ.reg wide (.pointer .sp) = .pointer .sp := by
    cases wide
    · exact σ.half_sp
    · exact σ.wide_sp
  rw [← hsp, Equiv.apply_eq_iff_eq, hsp]

/-- The first brackets that hold anything, told from the head of a text. -/
theorem bracketed_cons (c : Char) (t : Text) :
    (bracketed (c :: t)).isSome =
      ((c == '[' && (t.head? != some ']' && t.contains ']')) || (bracketed t).isSome) := by
  have hinner : (c == '[' && !(t.takeWhile (· != ']')).isEmpty && t.contains ']') =
      (c == '[' && (t.head? != some ']' && t.contains ']')) := by
    cases t with
    | nil => cases c == '[' <;> rfl
    | cons d t =>
      by_cases hd : d = ']'
      · simp [hd]
      · have hne : (some d != some ']') = true := by simpa using hd
        simp [hd, hne]
  rw [bracketed, hinner]
  split_ifs with h
  · rw [h]
    rfl
  · rw [Bool.not_eq_true] at h
    rw [h, Bool.false_or]

theorem contains_append_low {w : Text} (hw : ∀ c ∈ w, isLow c = true) (t : Text) :
    (w ++ t).contains ']' = t.contains ']' := by
  have hnot : ']' ∉ w := fun h => absurd (hw _ h) (by decide)
  rw [Bool.eq_iff_iff, List.contains_iff_mem, List.contains_iff_mem, List.mem_append]
  exact ⟨fun h => h.resolve_left hnot, Or.inr⟩

section Marks

variable {σ : Allocation} {t t' : Text}

theorem Realloc.close_head (h : Realloc σ t t') :
    (t.head? != some ']') = (t'.head? != some ']') := by
  cases h with
  | nil => rfl
  | mark _ _ => rfl
  | base wide b i z z' _ => rfl
  | run hrun _ _ =>
    have hhead : ∀ {w : Text}, w ≠ [] → (∀ c ∈ w, isLow c = true) → ∀ u : Text,
        ((w ++ u).head? != some ']') = true := by
      intro w hne hw u
      obtain ⟨c, w, rfl⟩ := List.exists_cons_of_ne_nil hne
      have hc : c ≠ ']' := fun hc => absurd (hw c List.mem_cons_self) (by rw [hc]; decide)
      simpa using hc
    rw [hhead hrun.ne_nil.1 hrun.low.1, hhead hrun.ne_nil.2 hrun.low.2]

theorem Realloc.contains_close (h : Realloc σ t t') : t.contains ']' = t'.contains ']' := by
  induction h with
  | nil => rfl
  | mark _ _ ih => rw [List.contains_cons, List.contains_cons, ih]
  | run hrun _ _ ih => rw [contains_append_low hrun.low.1, contains_append_low hrun.low.2, ih]
  | base wide b i z z' _ ih => simp

theorem bracketed_base (wide : Bool) (b : Gpr) (i : Option (Gpr × Size)) (d : Option ℤ) (t : Text) :
    (bracketed ('[' :: ((Addr.based wide b i d).text ++ ']' :: t))).isSome = true := by
  have hne : (Addr.based wide b i d).text ≠ [] := by
    rcases i with - | ⟨g, s⟩
    · simp [Addr.text, name_ne_nil]
    · simp [Addr.text, name_ne_nil]
  have hinner : ∀ c ∈ (Addr.based wide b i d).text, c ≠ ']' :=
    fun c hc => ne_of_inner (addr_inner _ c hc) (by decide)
  have happend := @bracketed_append [] _ t (by simp) hne hinner
  rw [List.nil_append] at happend
  rw [happend]
  rfl

theorem Realloc.bracketed_isSome (h : Realloc σ t t') :
    (bracketed t).isSome = (bracketed t').isSome := by
  induction h with
  | nil => rfl
  | mark _ h ih => rw [bracketed_cons, bracketed_cons, h.close_head, h.contains_close, ih]
  | run hrun _ _ ih =>
    have hopen : ∀ {w : Text}, (∀ c ∈ w, isLow c = true) → '[' ∉ w := fun hw hmem =>
      absurd (hw _ hmem) (by decide)
    rw [bracketed_append_left (hopen hrun.low.1), bracketed_append_left (hopen hrun.low.2), ih]
  | base wide b i z z' _ _ => rw [bracketed_base, bracketed_base]

theorem Allocation.Run.startsStack_eq {w w' : Text} (h : σ.Run w w') :
    startsStack w = startsStack w' := by
  cases h with
  | name d =>
    rw [startsStack_name, startsStack_name, decide_eq_decide]
    exact (σ.reg_eq_sp d.wide d.reg).symm
  | word w _ _ _ => rfl

theorem Realloc.startsStack_eq (h : Realloc σ t t') : startsStack t = startsStack t' := by
  cases h with
  | nil => rfl
  | mark hc _ =>
    rw [startsStack_of_head (mark_head hc _), startsStack_of_head (mark_head hc _)]
  | base wide b i z z' _ =>
    rw [startsStack_of_head (mark_head rfl _), startsStack_of_head (mark_head rfl _)]
  | run hrun ht h =>
    rw [startsStack_append ht, startsStack_append (h.head_low ht), hrun.startsStack_eq]

theorem onStack_base (wide : Bool) (b : Gpr) (i : Option (Gpr × Size)) (z : Bool) (t : Text) :
    onStack ('[' :: ((Addr.based wide b i (zeroDisp z)).text ++ ']' :: t)) =
      (decide (b = .pointer .sp) || onStack t) := by
  have hfront : ∀ c ∈ (Addr.based wide b i (zeroDisp z)).text, c ≠ '[' :=
    fun c hc => ne_of_inner (addr_inner _ c hc) (by decide)
  have hstarts : startsStack ((Addr.based wide b i (zeroDisp z)).text ++ ']' :: t) =
      decide (b = .pointer .sp) := by
    rcases i with - | ⟨g, s⟩
    · rw [Addr.text, zeroDisp_text, List.append_assoc, startsStack_append (zeroText_head z t),
        startsStack_name]
    · rw [Addr.text, List.append_assoc, List.append_assoc, List.cons_append,
        startsStack_append (mark_head rfl _), startsStack_name]
  rw [onStack_cons, hstarts, onStack_append hfront, onStack_cons]
  rfl

theorem Realloc.onStack_eq (h : Realloc σ t t') : onStack t = onStack t' := by
  induction h with
  | nil => rfl
  | mark _ h ih => rw [onStack_cons, onStack_cons, h.startsStack_eq, ih]
  | run hrun _ _ ih =>
    have hopen : ∀ {w : Text}, (∀ c ∈ w, isLow c = true) → ∀ c ∈ w, c ≠ '[' :=
      fun hw c hmem hc => absurd (hw c hmem) (by rw [hc]; decide)
    rw [onStack_append (hopen hrun.low.1), onStack_append (hopen hrun.low.2), ih]
  | base wide b i z z' _ ih =>
    rw [onStack_base, onStack_base, ih, decide_eq_decide.mpr (σ.reg_eq_sp wide b)]

end Marks

/-! ## The instruction -/

/-- What stands behind two mnemonics, alike in brackets and stack pointers. -/
structure Behind (r r' : Text) : Prop where
  head : ∀ c ∈ r.head?, Text.isSpace c = true
  head' : ∀ c ∈ r'.head?, Text.isSpace c = true
  close : r.contains ']' = r'.contains ']'
  bracket : (bracketed r).isSome = (bracketed r').isSome
  stack : onStack r = onStack r'

theorem not_low_head {r : Text} (h : ∀ c ∈ r.head?, Text.isSpace c = true) :
    ∀ c ∈ r.head?, isLow c = false := fun c hc => not_low_of_space (h c hc)

theorem close_head_of_space {r : Text} (h : ∀ c ∈ r.head?, Text.isSpace c = true) :
    (r.head? != some ']') = true := by
  rw [bne_iff_ne]
  intro heq
  exact absurd (h ']' heq) (by decide)

namespace Behind

variable {r r' : Text} (h : Behind r r')
include h

theorem bracketed_eq (a : Text) : (bracketed (a ++ r)).isSome = (bracketed (a ++ r')).isSome := by
  induction a with
  | nil => exact h.bracket
  | cons c a ih =>
    have hhead : ((a ++ r).head? != some ']') = ((a ++ r').head? != some ']') := by
      cases a with
      | nil => exact (close_head_of_space h.head).trans (close_head_of_space h.head').symm
      | cons d a => rfl
    have hclose : (a ++ r).contains ']' = (a ++ r').contains ']' := by
      rw [Bool.eq_iff_iff, List.contains_iff_mem, List.contains_iff_mem, List.mem_append,
        List.mem_append, ← List.contains_iff_mem, ← List.contains_iff_mem, ← List.contains_iff_mem,
        h.close]
    rw [List.cons_append, List.cons_append, bracketed_cons, bracketed_cons, hhead, hclose, ih]

theorem onStack_eq (a : Text) : onStack (a ++ r) = onStack (a ++ r') := by
  induction a with
  | nil => exact h.stack
  | cons c a ih =>
    rw [List.cons_append, List.cons_append, onStack_cons, onStack_cons, ih,
      startsStack_append (not_low_head h.head), startsStack_append (not_low_head h.head')]

end Behind

theorem bracketed_append_spaces (t : Text) {post : Text} (h : ∀ c ∈ post, Text.isSpace c = true) :
    (bracketed (t ++ post)).isSome = (bracketed t).isSome := by
  have hnot : ∀ {c : Char}, Text.isSpace c = false → c ∉ post := fun hc hmem => by
    rw [h _ hmem] at hc
    exact absurd hc (by decide)
  induction t with
  | nil => rw [List.nil_append, bracketed_eq_none (hnot (by decide))]; rfl
  | cons c t ih =>
    have hclose : (t ++ post).contains ']' = t.contains ']' := by
      rw [Bool.eq_iff_iff, List.contains_iff_mem, List.contains_iff_mem, List.mem_append]
      exact ⟨fun hmem => hmem.resolve_right (hnot (by decide)), Or.inl⟩
    rw [List.cons_append, bracketed_cons, bracketed_cons, ih, hclose]
    cases t with
    | nil => simp
    | cons d t => rfl

theorem onStack_append_spaces (t : Text) {post : Text} (h : ∀ c ∈ post, Text.isSpace c = true) :
    onStack (t ++ post) = onStack t := by
  have hhead : ∀ c ∈ post.head?, isLow c = false :=
    fun c hc => not_low_of_space (h c (List.mem_of_mem_head? hc))
  induction t with
  | nil =>
    refine onStack_eq_false fun c hc hopen => ?_
    exact absurd (h c hc) (by rw [hopen]; decide)
  | cons c t ih => rw [List.cons_append, onStack_cons, onStack_cons, ih, startsStack_append hhead]

/-- Blanks around the operands are of no consequence. -/
theorem strip_marks (t : Text) :
    (bracketed t).isSome = (bracketed (Text.strip t)).isSome ∧
      onStack t = onStack (Text.strip t) ∧ t.contains ']' = (Text.strip t).contains ']' := by
  obtain ⟨pre, post, ht, hpre, hpost⟩ := Text.exists_strip t
  have hno : ∀ {u : Text} {c : Char}, (∀ d ∈ u, Text.isSpace d = true) → Text.isSpace c = false →
      c ∉ u := fun hu hc hmem => by
    rw [hu _ hmem] at hc
    exact absurd hc (by decide)
  have hopen : '[' ∉ pre := hno hpre (by decide)
  refine ⟨?_, ?_, ?_⟩
  · conv_lhs => rw [ht]
    rw [bracketed_append_left hopen, bracketed_append_spaces _ hpost]
  · conv_lhs => rw [ht]
    rw [onStack_append fun c hc hopen' => hopen (hopen' ▸ hc), onStack_append_spaces _ hpost]
  · rw [Bool.eq_iff_iff, List.contains_iff_mem, List.contains_iff_mem]
    refine ⟨fun hmem => mem_strip hmem (by decide), fun hmem => ?_⟩
    exact (Text.strip_sublist t).subset hmem

namespace Rendered

variable (x : Rendered)

theorem shape_eq : shape x.text =
    (if x.mnem == "jmp".toList then "call".toList else x.mnem) ++ ' ' ::
      foldZeros 0 (subRegs false 0 x.ops) := rfl

end Rendered

namespace Reallocated

variable {σ : Allocation} {x y : Rendered} (h : Reallocated σ x y)
include h

theorem shape_eq : shape x.text = shape y.text := by
  have hops : foldZeros 0 (subRegs false 0 x.ops) = foldZeros 0 (subRegs false 0 y.ops) :=
    h.ops.zeros.foldZeros_eq 0 (by simp)
  have hmnem : (if x.mnem == "jmp".toList then "call".toList else x.mnem) =
      if y.mnem == "jmp".toList then "call".toList else y.mnem := by
    rcases h.mnem with heq | ⟨hx, hy⟩
    · rw [heq]
    · have hcall : ∀ m ∈ ["jmp".toList, "call".toList],
          (if m == "jmp".toList then "call".toList else m) = "call".toList := by decide
      rw [hcall _ hx, hcall _ hy]
  rw [x.shape_eq, y.shape_eq, hops, hmnem]

theorem behind : Behind (x.text.drop x.mnem.length) (y.text.drop y.mnem.length) := by
  obtain ⟨hxb, hxs, hxc⟩ := strip_marks (x.text.drop x.mnem.length)
  obtain ⟨hyb, hys, hyc⟩ := strip_marks (y.text.drop y.mnem.length)
  refine ⟨x.mnem_append.2, y.mnem_append.2, ?_, ?_, ?_⟩
  · rw [hxc, hyc]
    exact h.ops.contains_close
  · rw [hxb, hyb]
    exact h.ops.bracketed_isSome
  · rw [hxs, hys]
    exact h.ops.onStack_eq

theorem dispatches_eq : dispatches x.text = dispatches y.text := by
  have hbehind := h.behind
  have hx : x.mnem ++ x.text.drop x.mnem.length = x.text := x.mnem_append.1
  have hy : y.mnem ++ y.text.drop y.mnem.length = y.text := y.mnem_append.1
  rw [OMB.dispatches_eq, OMB.dispatches_eq]
  rcases h.mnem with heq | ⟨hxm, hym⟩
  · have harith : isArithmetic x.text = isArithmetic y.text := by
      rw [isArithmetic, isArithmetic]
      exact congrArg _ heq.symm
    have hb := hbehind.bracketed_eq x.mnem
    have hs := hbehind.onStack_eq x.mnem
    rw [hx, ← heq, hy] at hb hs
    rw [hb, hs, harith]
  · -- neither a jump nor a call is arithmetic
    have hplain : ∀ m ∈ ["jmp".toList, "call".toList], '[' ∉ m ∧
        (["imul", "shrx", "shr"].map String.toList).contains m = false := by decide
    obtain ⟨hxo, hxa⟩ := hplain _ hxm
    obtain ⟨hyo, hya⟩ := hplain _ hym
    have hxarith : isArithmetic x.text = false := hxa
    have hyarith : isArithmetic y.text = false := hya
    rw [hxarith, hyarith, ← hx, ← hy, bracketed_append_left hxo, bracketed_append_left hyo,
      onStack_append fun c hc hopen => hxo (hopen ▸ hc),
      onStack_append fun c hc hopen => hyo (hopen ▸ hc), hbehind.bracket, hbehind.stack]

end Reallocated

/-! ## The listing -/

theorem dispatchOps_reallocated {σ : Allocation} {l l' : List Rendered}
    (h : List.Forall₂ (Reallocated σ) l l') :
    dispatchOps (l.map Rendered.text) = dispatchOps (l'.map Rendered.text) := by
  have hlist : ((l.map Rendered.text).filter dispatches).map shape =
      ((l'.map Rendered.text).filter dispatches).map shape := by
    induction h with
    | nil => rfl
    | cons hxy _ ih =>
      rw [List.map_cons, List.map_cons, List.filter_cons, List.filter_cons, hxy.dispatches_eq]
      split_ifs
      · rw [List.map_cons, List.map_cons, hxy.shape_eq, ih]
      · exact ih
  rw [dispatchOps, dispatchOps, hlist]

/-- The oracle is blind to register allocation: of two listings that differ only as their
allocation makes them differ `dispatch_ops` counts the same, and so the verdict on a probe and a
window stays whichever of the two is reallocated. -/
theorem oracle_blind {σ τ : Allocation} {probe probe' window window' : List Rendered}
    (hprobe : List.Forall₂ (Reallocated σ) probe probe')
    (hwindow : List.Forall₂ (Reallocated τ) window window') :
    dispatchOps (probe'.map Rendered.text) = dispatchOps (probe.map Rendered.text) ∧
      dispatchOps (window'.map Rendered.text) = dispatchOps (window.map Rendered.text) ∧
      oracleMissing (probe'.map Rendered.text) (window'.map Rendered.text) =
        oracleMissing (probe.map Rendered.text) (window.map Rendered.text) := by
  have hp := dispatchOps_reallocated hprobe
  have hw := dispatchOps_reallocated hwindow
  refine ⟨hp.symm, hw.symm, ?_⟩
  rw [oracleMissing, oracleMissing, hp, hw]

theorem Realloc.marks {σ : Allocation} {t t' a : Text} (ha : ∀ c ∈ a, isLow c = false)
    (h : Realloc σ t t') : Realloc σ (a ++ t) (a ++ t') := by
  induction a with
  | nil => exact h
  | cons c a ih =>
    exact Realloc.mark (ha c List.mem_cons_self) (ih fun d hd => ha d (List.mem_cons_of_mem c hd))

/-- `rax` for `rcx` and `rbp` for `rdi`. -/
def exchanged : Allocation where
  wide := Equiv.swap (.quad .a) (.quad .c) * Equiv.swap (.pointer .bp) (.pointer .di)
  half := 1
  wide_sp := by decide
  half_sp := rfl

/-- A load and a jump through what it loaded. -/
def tailJump : List Rendered :=
  [⟨"mov rax, QWORD PTR [rbp+0x0]".toList, fun _ hc => Option.some.inj hc ▸ rfl⟩,
    ⟨"jmp QWORD PTR [rax]".toList, fun _ hc => Option.some.inj hc ▸ rfl⟩]

/-- The same, called, with other registers. -/
def memoryCall : List Rendered :=
  [⟨"mov rcx, QWORD PTR [rdi]".toList, fun _ hc => Option.some.inj hc ▸ rfl⟩,
    ⟨"call QWORD PTR [rcx]".toList, fun _ hc => Option.some.inj hc ▸ rfl⟩]

theorem oracle_blind_exchanged :
    dispatchOps (memoryCall.map Rendered.text) = dispatchOps (tailJump.map Rendered.text) ∧
      dispatchOps (memoryCall.map Rendered.text) = dispatchOps (tailJump.map Rendered.text) ∧
      oracleMissing (memoryCall.map Rendered.text) (memoryCall.map Rendered.text) =
        oracleMissing (tailJump.map Rendered.text) (tailJump.map Rendered.text) := by
  have hload : Realloc exchanged
      ("rax".toList ++ (", QWORD PTR ".toList ++ "[rbp+0x0]".toList))
      ("rcx".toList ++ (", QWORD PTR ".toList ++ "[rdi]".toList)) :=
    Realloc.run (Allocation.Run.name ⟨.quad .a, true⟩) (mark_head rfl _)
      (Realloc.marks (by decide) (Realloc.base true (.pointer .bp) none true false Realloc.nil))
  have hjump : Realloc exchanged ("QWORD PTR ".toList ++ "[rax]".toList)
      ("QWORD PTR ".toList ++ "[rcx]".toList) :=
    Realloc.marks (by decide) (Realloc.base true (.quad .a) none false false Realloc.nil)
  have hsame : List.Forall₂ (Reallocated exchanged) tailJump memoryCall := by
    refine List.Forall₂.cons ⟨Or.inl (by decide +kernel), hload⟩
      (List.Forall₂.cons ⟨Or.inr (by decide +kernel), hjump⟩ List.Forall₂.nil)
  exact oracle_blind hsame hsame

end OMB
