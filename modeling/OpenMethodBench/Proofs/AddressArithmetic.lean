import Mathlib
import OpenMethodBench.Proofs.ChainDepth
import OpenMethodBench.Proofs.ChainPaths

/-! Address arithmetic in the published depth: `chain` goes by the brackets, so an `lea`
counts as a load, and folding it into register arithmetic lowers every path through it. -/

namespace OMB

open Depth

/-! ## Memory reads -/

namespace CallWindow

variable (w : CallWindow) (word : ℕ)

/-- The positions of the instructions that read memory, whichever these are. -/
def memoryReads (reads : Insn → Bool) : Finset ℕ :=
  (Finset.range w.insns.length).filter fun k => w.insns[k]?.any reads

/-- The positions `chain` counts a load at, of those a path passes. -/
def loadsOn (counted : List ℕ) : Finset ℕ := counted.toFinset.filter fun k => w.weight word k = 1

end CallWindow

/-! ## Folded addresses -/

/-- `lea d,[b+i*s+c]`, with `d` neither `b` nor `i`. -/
structure Lea where
  dst : Dst
  wide : Bool
  base : Gpr
  index : Gpr
  scale : Size
  disp : Option ℤ
  base_ne : dst.reg ≠ base
  index_ne : dst.reg ≠ index

namespace Lea

def shl : Mnem := ⟨"shl".toList, by decide, by decide, by decide⟩

def add : Mnem := ⟨"add".toList, by decide, by decide, by decide⟩

variable (l : Lea)

def addr : Addr := .based l.wide l.base (some (l.index, l.scale)) l.disp

def insn (a : ℕ) : Insn := ⟨a, (Op.lea l.dst l.addr).text⟩

/-- The arithmetic is 64 bits wide where the address and the destination are. -/
def full : Bool := l.dst.wide && l.wide

def named (g : Gpr) : Dst := ⟨g, l.full⟩

/-- A displacement as the immediate of that width. -/
def immediate (c : ℤ) : ℕ := (c % 2 ^ (if l.full then 64 else 32)).toNat

/-- `mov d,i`, `shl d,log2 s`, `add d,b`, `add d,c`. -/
def arithmetic : List Op :=
  [.move .mov (l.named l.dst.reg) (.reg (l.named l.index).name),
    .arith2 shl (l.named l.dst.reg) (.imm l.scale.bytes.log2),
    .arith2 add (l.named l.dst.reg) (.reg (l.named l.base).name)] ++
  l.disp.toList.map fun c => .arith2 add (l.named l.dst.reg) (.imm (l.immediate c))

/-- The arithmetic in place of the instruction at address `a`. -/
def folded (a : ℕ) : List Insn := l.arithmetic.map fun o => ⟨a, o.text⟩

/-- The last `add` is one `chain` takes for a move of the stack pointer. -/
def MovesStack : Prop := l.dst.reg = .pointer .sp ∧ l.full = false ∧ l.disp.isSome

end Lea

/-! ## Names and numbers -/

theorem gprsOf_name (d : Dst) : gprsOf d.name.text = [d.reg.common] := by
  have h : ∀ (wide : Bool) (g : Gpr), gprsOf (Dst.mk g wide).name.text = [g.common] := by decide
  exact h d.wide d.reg

theorem gprsOf_eq_nil {t : Text} (h : regsOf t = []) : gprsOf t = [] := by
  rw [gprsOf_eq, List.map_eq_nil_iff.mp h]
  rfl

theorem gprsOf_hexText (n : ℕ) : gprsOf (hexText n) = [] := gprsOf_eq_nil (regsOf_hexText n)

theorem gprsOf_disp (d : Option ℤ) (t : Text) :
    gprsOf (t ++ (d.map dispText).getD []) = gprsOf t := by
  rcases d with - | d
  · simp
  · rw [Option.map_some, Option.getD_some, dispText, gprsOf_append (sign_not_low d), gprsOf_hexText,
      List.append_nil]

theorem Lea.gprsOf_addr (l : Lea) : gprsOf l.addr.text = [l.base.common, l.index.common] := by
  have hscale : gprsOf (Nat.toDigits 10 l.scale.bytes) = [] := by
    cases l.scale <;> decide
  have hscaled : gprsOf (Addr.scaledText l.wide l.index l.scale) = [l.index.common] := by
    rw [Addr.scaledText, gprsOf_append (by decide), hscale, gprsOf_name, List.append_nil]
  rw [Lea.addr, Addr.text, gprsOf_disp, gprsOf_append (by decide), gprsOf_name, hscaled]
  rfl

theorem Lea.addr_isSlot (l : Lea) : l.addr.isSlot = false := by
  unfold Lea.addr Addr.isSlot
  split
  · rename_i heq
    simp at heq
  · rfl

/-! ## Moves of the stack pointer -/

theorem espOffset_of_ne {d : Text} (hd : ∀ c ∈ d, isLow c = true) (hesp : d ≠ "esp".toList)
    (u : Text) : espOffset (d ++ ',' :: u) = none := by
  have hunspaced : unspaced (d ++ ',' :: u) = d ++ ',' :: unspaced u := by
    have hspace : ∀ c ∈ d, (c != ' ') = true := fun c hc =>
      bne_iff_ne.mpr (ne_of_low (hd c hc) (by decide))
    rw [unspaced, List.filter_append, List.filter_eq_self.mpr hspace]
    rfl
  have hcomma : ∀ c ∈ d, (c != ',') = true := fun c hc =>
    bne_iff_ne.mpr (ne_of_low (hd c hc) (by decide))
  unfold espOffset
  split
  · rename_i h heq
    rw [hunspaced] at heq
    have htake := congrArg (List.takeWhile (· != ',')) heq
    rw [Text.takeWhile_append_of_head hcomma (by simp)] at htake
    exact absurd htake hesp
  · rfl

theorem espOffset_reg (d e : Dst) : espOffset (d.name.text ++ ',' :: e.name.text) = none := by
  by_cases h : d.name.text = "esp".toList
  · have hesp : ∀ (wide : Bool) (g : Gpr),
        espOffset ("esp".toList ++ ',' :: (Dst.mk g wide).name.text) = none := by decide
    rw [h]
    exact hesp e.wide e.reg
  · exact espOffset_of_ne (name_low _) h _

theorem name_esp {d : Dst} (h : d.name.text = "esp".toList) :
    d.reg = .pointer .sp ∧ d.wide = false := by
  have hname : ∀ (wide : Bool) (g : Gpr), (Dst.mk g wide).name.text = "esp".toList →
      g = .pointer .sp ∧ wide = false := by decide
  exact hname d.wide d.reg h

/-! ## The two forms -/

section Forms

variable (l : Lea) (word a : ℕ) (s : ChainState)

theorem deltaAfter_lea (delta : ℤ) : deltaAfter word delta (l.insn a) = delta := by
  have hmnem : (l.insn a).mnem = "lea".toList := insn_mnem ⟨a, a, .lea l.dst l.addr⟩
  exact deltaAfter_of_ne (by rw [hmnem]; decide) (by rw [hmnem]; decide) (by rw [hmnem]; decide)

variable {m : Text}

/-- An instruction that leaves `delta` alone: no `add` or `sub`, or none of a constant to
`esp`. -/
def Still (m ops : Text) : Prop := m ∉ ["add", "sub"].map String.toList ∨ espOffset ops = none

theorem Still.deltaAfter_eq (hm : Writes m) (d : Dst) {o : Operand}
    (h : Still m (d.name.text ++ ',' :: o.text)) (delta : ℤ) :
    deltaAfter word delta ⟨a, m ++ ' ' :: Text.join ',' [d.name.text, o.text]⟩ = delta := by
  have hs : ∀ t ∈ [o.text], Piece t := by simp [piece_operand]
  obtain ⟨hmnem, hops, -⟩ := define_fields a hm d hs
  have hpush : m ≠ "push".toList := fun h => hm.2.2 (h ▸ by decide)
  rcases h with hm | hesp
  · have hadd : m ≠ "add".toList := fun h => hm (h ▸ by decide)
    have hsub : m ≠ "sub".toList := fun h => hm (h ▸ by decide)
    exact deltaAfter_of_ne (by rwa [hmnem]) (by rwa [hmnem]) (by rwa [hmnem])
  · rw [deltaAfter, hmnem, hops, Text.join_singleton, hesp, beq_eq_false_iff_ne.mpr hpush]
    simp

/-- Two operands without a place in memory. -/
theorem chainStep_values (hm : Writes m) (hpop : m ≠ "pop".toList) (d : Dst) {o : Operand}
    (hno : '[' ∉ o.text) :
    chainStep word s ⟨a, m ++ ' ' :: Text.join ',' [d.name.text, o.text]⟩ =
      some ⟨Function.update s.dep d.reg.common
        (max (deepest s.dep (gprsOf o.text)) (kept m 2 (s.dep d.reg.common))), s.stack,
        deltaAfter word s.delta ⟨a, m ++ ' ' :: Text.join ',' [d.name.text, o.text]⟩⟩ := by
  have hs : ∀ t ∈ [o.text], Piece t := by simp [piece_operand]
  have hno' : '[' ∉ Text.join ',' [o.text] := by simpa using hno
  refine (define_step a hm hpop d hs word).trans ?_
  rw [depthOf_values a hm d hs hno']
  simp

/-- An immediate changes no depth. -/
theorem chainStep_imm (m : Mnem) (d : Dst) (n : ℕ) (hmove : m.text ∉ chainMoves)
    (hpop : m.text ≠ "pop".toList) :
    chainStep word s ⟨a, (Op.arith2 m d (.imm n)).text⟩ =
      some { s with delta := deltaAfter word s.delta ⟨a, (Op.arith2 m d (.imm n)).text⟩ } := by
  refine (chainStep_values word a s m.writes hpop d (o := .imm n) (no_bracket_hexText n)).trans ?_
  rw [Operand.text, gprsOf_hexText, kept, if_pos ⟨hmove, le_refl 2⟩]
  simp [deepest, greatest, Op.text, Op.mnem, Op.operands, Operand.text]

/-- A register keeps the depth of the first operand, or a move replaces it. -/
theorem chainStep_reg (hm : Writes m) (hpop : m ≠ "pop".toList) (d e : Dst) :
    chainStep word s ⟨a, m ++ ' ' :: Text.join ',' [d.name.text, (Operand.reg e.name).text]⟩ =
      some ⟨Function.update s.dep d.reg.common
        (max (s.dep e.reg.common) (kept m 2 (s.dep d.reg.common))), s.stack, s.delta⟩ := by
  have hstill : Still m (d.name.text ++ ',' :: (Operand.reg e.name).text) :=
    .inr (espOffset_reg d e)
  refine (chainStep_values word a s hm hpop d (o := .reg e.name) (no_bracket_name _)).trans ?_
  rw [hstill.deltaAfter_eq word a hm d, Operand.text, gprsOf_name]
  simp [deepest, greatest]

/-- The `add` of the displacement. -/
theorem foldlM_disp :
    ∃ delta, ((l.disp.toList.map fun c => Op.arith2 Lea.add (l.named l.dst.reg)
        (.imm (l.immediate c))).map fun o => Insn.mk a o.text).foldlM (chainStep word) s =
          some { s with delta := delta } ∧ (¬ l.MovesStack → delta = s.delta) := by
  rcases hd : l.disp with - | c
  · exact ⟨s.delta, rfl, fun _ => rfl⟩
  · refine ⟨deltaAfter word s.delta
      ⟨a, (Op.arith2 Lea.add (l.named l.dst.reg) (.imm (l.immediate c))).text⟩, ?_, fun h => ?_⟩
    · have hstep := chainStep_imm word a s Lea.add (l.named l.dst.reg) (l.immediate c) (by decide)
        (by decide)
      simpa using hstep
    · have hesp : (l.named l.dst.reg).name.text ≠ "esp".toList := fun hesp =>
        h ⟨(name_esp hesp).1, (name_esp hesp).2, by rw [hd]; rfl⟩
      have hstill : Still Lea.add.text
          ((l.named l.dst.reg).name.text ++ ',' :: (Operand.imm (l.immediate c)).text) :=
        .inr (espOffset_of_ne (name_low _) hesp _)
      exact hstill.deltaAfter_eq word a Lea.add.writes _ s.delta

theorem chainStep_shl : chainStep word s
    ⟨a, (Op.arith2 Lea.shl (l.named l.dst.reg) (.imm l.scale.bytes.log2)).text⟩ = some s := by
  have hstill : Still Lea.shl.text
      ((l.named l.dst.reg).name.text ++ ',' :: (Operand.imm l.scale.bytes.log2).text) :=
    .inl (by decide)
  have hdelta := hstill.deltaAfter_eq word a Lea.shl.writes _ s.delta
  refine (chainStep_imm word a s Lea.shl _ _ (by decide) (by decide)).trans ?_
  exact congrArg (fun delta => some { s with delta := delta }) hdelta

/-- The register arithmetic leaves the deepest of its registers. -/
theorem foldlM_folded :
    ∃ delta, (l.folded a).foldlM (chainStep word) s =
        some ⟨Function.update s.dep l.dst.reg.common
          (max (s.dep l.base.common) (s.dep l.index.common)), s.stack, delta⟩ ∧
      (¬ l.MovesStack → delta = s.delta) := by
  have hbase : l.base.common ≠ l.dst.reg.common := fun he => l.base_ne (common_injective he).symm
  have hmov : chainStep word s
      ⟨a, (Op.move .mov (l.named l.dst.reg) (.reg (l.named l.index).name)).text⟩ =
      some ⟨Function.update s.dep l.dst.reg.common (s.dep l.index.common), s.stack, s.delta⟩ := by
    refine (chainStep_reg word a s mov_writes (by decide) _ _).trans ?_
    rw [kept, if_neg (by decide), Nat.max_zero]
    rfl
  have hadd : chainStep word
      ⟨Function.update s.dep l.dst.reg.common (s.dep l.index.common), s.stack, s.delta⟩
      ⟨a, (Op.arith2 Lea.add (l.named l.dst.reg) (.reg (l.named l.base).name)).text⟩ =
      some ⟨Function.update s.dep l.dst.reg.common
        (max (s.dep l.base.common) (s.dep l.index.common)), s.stack, s.delta⟩ := by
    refine (chainStep_reg word a _ Lea.add.writes (by decide) _ _).trans ?_
    rw [kept, if_pos ⟨by decide, le_refl 2⟩]
    simp [Lea.named, Function.update_of_ne hbase]
  obtain ⟨delta, hdisp, hdelta⟩ := foldlM_disp l word a ⟨Function.update s.dep l.dst.reg.common
    (max (s.dep l.base.common) (s.dep l.index.common)), s.stack, s.delta⟩
  refine ⟨delta, ?_, hdelta⟩
  rw [Lea.folded, Lea.arithmetic, List.map_append, List.foldlM_append]
  simp only [List.map_cons, List.map_nil, List.foldlM_cons, List.foldlM_nil, hmov, hadd,
    chainStep_shl, Option.bind_eq_bind, Option.bind_some, Option.pure_def]
  exact hdisp

/-- What the graph has for the `lea`: a load of its address. -/
theorem useAt_lea (win : List Insn) (k : ℕ) :
    useAt word win k (l.insn a) = ⟨some (.inl l.dst.reg.common),
        [.inl l.base.common, .inl l.index.common], []⟩ ∧
      (l.insn a).stored = none ∧ loadsAt word win k (l.insn a) = true := by
  have hs : ∀ t ∈ [[] ++ (Place.at l.addr).text], Piece t := by simp [piece_place]
  obtain ⟨hmnem, -, -, hstores, hdst⟩ := define_fields a lea_writes.1 l.dst hs
  obtain ⟨hslot, hbracket⟩ := load_fields a lea_writes.1 l.dst (by simp) l.addr_isSlot hs
  change (l.insn a).mnem = _ at hmnem
  change (l.insn a).stores = _ at hstores
  change (l.insn a).gprDst = _ at hdst
  change (l.insn a).slot = _ at hslot
  change bracketed (l.insn a).ops = _ at hbracket
  have hforward : forwardAt word win k (l.insn a) = none := by
    rw [forwardAt, hslot, hstores]
    rfl
  have hstored : (l.insn a).stored = none := by
    rw [Insn.stored, hstores]
    rfl
  refine ⟨?_, hstored, ?_⟩
  · rw [useAt, isDispatchCall, useOf, hmnem, hstored, hdst, hforward, addrsAt, hforward, hstores,
      hbracket, Insn.keepsDst, hmnem, Option.map_some, Option.getD_some, l.gprsOf_addr]
    rfl
  · rw [loadsAt, hforward, hstores, hbracket]
    rfl

end Forms

/-! ## Without slots the stack pointer does not matter -/

section Slotless

variable {x : Insn} (hx : x.slot = none) {s t : ChainState} (h : s.dep = t.dep)

include hx h

theorem loadedBy_congr : loadedBy s x = loadedBy t x := by
  rw [loadedBy, loadedBy, hx, h]
  rfl

theorem depsAfter_congr : (depsAfter s x).dep = (depsAfter t x).dep := by
  have hstored : x.stored = none := by rw [Insn.stored, hx, ite_self]
  unfold depsAfter
  rw [hstored]
  rcases x.gprDst with - | dst
  · exact h
  · simp only [depthOf, loadedBy_congr hx h, h]

theorem callDepth_congr : callDepth s x = callDepth t x := by
  rw [callDepth, callDepth, loadedBy_congr hx h, h]

end Slotless

/-- Where no slot is named, only the depths of the registers matter. -/
theorem chainFrom_congr {win : List Insn} (hwin : ∀ x ∈ win, x.slot = none) (word : ℕ)
    {s t : ChainState} (h : s.dep = t.dep) : chainFrom word s win = chainFrom word t win := by
  induction win generalizing s t with
  | nil => rfl
  | cons x win ih =>
    have hx := hwin x List.mem_cons_self
    have hrest := fun {s t : ChainState} => ih (fun y hy => hwin y (List.mem_cons_of_mem x hy))
      (s := s) (t := t)
    rw [chainFrom, chainFrom, callDepth_congr hx h, chainStep, chainStep]
    split_ifs with hcall hdirect hpop
    · rfl
    · exact hrest h
    · rcases x.parts.head? with - | p
      · rfl
      · exact hrest (by simp [h])
    · exact hrest (depsAfter_congr hx h)

/-! ## The window with its address folded -/

section Fold

variable {w : CallWindow} {l : Lea} {a : ℕ} {pre post : List Insn}

/-- The state after the arithmetic follows the graph in which the `lea` weighs nothing. -/
theorem Follows.folded (hwin : w.insns = pre ++ l.insn a :: (post ++ [w.call])) {word : ℕ}
    {weight : ℕ → ℕ} (hzero : weight pre.length = 0) {s : ChainState}
    (h : Follows word w.insns pre.length s (depthAt weight (usesOf word w.insns) pre.length)) :
    Follows word w.insns (pre ++ [l.insn a]).length
      ⟨Function.update s.dep l.dst.reg.common
        (max (s.dep l.base.common) (s.dep l.index.common)), s.stack, s.delta⟩
      (depthAt weight (usesOf word w.insns) (pre ++ [l.insn a]).length) := by
  have hx : w.insns[pre.length]? = some (l.insn a) := by rw [hwin]; simp
  obtain ⟨huse, hstored, -⟩ := useAt_lea l word a w.insns pre.length
  have hspill : spillAt word w.insns pre.length = none := by
    rw [spillAt, hx, Option.bind_some, hstored]
    exact ite_self _
  have hlength : (pre ++ [l.insn a]).length = pre.length + 1 := by simp
  rw [hlength, depthAt_succ (usesOf_getElem? hx), huse, hzero]
  have hupdate := h.update_reg hx (r := l.dst.reg.common)
    (n := max (s.dep l.base.common) (s.dep l.index.common)) hspill (deltaAfter_lea l word a _).symm
  rw [h.dep, h.dep] at hupdate ⊢
  simpa [after, entry, greatest] using hupdate

theorem folded_direct (l : Lea) (a : ℕ) : ∀ x ∈ l.folded a, isDispatchCall x = false := by
  intro x hx
  obtain ⟨o, -, rfl⟩ := List.mem_map.mp hx
  have hmnem := insn_mnem ⟨a, a, o⟩
  have hcall : ((Insn.mk a o.text).mnem == "call".toList) = false :=
    beq_eq_false_iff_ne.mpr (hmnem ▸ (op_mnem o).2.2)
  rw [isDispatchCall, hcall, Bool.false_and]

/-- Folding an `lea` away is taking its weight in the graph. -/
theorem chain_folded (hbody : w.body = pre ++ l.insn a :: post)
    (hstack : l.MovesStack → ∀ x ∈ post ++ [w.call], x.slot = none) (word : ℕ) :
    chain (pre ++ l.folded a ++ post ++ [w.call]) word =
      some (w.depth word (Function.update (w.weight word) pre.length 0)) := by
  have hwin : w.insns = pre ++ l.insn a :: (post ++ [w.call]) := by
    rw [CallWindow.insns, hbody, List.append_assoc, List.cons_append]
  have hpassed : ∀ x ∈ pre, x.Passed := fun x hx =>
    w.passed x (hbody ▸ List.mem_append_left _ hx)
  have hother : ∀ j, j ≠ pre.length →
      Function.update (w.weight word) pre.length 0 j = w.weight word j :=
    fun j hj => Function.update_of_ne hj _ _
  obtain ⟨s, hs, hfollow⟩ := Follows.run (Function.update (w.weight word) pre.length 0) [] hwin
    hpassed (fun j _ hj => hother j (by simpa using hj.ne)) (Follows.init _ fun _ => rfl)
  rw [List.nil_append] at hfollow
  obtain ⟨delta, hfold, hdelta⟩ := foldlM_folded l word a s
  have hrest := CallWindow.chainFrom_rest (pre ++ [l.insn a]) (by simpa using hbody)
    (fun j hj => hother j (by simp at hj; omega))
    (hfollow.folded hwin (Function.update_self _ _ _))
  rw [List.append_assoc, List.append_assoc, chain,
    chainFrom_append (fun x hx => (hpassed x hx).direct), hs, Option.bind_some,
    chainFrom_append (folded_direct l a), hfold, Option.bind_some, ← hrest]
  by_cases hm : l.MovesStack
  · exact chainFrom_congr (hstack hm) word rfl
  · rw [hdelta hm]

end Fold

/-! ## The published depth -/

theorem CallWindow.weight_le_one (w : CallWindow) (word k : ℕ) : w.weight word k ≤ 1 := by
  unfold CallWindow.weight weightAt
  rcases w.insns[k]? with - | x
  · exact Nat.zero_le _
  · simp only [Option.map_some, Option.getD_some]
    split_ifs <;> decide

/-- What a path costs is what it counts. -/
theorem CallWindow.cost_eq {w : CallWindow} {word : ℕ} {counted : List ℕ}
    (h : w.PathToCall word counted) :
    cost (w.weight word) counted = (w.loadsOn word counted).card :=
  cost_eq_card (w.weight_le_one word) h.nodup

/-- The published depth is what a deepest path counts. -/
theorem CallWindow.chain_eq_card {w : CallWindow} {word : ℕ} {counted : List ℕ}
    (h : Deepest (w.weight word) (w.PathToCall word) counted) :
    chain w.insns word = some (w.loadsOn word counted).card := by
  obtain ⟨⟨other, hother, hcost⟩, hle⟩ := w.isGreatest_depth word (w.weight word)
  have hdepth : w.depth word (w.weight word) = cost (w.weight word) counted :=
    Nat.le_antisymm (hcost ▸ h.2 other hother) (hle ⟨counted, h.1, rfl⟩)
  rw [w.chain_eq, hdepth, CallWindow.cost_eq h.1]

/-- The published depth is at most the number of memory reads where what some deepest path
counts are memory reads; a deepest path that passes every memory read leaves no other way. An
`lea` folded into register arithmetic leaves the depth alone exactly when some deepest path does
not pass the `lea`. -/
theorem address_arithmetic_iff (w : CallWindow) (word : ℕ) (reads : Insn → Bool) :
    ((∃ counted, Deepest (w.weight word) (w.PathToCall word) counted ∧
        w.loadsOn word counted ⊆ w.memoryReads reads) →
      ∃ n, chain w.insns word = some n ∧ n ≤ (w.memoryReads reads).card) ∧
    (∀ counted, Deepest (w.weight word) (w.PathToCall word) counted →
      w.memoryReads reads ⊆ w.loadsOn word counted →
      ((∃ n, chain w.insns word = some n ∧ n ≤ (w.memoryReads reads).card) ↔
        w.loadsOn word counted ⊆ w.memoryReads reads)) ∧
    ∀ (l : Lea) (a : ℕ) (pre post : List Insn), w.body = pre ++ l.insn a :: post →
      (l.MovesStack → ∀ x ∈ post ++ [w.call], x.slot = none) →
      (chain (pre ++ l.folded a ++ post ++ [w.call]) word = chain w.insns word ↔
        ∃ counted, Deepest (w.weight word) (w.PathToCall word) counted ∧
          pre.length ∉ counted) := by
  have hgreatest := w.isGreatest_depth word (w.weight word)
  refine ⟨?_, ?_, fun l a pre post hbody hstack => ?_⟩
  · rintro ⟨counted, hdeep, hsub⟩
    exact ⟨_, CallWindow.chain_eq_card hdeep, Finset.card_le_card hsub⟩
  · intro counted hdeep hall
    rw [CallWindow.chain_eq_card hdeep]
    simp only [Option.some.injEq, exists_eq_left']
    refine ⟨fun hle => ?_, Finset.card_le_card⟩
    rw [Finset.eq_of_subset_of_card_le hall hle]
  · have hle : ∀ k, Function.update (w.weight word) pre.length 0 k ≤ w.weight word k := by
      intro k
      by_cases hk : k = pre.length
      · subst hk
        simp
      · rw [Function.update_of_ne hk]
    have hone : w.weight word pre.length = 1 := by
      have hx : w.insns[pre.length]? = some (l.insn a) := by
        rw [CallWindow.insns, hbody]
        simp
      obtain ⟨-, hstored, hloads⟩ := useAt_lea l word a w.insns pre.length
      have hpop : ((l.insn a).mnem == "pop".toList) = false := by
        rw [show (l.insn a).mnem = "lea".toList from insn_mnem ⟨a, a, .lea l.dst l.addr⟩]
        decide
      rw [CallWindow.weight, weightAt_other hx hpop hstored, hloads]
      rfl
    have hsame : ∀ k, Function.update (w.weight word) pre.length 0 k = w.weight word k ↔
        k ≠ pre.length := by
      intro k
      by_cases hk : k = pre.length
      · subst hk
        simp [hone]
      · simp [hk]
    have hiff := isGreatest_eq_iff hle hgreatest
      (w.isGreatest_depth word (Function.update (w.weight word) pre.length 0))
    rw [chain_folded hbody hstack, w.chain_eq, Option.some.injEq, hiff]
    simp only [hsame]
    exact exists_congr fun counted => and_congr_right fun _ =>
      ⟨fun h hk => h _ hk rfl, fun h k hk he => h (he ▸ hk)⟩

/-- `lea rax,[rbx+rcx*8+0x10]`. -/
def slotLea : Lea where
  dst := ⟨.quad .a, true⟩
  wide := true
  base := .quad .b
  index := .quad .c
  scale := .qword
  disp := some 0x10
  base_ne := by decide
  index_ne := by decide

/-- Two dependent loads, an `lea` that is not among them, and the call. -/
def leaBeside : CallWindow where
  body := [⟨0, "mov rdx,QWORD PTR [rdi]".toList⟩, ⟨3, "mov rdx,QWORD PTR [rdx+0x8]".toList⟩,
    slotLea.insn 7]
  call := ⟨12, "call QWORD PTR [rdx]".toList⟩
  passed := by decide +kernel
  dispatches := by decide +kernel
  operand := by decide +kernel

/-- The loads and the call, not the `lea`. -/
theorem lea_beside_deepest :
    let reads := fun x : Insn => x.mnem != "lea".toList
    (∃ n, chain leaBeside.insns 8 = some n ∧ n ≤ (leaBeside.memoryReads reads).card) ∧
      ∃ counted, Deepest (leaBeside.weight 8) (leaBeside.PathToCall 8) counted ∧ 2 ∉ counted := by
  intro reads
  obtain ⟨hbound, -, hfold⟩ := address_arithmetic_iff leaBeside 8 reads
  obtain ⟨counted, hdeep, hlea⟩ := (hfold slotLea 7
    [⟨0, "mov rdx,QWORD PTR [rdi]".toList⟩, ⟨3, "mov rdx,QWORD PTR [rdx+0x8]".toList⟩] [] rfl
    (fun h => absurd h.1 (by decide))).mp (by decide +kernel)
  refine ⟨hbound ⟨counted, hdeep, fun k hk => ?_⟩, counted, hdeep, hlea⟩
  obtain ⟨hmem, hone⟩ := Finset.mem_filter.mp hk
  have hreads : ∀ k ∈ Finset.range 4, k ≠ 2 → k ∈ leaBeside.memoryReads reads := by decide +kernel
  have hrange : k ∈ Finset.range 4 := by
    by_contra hk
    have hout : leaBeside.insns[k]? = none :=
      List.getElem?_eq_none (by simpa [leaBeside, CallWindow.insns] using hk)
    rw [CallWindow.weight, weightAt, hout] at hone
    exact absurd hone (by simp)
  refine hreads k hrange fun h => hlea ?_
  subst h
  exact List.mem_toFinset.mp hmem

/-- The `lea` alone before the call. -/
def leaAlone : CallWindow where
  body := [slotLea.insn 0]
  call := ⟨5, "call rax".toList⟩
  passed := by decide +kernel
  dispatches := by decide +kernel
  operand := by decide +kernel

/-- No instruction reads memory, and the published depth is 1; with the address folded into
arithmetic it is 0. -/
theorem lea_counts_as_load :
    (¬ ∃ n, chain leaAlone.insns 8 = some n ∧
        n ≤ (leaAlone.memoryReads fun _ => false).card) ∧
      chain ([] ++ slotLea.folded 0 ++ [] ++ [leaAlone.call]) 8 ≠ chain leaAlone.insns 8 := by
  have hchain : chain leaAlone.insns 8 = some 1 := by decide +kernel
  refine ⟨?_, by decide +kernel⟩
  rintro ⟨n, hn, hle⟩
  rw [hchain, Option.some.injEq] at hn
  rw [CallWindow.memoryReads, Finset.filter_false_of_mem (by simp [leaAlone, CallWindow.insns]),
    Finset.card_empty] at hle
  omega

end OMB
