import OpenMethodBench.Proofs.ChainText

/-! `chain` as the depths of a graph of definitions and uses: registers and the stack
slots it has seen a spill to are the locations, and the pass over the text is the pass
over that graph. -/

namespace OMB

open Depth

/-- A register under its common name, or a stack slot by its key. -/
abbrev Loc := Text ⊕ ℤ

/-! ## What each instruction defines and uses -/

section Uses

variable (word : ℕ) (win : List Insn)

/-- How far `chain` takes `esp` to have been pushed down before a position. -/
def deltaAt (k : ℕ) : ℤ := (win.take k).foldl (deltaAfter word) 0

/-- The key of the slot an instruction spills to. -/
def spillAt (k : ℕ) : Option ℤ :=
  win[k]?.bind fun x =>
    if x.mnem == "call".toList || x.mnem == "pop".toList then none
    else x.stored.map fun offset : ℕ => (offset : ℤ) - deltaAt word win k

def spilledBefore (k : ℕ) (key : ℤ) : Bool :=
  (List.range k).any fun j => spillAt word win j == some key

/-- The key of the spilled slot an instruction reads. -/
def forwardAt (k : ℕ) (x : Insn) : Option ℤ :=
  if x.stores then none
  else (x.slot.map fun offset : ℕ => (offset : ℤ) - deltaAt word win k).filter
    (spilledBefore word win k)

/-- The registers in the brackets of a load that no spilled slot serves. -/
def addrsAt (k : ℕ) (x : Insn) : List Loc :=
  if x.stores || (forwardAt word win k x).isSome then []
  else ((bracketed x.ops).map gprsOf).getD [] |>.map .inl

/-- Does the instruction count as a load? -/
def loadsAt (k : ℕ) (x : Insn) : Bool :=
  !x.stores && (forwardAt word win k x).isNone && (bracketed x.ops).isSome

/-- Definition and uses of an instruction before the call. -/
def useOf (k : ℕ) (x : Insn) : Use Loc :=
  if x.mnem == "call".toList then Use.skip
  else if x.mnem == "pop".toList then ⟨x.parts.head?.map fun p => .inl (canon p), [], []⟩
  else
    match x.stored, x.gprDst with
    | some offset, _ =>
      ⟨some (.inr (offset - deltaAt word win k)), [], (gprsOf (x.parts.getLastD [])).map .inl⟩
    | none, some dst =>
      ⟨some (.inl dst), addrsAt word win k x,
        (forwardAt word win k x).toList.map .inr ++
          ((if (bracketed x.ops).isSome then [] else gprsOf (Text.join ',' x.parts.tail)) ++
            if x.keepsDst then [dst] else []).map .inl⟩
    | none, none => Use.skip

/-- What the indirect call reads. -/
def callUse (k : ℕ) (x : Insn) : Use Loc :=
  ⟨none, addrsAt word win k x,
    (forwardAt word win k x).toList.map .inr ++
      (if (bracketed x.ops).isSome then [] else gprsOf x.ops).map .inl⟩

def useAt (k : ℕ) (x : Insn) : Use Loc :=
  if isDispatchCall x then callUse word win k x else useOf word win k x

def usesOf : List (Use Loc) := win.mapIdx (useAt word win)

/-- One for a load, or the `pop` of the return address; a spill forwards what it stores. -/
def weightAt (k : ℕ) : ℕ :=
  (win[k]?.map fun x =>
    if x.mnem == "pop".toList || (x.stored.isNone && loadsAt word win k x) then 1 else 0).getD 0

end Uses

/-! ## The state of the pass -/

/-- The state of `chain` before a position, in terms of the depths of the graph. -/
structure Follows (word : ℕ) (win : List Insn) (k : ℕ) (s : ChainState) (d : Loc → ℕ) : Prop where
  dep : ∀ r, s.dep r = d (.inl r)
  stack : ∀ key, s.stack key = if spilledBefore word win k key then some (d (.inr key)) else none
  delta : s.delta = deltaAt word win k

section Step

variable {word : ℕ} {win : List Insn} {k : ℕ} {x : Insn} {s : ChainState} {d : Loc → ℕ}

theorem deepest_eq (h : Follows word win k s d) (rs : List Text) :
    deepest s.dep rs = greatest d (rs.map .inl) := by
  rw [deepest, greatest, greatest, List.map_map]
  exact congrArg (List.foldr max 0) (List.map_congr_left fun r _ => h.dep r)

theorem deltaAt_succ (hx : win[k]? = some x) :
    deltaAt word win (k + 1) = deltaAfter word (deltaAt word win k) x := by
  rw [deltaAt, List.take_add_one, hx, List.foldl_append]
  rfl

theorem spilledBefore_succ (key : ℤ) :
    spilledBefore word win (k + 1) key =
      (spilledBefore word win k key || spillAt word win k == some key) := by
  simp [spilledBefore, List.range_succ]

/-- A spilled slot forwards the depth of what it holds. -/
theorem loadedBy_forward (h : Follows word win k s d) {key : ℤ}
    (hf : forwardAt word win k x = some key) : loadedBy s x = some (d (.inr key)) := by
  unfold forwardAt at hf
  split_ifs at hf with hstores
  obtain ⟨hkey, hspilled⟩ := Option.filter_eq_some_iff.mp hf
  obtain ⟨offset, hslot, rfl⟩ := Option.map_eq_some_iff.mp hkey
  have hstack := h.stack (offset - deltaAt word win k)
  rw [hspilled, if_pos rfl] at hstack
  rw [loadedBy, if_neg hstores, hslot, Option.bind_some, h.delta, hstack]
  rfl

/-- Any other load is one deeper than its address. -/
theorem loadedBy_load (h : Follows word win k s d) (hf : forwardAt word win k x = none)
    (hstores : x.stores = false) :
    loadedBy s x =
      (bracketed x.ops).map fun _ => 1 + greatest d (addrsAt word win k x) := by
  have hstack : (x.slot.bind fun offset => s.stack (offset - s.delta)) = none := by
    rcases hslot : x.slot with - | offset
    · rfl
    · have hnot : spilledBefore word win k (offset - deltaAt word win k) = false := by
        rw [forwardAt, hstores, hslot] at hf
        simpa using hf
      rw [Option.bind_some, h.delta, h.stack, hnot]
      rfl
  rw [loadedBy, hstores, hstack, addrsAt, hstores, hf]
  rcases bracketed x.ops with - | inner
  · rfl
  · simp [deepest_eq h, Nat.add_comm]

/-- What a load brings to the depth of the destination. -/
theorem loadedBy_getD (h : Follows word win k s d) :
    (loadedBy s x).getD 0 =
      max ((if loadsAt word win k x then 1 else 0) + greatest d (addrsAt word win k x))
        (greatest d ((forwardAt word win k x).toList.map .inr)) := by
  rcases hstores : x.stores with - | -
  · rcases hf : forwardAt word win k x with - | key
    · rw [loadedBy_load h hf hstores, loadsAt, hf, hstores]
      rcases hb : bracketed x.ops with - | inner
      · simp [addrsAt, hb, greatest]
      · simp [greatest]
    · rw [loadedBy_forward h hf, loadsAt, addrsAt, hf]
      simp [greatest]
  · simp [loadedBy, loadsAt, addrsAt, forwardAt, hstores, greatest]

theorem depthOf_eq (h : Follows word win k s d) (dst : Text) :
    depthOf s x dst =
      entry (if loadsAt word win k x then 1 else 0) d ⟨some (.inl dst), addrsAt word win k x,
        (forwardAt word win k x).toList.map .inr ++
          ((if (bracketed x.ops).isSome then [] else gprsOf (Text.join ',' x.parts.tail)) ++
            if x.keepsDst then [dst] else []).map .inl⟩ := by
  have hsources : (if (bracketed x.ops).isSome then 0
      else deepest s.dep (gprsOf (Text.join ',' x.parts.tail))) = greatest d
        ((if (bracketed x.ops).isSome then [] else gprsOf (Text.join ',' x.parts.tail)).map .inl) := by
    split_ifs
    · rfl
    · exact deepest_eq h _
  have hkept : (if x.keepsDst then s.dep dst else 0) =
      greatest d ((if x.keepsDst then [dst] else []).map .inl) := by
    split_ifs
    · simp [greatest, h.dep]
    · rfl
  rw [depthOf, loadedBy_getD h, hsources, hkept]
  dsimp only [entry]
  rw [List.map_append, greatest_append, greatest_append]
  omega

/-- What the pass does with `stack` at a spill. -/
theorem Follows.stack_update (h : Follows word win k s d) {key : ℤ} {n : ℕ}
    (hspill : spillAt word win k = some key) (other : ℤ) :
    Function.update s.stack key (some n) other =
      if spilledBefore word win (k + 1) other
      then some (Function.update d (.inr key) n (.inr other)) else none := by
  rw [spilledBefore_succ, hspill]
  by_cases hk : other = key
  · subst hk
    simp
  · rw [Function.update_of_ne hk, Function.update_of_ne (fun he => hk (Sum.inr.inj he)), h.stack]
    have hne : (some key == some other) = false := by simpa using Ne.symm hk
    rw [hne, Bool.or_false]

theorem Follows.stack_same (h : Follows word win k s d) (hspill : spillAt word win k = none)
    {d' : Loc → ℕ} (hd : ∀ key, d' (.inr key) = d (.inr key)) (other : ℤ) :
    s.stack other =
      if spilledBefore word win (k + 1) other then some (d' (.inr other)) else none := by
  rw [spilledBefore_succ, hspill, h.stack, hd]
  simp

theorem deltaAfter_of_ne {delta : ℤ} (hsub : x.mnem ≠ "sub".toList) (hadd : x.mnem ≠ "add".toList)
    (hpush : x.mnem ≠ "push".toList) : deltaAfter word delta x = delta := by
  rw [deltaAfter, beq_eq_false_iff_ne.mpr hsub, beq_eq_false_iff_ne.mpr hadd,
    beq_eq_false_iff_ne.mpr hpush]
  rfl

/-- What a change of the depth of a register leaves of the invariant. -/
theorem Follows.update_reg (h : Follows word win k s d) (hx : win[k]? = some x) {r : Text} {n : ℕ}
    (hspill : spillAt word win k = none) {delta : ℤ}
    (hdelta : delta = deltaAfter word s.delta x) :
    Follows word win (k + 1) { s with dep := Function.update s.dep r n, delta := delta }
      (Function.update d (.inl r) n) := by
  refine ⟨fun q => ?_, h.stack_same hspill fun key => by simp, ?_⟩
  · by_cases hq : q = r
    · subst hq
      simp
    · have hne : (Sum.inl q : Loc) ≠ .inl r := fun he => hq (Sum.inl.inj he)
      exact (Function.update_of_ne hq _ _).trans
        ((h.dep q).trans (Function.update_of_ne hne _ _).symm)
  · rw [hdelta, h.delta, deltaAt_succ hx]

theorem Follows.same (h : Follows word win k s d) (hx : win[k]? = some x)
    (hspill : spillAt word win k = none) {delta : ℤ}
    (hdelta : delta = deltaAfter word s.delta x) :
    Follows word win (k + 1) { s with delta := delta } d :=
  ⟨h.dep, h.stack_same hspill fun _ => rfl, by rw [hdelta, h.delta, deltaAt_succ hx]⟩

theorem Follows.step_call (h : Follows word win k s d) (hx : win[k]? = some x)
    (hcall : x.mnem = "call".toList) : Follows word win (k + 1) s d := by
  have hspill : spillAt word win k = none := by
    rw [spillAt, hx, Option.bind_some, hcall]
    rfl
  have hsame : deltaAfter word s.delta x = s.delta :=
    deltaAfter_of_ne (by rw [hcall]; decide) (by rw [hcall]; decide) (by rw [hcall]; decide)
  exact h.same hx hspill hsame.symm

theorem Follows.step_pop (h : Follows word win k s d) (hx : win[k]? = some x)
    (hpop : x.mnem = "pop".toList) (r : Text) :
    Follows word win (k + 1) { s with dep := Function.update s.dep r 1 }
      (Function.update d (.inl r) 1) := by
  have hspill : spillAt word win k = none := by
    rw [spillAt, hx, Option.bind_some, hpop]
    rfl
  have hsame : deltaAfter word s.delta x = s.delta :=
    deltaAfter_of_ne (by rw [hpop]; decide) (by rw [hpop]; decide) (by rw [hpop]; decide)
  exact h.update_reg hx hspill hsame.symm

theorem weightAt_pop (hx : win[k]? = some x) (hpop : (x.mnem == "pop".toList) = true) :
    weightAt word win k = 1 := by
  rw [weightAt, hx, Option.map_some, hpop]
  rfl

theorem weightAt_other (hx : win[k]? = some x) (hpop : (x.mnem == "pop".toList) = false)
    (hstored : x.stored = none) : weightAt word win k = if loadsAt word win k x then 1 else 0 := by
  rw [weightAt, hx, Option.map_some, hpop, hstored]
  rfl

theorem weightAt_stored (hx : win[k]? = some x) (hpop : (x.mnem == "pop".toList) = false)
    {offset : ℕ} (hstored : x.stored = some offset) : weightAt word win k = 0 := by
  rw [weightAt, hx, Option.map_some, hpop, hstored]
  rfl

/-- A spill, a definition, or neither. -/
theorem Follows.step_other (h : Follows word win k s d) (hx : win[k]? = some x)
    (hcall : (x.mnem == "call".toList) = false) (hpop : (x.mnem == "pop".toList) = false) :
    Follows word win (k + 1) { depsAfter s x with delta := deltaAfter word s.delta x }
      (after (weightAt word win k) d (useOf word win k x)) := by
  have hspill : spillAt word win k =
      x.stored.map fun offset : ℕ => (offset : ℤ) - deltaAt word win k := by
    rw [spillAt, hx, Option.bind_some, hcall, hpop]
    rfl
  rw [useOf, hcall, hpop, depsAfter]
  simp only [Bool.false_eq_true, if_false]
  rcases hstored : x.stored with - | offset
  · rw [hstored] at hspill
    rcases hdst : x.gprDst with - | dst
    · exact h.same hx hspill rfl
    · have hfollow := h.update_reg hx (r := dst) (n := depthOf s x dst) hspill rfl
      rw [weightAt_other hx hpop hstored]
      dsimp only [after]
      rw [← depthOf_eq h dst]
      exact hfollow
  · rw [hstored] at hspill
    have hkey : spillAt word win k = some ((offset : ℤ) - s.delta) := by
      rw [hspill, h.delta]
      rfl
    have hdepth : entry (weightAt word win k) d
        ⟨some (.inr ((offset : ℤ) - deltaAt word win k)), [],
          (gprsOf (x.parts.getLastD [])).map .inl⟩ =
        deepest s.dep (gprsOf (x.parts.getLastD [])) := by
      rw [weightAt_stored hx hpop hstored, deepest_eq h]
      exact Nat.zero_max _
    refine ⟨fun r => ?_, fun other => ?_, by rw [deltaAt_succ hx, h.delta]⟩
    · exact (h.dep r).trans (Function.update_of_ne Sum.inl_ne_inr _ _).symm
    · have hstack := h.stack_update (n := deepest s.dep (gprsOf (x.parts.getLastD []))) hkey other
      rw [← hdepth, h.delta] at hstack
      rw [h.delta, ← hdepth]
      exact hstack

/-- The step lemma: the pass over the text is the pass over the graph. -/
theorem Follows.step (h : Follows word win k s d) (hx : win[k]? = some x)
    (hcall : isDispatchCall x = false) {s' : ChainState} (hs' : chainStep word s x = some s') :
    Follows word win (k + 1) s' (after (weightAt word win k) d (useAt word win k x)) := by
  have huse : useAt word win k x = useOf word win k x := by
    rw [useAt, hcall]
    rfl
  rw [huse]
  rw [chainStep] at hs'
  by_cases hdirect : (x.mnem == "call".toList) = true
  · rw [if_pos hdirect] at hs'
    obtain rfl := Option.some.inj hs'
    rw [useOf, if_pos hdirect]
    exact h.step_call hx (beq_iff_eq.mp hdirect)
  rw [if_neg hdirect] at hs'
  by_cases hpop : (x.mnem == "pop".toList) = true
  · rw [if_pos hpop] at hs'
    obtain ⟨p, hp, rfl⟩ := Option.map_eq_some_iff.mp hs'
    have hfollow := h.step_pop hx (beq_iff_eq.mp hpop) (canon p)
    rw [useOf, if_neg hdirect, if_pos hpop, hp, weightAt_pop hx hpop]
    exact hfollow
  · rw [if_neg hpop] at hs'
    obtain rfl := Option.some.inj hs'
    exact h.step_other hx (by simpa using hdirect) (by simpa using hpop)

end Step

/-! ## The run -/

section Run

variable {word : ℕ} {win : List Insn}

theorem usesOf_getElem? {k : ℕ} {x : Insn} (hx : win[k]? = some x) :
    (usesOf word win)[k]? = some (useAt word win k x) := by
  rw [usesOf, List.getElem?_mapIdx, hx]
  rfl

/-- An instruction the loop passes over: not the indirect call, and a `pop` has an
operand. -/
structure Insn.Passed (x : Insn) : Prop where
  direct : isDispatchCall x = false
  popped : x.mnem = "pop".toList → x.parts ≠ []

instance (x : Insn) : Decidable x.Passed :=
  decidable_of_iff (isDispatchCall x = false ∧ (x.mnem = "pop".toList → x.parts ≠ []))
    ⟨fun h => ⟨h.1, h.2⟩, fun h => ⟨h.1, h.2⟩⟩

theorem Insn.Passed.step {x : Insn} (h : x.Passed) (word : ℕ) (s : ChainState) :
    ∃ s', chainStep word s x = some s' := by
  unfold chainStep
  split_ifs with hcall hpop
  · exact ⟨_, rfl⟩
  · obtain ⟨p, ps, hp⟩ := List.exists_cons_of_ne_nil (h.popped (beq_iff_eq.mp hpop))
    exact ⟨_, by rw [hp]; rfl⟩
  · exact ⟨_, rfl⟩

/-- The run lemma, from any position and for any weights that agree with those of the
window on the way. -/
theorem Follows.run (weight : ℕ → ℕ) {seg rest : List Insn} (pre : List Insn) {s : ChainState}
    (hwin : win = pre ++ (seg ++ rest)) (hseg : ∀ x ∈ seg, x.Passed)
    (hweight : ∀ j, pre.length ≤ j → j < (pre ++ seg).length → weight j = weightAt word win j)
    (h : Follows word win pre.length s (depthAt weight (usesOf word win) pre.length)) :
    ∃ s', seg.foldlM (chainStep word) s = some s' ∧
      Follows word win (pre ++ seg).length s'
        (depthAt weight (usesOf word win) (pre ++ seg).length) := by
  induction seg generalizing pre s with
  | nil => exact ⟨s, rfl, by simpa using h⟩
  | cons x seg ih =>
    have hx : win[pre.length]? = some x := by rw [hwin]; simp
    have hpassed := hseg x List.mem_cons_self
    obtain ⟨s', hs'⟩ := hpassed.step word s
    have hstep := h.step hx hpassed.direct hs'
    rw [← hweight pre.length (le_refl _) (by simp), ← depthAt_succ (usesOf_getElem? hx)] at hstep
    have happend : pre ++ x :: seg = (pre ++ [x]) ++ seg := by simp
    have hlength : (pre ++ [x]).length = pre.length + 1 := by simp
    rw [happend] at hweight ⊢
    obtain ⟨t, ht, hfollow⟩ := ih (pre ++ [x]) (by simpa using hwin)
      (fun y hy => hseg y (List.mem_cons_of_mem x hy))
      (fun j hj => hweight j (by omega)) (hlength ▸ hstep)
    refine ⟨t, ?_, hfollow⟩
    rw [List.foldlM_cons, hs']
    exact ht

theorem Follows.init (d : Loc → ℕ) (hd : ∀ r, d r = 0) : Follows word win 0 ChainState.init d :=
  ⟨fun _ => (hd _).symm, fun _ => rfl, rfl⟩

theorem callDepth_eq {k : ℕ} {x : Insn} {s : ChainState} {d : Loc → ℕ}
    (h : Follows word win k s d) (hx : win[k]? = some x) (hcall : isDispatchCall x = true)
    (hstores : x.stores = false) :
    callDepth s x = some (entry (weightAt word win k) d (useAt word win k x)) := by
  have hmnem : (x.mnem == "pop".toList) = false := by
    rw [isDispatchCall, Bool.and_eq_true, beq_iff_eq] at hcall
    rw [hcall.1]
    decide
  have hstored : x.stored = none := by
    rw [Insn.stored, hstores]
    rfl
  rw [weightAt_other hx hmnem hstored, useAt, if_pos hcall, callUse, callDepth]
  rcases hb : bracketed x.ops with - | inner
  · have hslot : x.slot = none := by
      have hnot := mt bracketed_of_slotIn (by simp [hb] : ¬ (bracketed x.ops).isSome = true)
      simpa [Insn.slot] using hnot
    have hforward : forwardAt word win k x = none := by
      rw [forwardAt, hslot, hstores]
      rfl
    have haddrs : addrsAt word win k x = [] := by
      rw [addrsAt, hb]
      split_ifs <;> rfl
    rw [deepest_eq h, hforward, haddrs, loadsAt, hb]
    simp [entry, greatest]
  · rcases hf : forwardAt word win k x with - | key
    · rw [loadedBy_load h hf hstores, hb, loadsAt, hf, hstores, hb]
      simp [entry, greatest]
    · rw [loadedBy_forward h hf, loadsAt, addrsAt, hf]
      simp [entry, greatest]

end Run

/-! ## Windows -/

/-- A window up to its indirect call, the first. -/
structure CallWindow where
  body : List Insn
  call : Insn
  passed : ∀ x ∈ body, x.Passed
  dispatches : isDispatchCall call = true
  /-- the call has one operand -/
  operand : call.stores = false

namespace CallWindow

variable (w : CallWindow) (word : ℕ)

def insns : List Insn := w.body ++ [w.call]

/-- The positions whose load counts on a def-use path to the call, its own load included. -/
def PathToCall (counted : List ℕ) : Prop := Path (usesOf word w.insns) w.body.length counted

def weight : ℕ → ℕ := weightAt word w.insns

/-- What the pass enters at the call, for any weights of the loads. -/
def depth (weight : ℕ → ℕ) : ℕ :=
  entry (weight w.body.length) (depthAt weight (usesOf word w.insns) w.body.length)
    (useAt word w.insns w.body.length w.call)

variable {w word}

theorem call_getElem? : w.insns[w.body.length]? = some w.call := by simp [insns]

theorem isGreatest_depth (w : CallWindow) (word : ℕ) (weight : ℕ → ℕ) :
    IsGreatest (cost weight '' {counted | w.PathToCall word counted}) (w.depth word weight) :=
  isGreatest_entry weight (usesOf_getElem? call_getElem?)

/-- The rest of the window from a state that follows the graph. -/
theorem chainFrom_rest (pre : List Insn) {seg : List Insn} (hbody : w.body = pre ++ seg) {weight : ℕ → ℕ}
    (hweight : ∀ j, pre.length ≤ j → weight j = w.weight word j) {s : ChainState}
    (h : Follows word w.insns pre.length s (depthAt weight (usesOf word w.insns) pre.length)) :
    chainFrom word s (seg ++ [w.call]) = some (w.depth word weight) := by
  have hseg : ∀ x ∈ seg, x.Passed := fun x hx =>
    w.passed x (hbody ▸ List.mem_append_right pre hx)
  have hwin : w.insns = pre ++ (seg ++ [w.call]) := by rw [insns, hbody, List.append_assoc]
  obtain ⟨t, ht, hfollow⟩ := Follows.run weight pre hwin hseg (fun j hj _ => hweight j hj) h
  rw [← hbody] at hfollow
  rw [chainFrom_append (fun x hx => (hseg x hx).direct), ht, Option.bind_some,
    chainFrom_call w.dispatches, callDepth_eq hfollow call_getElem? w.dispatches w.operand, depth,
    hweight _ (by rw [hbody]; simp)]
  rfl

/-- `chain` returns the greatest number of loads counted on a path to the call. -/
theorem chain_eq (w : CallWindow) (word : ℕ) :
    chain w.insns word = some (w.depth word (w.weight word)) :=
  chainFrom_rest [] rfl (fun _ _ => rfl) (Follows.init _ fun _ => rfl)

end CallWindow

end OMB
