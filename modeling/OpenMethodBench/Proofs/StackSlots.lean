import Mathlib
import OpenMethodBench.Proofs.StackText

/-! Slots by their address. `roles` and `chain` key a spill by its displacement and their own
`delta`; a reload gets what was stored at its address where the keys tell the addresses
apart as the machine does. -/

namespace OMB

open Reaching

/-! ## The windows -/

/-- `REG` of `chain` matches the registers that go through the stack. -/
def StackOp.Spotted : StackOp → Prop
  | .spill _ (.reg n) | .reload n _ => n.spotted = true
  | _ => True

section Windows

variable (wide : Bool) (lines : List StackLine)

/-- A spill and a later reload are at one address exactly where both print a displacement
and the moves between them that the passes miss make up how far apart the two places are. -/
def Matched (i j : ℕ) (s t : Slot) : Prop :=
  addressAt wide lines i s = addressAt wide lines j t ↔
    s.disp.isSome = true ∧ t.disp.isSome = true ∧
      placeAt wide lines j t - placeAt wide lines i s =
        untrackedAt wide lines j - untrackedAt wide lines i

structure Kept : Prop where
  plain : ∀ l ∈ lines, l.op.Plain
  spotted : ∀ l ∈ lines, l.op.Spotted
  matched : ∀ i j s src dst t, i < j → spilledAt lines i = some (s, src) →
    reloadedAt lines j = some (dst, t) → Matched wide lines i j s t

/-- The window as the passes get it. -/
def stackWindow (rest : List Insn) : List Insn := lines.map (StackLine.insn wide) ++ rest

end Windows

section Lines

variable {wide : Bool} {lines : List StackLine} {k : ℕ} {l : StackLine}

theorem stackWindow_getElem? (hl : lines[k]? = some l) (rest : List Insn) :
    (stackWindow wide lines rest)[k]? = some (l.insn wide) := by
  rw [stackWindow, List.getElem?_append_left]
  · rw [List.getElem?_map, hl, Option.map_some]
  · rw [List.length_map]
    exact (List.getElem?_eq_some_iff.mp hl).1

theorem exists_line (hk : k < lines.length) : ∃ l, lines[k]? = some l :=
  ⟨_, List.getElem?_eq_getElem hk⟩

theorem sum_take_succ (f : StackLine → ℤ) (hl : lines[k]? = some l) :
    ((lines.take (k + 1)).map f).sum = ((lines.take k).map f).sum + f l := by
  rw [List.take_add_one, hl]
  simp

theorem spilledAt_eq_some_iff {s : Slot} {src : Operand} :
    spilledAt lines k = some (s, src) ↔ ∃ a, lines[k]? = some ⟨a, .spill s src⟩ := by
  rw [spilledAt, Option.bind_eq_some_iff]
  refine ⟨?_, fun ⟨a, ha⟩ => ⟨_, ha, rfl⟩⟩
  rintro ⟨⟨a, op⟩, hl, hop⟩
  cases op with
  | spill slot o =>
    obtain ⟨rfl, rfl⟩ := Prod.mk.inj (Option.some.inj hop)
    exact ⟨a, hl⟩
  | _ => simp at hop

theorem reloadedAt_eq_some_iff {dst : RegName} {t : Slot} :
    reloadedAt lines k = some (dst, t) ↔ ∃ a, lines[k]? = some ⟨a, .reload dst t⟩ := by
  rw [reloadedAt, Option.bind_eq_some_iff]
  refine ⟨?_, fun ⟨a, ha⟩ => ⟨_, ha, rfl⟩⟩
  rintro ⟨⟨a, op⟩, hl, hop⟩
  cases op with
  | reload n slot =>
    obtain ⟨rfl, rfl⟩ := Prod.mk.inj (Option.some.inj hop)
    exact ⟨a, hl⟩
  | _ => simp at hop

theorem storedTo_eq_some_iff {a : ℤ} :
    storedTo wide lines k = some a ↔
      ∃ s src, spilledAt lines k = some (s, src) ∧ addressAt wide lines k s = a := by
  rw [storedTo, Option.map_eq_some_iff]
  exact ⟨fun ⟨⟨s, src⟩, hs, ha⟩ => ⟨s, src, hs, ha⟩, fun ⟨s, src, hs, ha⟩ => ⟨(s, src), hs, ha⟩⟩

/-- `delta` after any number of lines, in a pass that counts as both do. -/
theorem delta_eq (delta : ℕ → ℤ) (hzero : delta 0 = 0)
    (hsucc : ∀ k l, lines[k]? = some l →
      delta (k + 1) = delta k - (l.op.moves wide - l.op.untracked wide))
    (hk : k ≤ lines.length) : delta k = untrackedAt wide lines k - pointerAt wide lines k := by
  induction k with
  | zero => exact hzero
  | succ k ih =>
    obtain ⟨l, hl⟩ := exists_line (by omega : k < lines.length)
    have hpointer := sum_take_succ (fun l => l.op.moves wide) hl
    have huntracked := sum_take_succ (fun l => l.op.untracked wide) hl
    rw [hsucc k l hl, ih (by omega), untrackedAt, untrackedAt, pointerAt, pointerAt, hpointer,
      huntracked]
    ring

end Lines

/-! ## Keys -/

section Keys

variable (wide : Bool) (lines : List StackLine) {V : Type*}

/-- How a pass keeps its slots: `delta` is what it has seen of the pointer's way down, and
the spills with a displacement write the slot of their key. -/
structure Keyed (stack : ℕ → ℤ → Option V) (delta : ℕ → ℤ) (value : ℕ → Operand → V) : Prop where
  start : ∀ key, stack 0 key = none
  counts : ∀ k ≤ lines.length, delta k = untrackedAt wide lines k - pointerAt wide lines k
  spill : ∀ k s src, spilledAt lines k = some (s, src) → ∀ d, s.disp = some d →
    stack (k + 1) = Function.update (stack k) (d - delta k) (some (value k src))
  keep : ∀ k < lines.length, (∀ s src, spilledAt lines k = some (s, src) → s.disp = none) →
    stack (k + 1) = stack k

variable {wide lines} {stack : ℕ → ℤ → Option V} {delta : ℕ → ℤ} {value : ℕ → Operand → V}
  (h : Keyed wide lines stack delta value) {i j : ℕ} {s t : Slot} {d : ℕ}
include h

/-- The keys of two slots are equal where the addresses are. -/
theorem Keyed.key_eq_iff (hij : i < j) (hj : j ≤ lines.length) (hm : Matched wide lines i j s t)
    (hs : s.disp.isSome = true) (hd : t.disp = some d) :
    (s.offset : ℤ) - delta i = d - delta j ↔ addressAt wide lines i s = addressAt wide lines j t := by
  have ht : (t.offset : ℤ) = d := by rw [Slot.offset, hd, Option.getD_some]
  have hplace : placeAt wide lines j t - placeAt wide lines i s =
      untrackedAt wide lines j - untrackedAt wide lines i ↔ (s.offset : ℤ) - delta i = d - delta j := by
    rw [h.counts i (by omega), h.counts j hj, placeAt, placeAt, ht]
    omega
  rw [← hplace]
  exact ⟨fun hp => hm.mpr ⟨hs, by rw [hd]; rfl, hp⟩, fun haddr => (hm.mp haddr).2.2⟩

/-- A spill to another address leaves the slot alone. -/
theorem Keyed.keep_slot (hij : i < j) (hj : j ≤ lines.length)
    (hm : ∀ s src, spilledAt lines i = some (s, src) → Matched wide lines i j s t)
    (hd : t.disp = some d) (hne : storedTo wide lines i ≠ some (addressAt wide lines j t)) :
    stack (i + 1) (d - delta j) = stack i (d - delta j) := by
  by_cases hprinted : ∃ s src c, spilledAt lines i = some (s, src) ∧ s.disp = some c
  · obtain ⟨s, src, c, hs, hc⟩ := hprinted
    rw [h.spill i s src hs c hc]
    refine Function.update_of_ne (fun hkey => hne ?_) _ _
    have hoffset : (s.offset : ℤ) = c := by rw [Slot.offset, hc, Option.getD_some]
    have haddr := (h.key_eq_iff hij hj (hm s src hs) (by rw [hc]; rfl) hd).mp
      (by rw [hoffset, hkey])
    exact storedTo_eq_some_iff.mpr ⟨s, src, hs, haddr⟩
  · have hnone : ∀ s src, spilledAt lines i = some (s, src) → s.disp = none := by
      intro s src hs
      by_contra hsome
      obtain ⟨c, hc⟩ := Option.ne_none_iff_exists'.mp hsome
      exact hprinted ⟨s, src, c, hs, hc⟩
    rw [h.keep i (by omega) hnone]

/-- A slot that is reloaded holds the value most recently stored at its address. -/
theorem Keyed.slot_of_reaches (hj : j ≤ lines.length)
    (hm : ∀ k < j, ∀ s src, spilledAt lines k = some (s, src) → Matched wide lines k j s t)
    (hd : t.disp = some d) {src : Operand} (hi : spilledAt lines i = some (s, src))
    (hreach : Reaches (storedTo wide lines) i (addressAt wide lines j t) j) :
    stack j (d - delta j) = some (value i src) := by
  have hwrite : ∀ k < j, storedTo wide lines k = some (addressAt wide lines j t) →
      stack (k + 1) (d - delta j) = (spilledAt lines k).map fun p => value k p.2 := by
    intro k hk hstore
    obtain ⟨s, src, hs, haddr⟩ := storedTo_eq_some_iff.mp hstore
    have hsome := ((hm k hk s src hs).mp haddr).1
    obtain ⟨c, hc⟩ := Option.isSome_iff_exists.mp hsome
    have hkey := (h.key_eq_iff hk hj (hm k hk s src hs) hsome hd).mpr haddr
    rw [Slot.offset, hc, Option.getD_some] at hkey
    rw [h.spill k s src hs c hc, hkey, Function.update_self, hs]
    rfl
  have hkeep : ∀ k < j, storedTo wide lines k ≠ some (addressAt wide lines j t) →
      stack (k + 1) (d - delta j) = stack k (d - delta j) :=
    fun k hk hne => h.keep_slot hk hj (hm k hk) hd hne
  have hcell : stack j (d - delta j) = (spilledAt lines i).map fun p => value i p.2 :=
    cell_of_reaches (fun k => stack k (d - delta j))
      (fun k => (spilledAt lines k).map fun p => value k p.2) hwrite hkeep hreach
  rwa [hi] at hcell

/-- Where nothing was, it holds nothing. -/
theorem Keyed.slot_of_not_reaches (hj : j ≤ lines.length)
    (hm : ∀ k < j, ∀ s src, spilledAt lines k = some (s, src) → Matched wide lines k j s t)
    (hd : t.disp = some d)
    (hreach : ∀ i, ¬ Reaches (storedTo wide lines) i (addressAt wide lines j t) j) :
    stack j (d - delta j) = none := by
  have hkeep : ∀ k < j, storedTo wide lines k ≠ some (addressAt wide lines j t) →
      stack (k + 1) (d - delta j) = stack k (d - delta j) :=
    fun k hk hne => h.keep_slot hk hj (hm k hk) hd hne
  have hcell : stack j (d - delta j) = stack 0 (d - delta j) :=
    cell_of_not_reaches (fun k => stack k (d - delta j)) hkeep hreach
  exact hcell.trans (h.start _)

end Keys

/-! ## `chain` -/

/-- The state of `chain` before a position. -/
def chainAt (win : List Insn) (word k : ℕ) : ChainState :=
  ((win.take k).foldlM (chainStep word) ChainState.init).getD ChainState.init

/-- The depth of the value an operand names. -/
def ChainState.depthIn (s : ChainState) : Operand → ℕ
  | .reg n => s.dep n.reg.common
  | _ => 0

/-- The global load whose value an operand names. -/
def RoleState.loadIn (s : RoleState) : Operand → Option ℕ
  | .reg n => s.live n.reg.common
  | _ => none

section ChainStep

variable (word : ℕ) (s : ChainState) {x : Insn}

/-- Only a store to a slot changes the slots. -/
theorem chainStep_unstored (hstored : x.stored = none)
    (hpop : x.mnem = "pop".toList → ∃ p, x.parts.head? = some p) :
    ∃ s', chainStep word s x = some s' ∧ s'.stack = s.stack ∧
      s'.delta = deltaAfter word s.delta x := by
  by_cases hcall : x.mnem = "call".toList
  · have hdelta : deltaAfter word s.delta x = s.delta :=
      deltaAfter_of_ne (by rw [hcall]; decide) (by rw [hcall]; decide) (by rw [hcall]; decide)
    refine ⟨s, ?_, rfl, hdelta.symm⟩
    rw [chainStep, hcall]
    rfl
  by_cases hmnem : x.mnem = "pop".toList
  · have hdelta : deltaAfter word s.delta x = s.delta :=
      deltaAfter_of_ne (by rw [hmnem]; decide) (by rw [hmnem]; decide) (by rw [hmnem]; decide)
    obtain ⟨p, hp⟩ := hpop hmnem
    refine ⟨{ s with dep := Function.update s.dep (canon p) 1 }, ?_, rfl, hdelta.symm⟩
    rw [chainStep, hmnem, hp]
    rfl
  · refine ⟨{ depsAfter s x with delta := deltaAfter word s.delta x }, ?_, ?_, rfl⟩
    · rw [chainStep, beq_eq_false_iff_ne.mpr hcall, beq_eq_false_iff_ne.mpr hmnem]
      rfl
    · rw [depsAfter, hstored]
      rcases x.gprDst with - | dst <;> rfl

theorem chainStep_mov (hmnem : x.mnem = "mov".toList) :
    chainStep word s x = some { depsAfter s x with delta := deltaAfter word s.delta x } := by
  rw [chainStep, hmnem]
  rfl

/-- What a register or a constant is put in its slot with. -/
theorem depthIn_eq {src : Operand} (hsrc : src.isMem = false) (slot : Slot)
    (hspot : (StackOp.spill slot src).Spotted) :
    deepest s.dep (gprsOf src.text) = s.depthIn src := by
  rcases src with n | c | ⟨z, p⟩
  · have hn : n.spotted = true := hspot
    rw [Operand.text, gprsOf_regName, hn, if_pos rfl]
    exact Nat.max_zero _
  · rw [Operand.text, gprsOf_hexText]
    rfl
  · exact absurd hsrc (by simp [Operand.isMem])

theorem chainStep_spill (wide : Bool) (a : ℕ) {slot : Slot} {src : Operand} {d : ℕ}
    (h : (StackOp.spill slot src).Plain) (hd : slot.disp = some d) :
    ∃ s', chainStep word s (StackLine.insn wide ⟨a, .spill slot src⟩) = some s' ∧
      s'.stack = Function.update s.stack (d - s.delta)
        (some (deepest s.dep (gprsOf src.text))) ∧
      s'.delta = deltaAfter word s.delta (StackLine.insn wide ⟨a, .spill slot src⟩) := by
  obtain ⟨hmnem, -, hparts⟩ := spill_fields wide a slot src
  have hstored := stored_line (l := ⟨a, .spill slot src⟩) h wide
  simp only [hd] at hstored
  refine ⟨_, chainStep_mov word s hmnem, ?_, rfl⟩
  simp only [depsAfter, hstored, hparts]
  rfl

/-- A reload: what the slot of its key holds, else a load off the stack pointer. -/
theorem chainStep_reload (wide : Bool) (a : ℕ) {dst : RegName} (hdst : dst.spotted = true)
    (slot : Slot) :
    ∃ s', chainStep word s (StackLine.insn wide ⟨a, .reload dst slot⟩) = some s' ∧
      s'.dep dst.reg.common =
        ((slot.disp.bind fun d => s.stack (d - s.delta)).getD (s.dep "sp".toList + 1)) := by
  obtain ⟨hmnem, hops, hparts⟩ := reload_fields wide a dst slot
  have hpre : '[' ∉ dst.text ++ ',' :: (slot.size.text ++ " PTR ".toList) := by
    rw [List.mem_append, List.mem_cons]
    exact not_or.mpr ⟨no_bracket_name _, not_or.mpr ⟨by decide, no_bracket_size _⟩⟩
  have haddr : (StackLine.insn wide ⟨a, .reload dst slot⟩).ops =
      (dst.text ++ ',' :: (slot.size.text ++ " PTR ".toList)) ++
        '[' :: ((slot.addr wide).text ++ [']']) := by
    rw [hops, Slot.operand, Operand.text, Place.text]
    simp
  have hinner : gprsOf (slot.addr wide).text = ["sp".toList] := by
    rw [Slot.addr, Addr.text, gprsOf_disp]
    cases wide <;> decide
  have hslot : (StackLine.insn wide ⟨a, .reload dst slot⟩).slot = slot.disp := by
    have hcomma : '[' ∉ dst.text ++ [','] := by
      rw [List.mem_append]
      exact not_or.mpr ⟨no_bracket_name _, by decide⟩
    have h := slotIn_slot hcomma wide slot (List.not_mem_nil (a := '['))
    rw [List.append_nil, List.append_assoc, List.singleton_append] at h
    rw [Insn.slot, hops]
    exact h
  have hbracketed := bracketed_addr hpre (slot.addr wide)
  rw [← haddr] at hbracketed
  have hstores : (StackLine.insn wide ⟨a, .reload dst slot⟩).stores = false := by
    rw [Insn.stores, hops]
    exact storesTo_word (name_low _) _
  have hloaded : loadedBy s (StackLine.insn wide ⟨a, .reload dst slot⟩) =
      some ((slot.disp.bind fun d => s.stack (d - s.delta)).getD (s.dep "sp".toList + 1)) := by
    rw [loadedBy, hstores, hslot, hbracketed, Option.map_some, hinner]
    simp only [Bool.false_eq_true, if_false, deepest, Depth.greatest]
    rcases slot.disp.bind fun d => s.stack (d - s.delta) with - | n
    · simp
    · rfl
  have hgpr : (StackLine.insn wide ⟨a, .reload dst slot⟩).gprDst = some dst.reg.common := by
    rw [Insn.gprDst, hparts, hmnem]
    simp only [(isReg_name dst).2, hdst, canon_name]
    rfl
  have hkeeps : (StackLine.insn wide ⟨a, .reload dst slot⟩).keepsDst = false := by
    rw [Insn.keepsDst, hmnem]
    rfl
  have hstored : (StackLine.insn wide ⟨a, .reload dst slot⟩).stored = none := by
    rw [Insn.stored, hstores]
    rfl
  refine ⟨_, chainStep_mov word s hmnem, ?_⟩
  simp only [depsAfter, hstored, hgpr, Function.update_self, depthOf, hbracketed, hloaded, hkeeps]
  simp

/-- The step lemma: no step fails, `delta` counts what the pass sees, and a slot is written
by a spill with a displacement alone. -/
theorem chainStep_line {l : StackLine} (h : l.op.Plain) (wide : Bool) (s : ChainState) :
    ∃ s', chainStep (wordSize wide) s (l.insn wide) = some s' ∧
      s'.delta = s.delta - (l.op.moves wide - l.op.untracked wide) ∧
      (∀ slot src d, l.op = .spill slot src → slot.disp = some d → s'.stack =
        Function.update s.stack (d - s.delta) (some (deepest s.dep (gprsOf src.text)))) ∧
      ((∀ slot src, l.op = .spill slot src → slot.disp = none) → s'.stack = s.stack) := by
  have hdelta := deltaAfter_line h wide s.delta
  have hstored := stored_line h wide
  obtain ⟨a, op⟩ := l
  by_cases hspill : ∃ slot src d, op = .spill slot src ∧ slot.disp = some d
  · obtain ⟨slot, src, d, rfl, hd⟩ := hspill
    obtain ⟨s', hs', hstack, hdelta'⟩ := chainStep_spill (wordSize wide) s wide a h hd
    refine ⟨s', hs', hdelta'.trans hdelta, ?_, fun hnone => ?_⟩
    · intro slot' src' d' hop hd'
      obtain ⟨rfl, rfl⟩ := StackOp.spill.inj hop
      obtain rfl : d = d' := Option.some.inj (hd.symm.trans hd')
      exact hstack
    · rw [hnone slot src rfl] at hd
      exact absurd hd (by simp)
  · have hnone : (StackLine.insn wide ⟨a, op⟩).stored = none := by
      rw [hstored]
      split
      · rename_i slot src hop
        by_contra hsome
        obtain ⟨d, hd⟩ := Option.ne_none_iff_exists'.mp hsome
        exact hspill ⟨slot, src, d, hop, hd⟩
      · rfl
    obtain ⟨s', hs', hstack, hdelta'⟩ := chainStep_unstored (wordSize wide) s hnone
      (pop_line h wide)
    refine ⟨s', hs', hdelta'.trans hdelta, ?_, fun _ => hstack⟩
    intro slot src d hop hd
    exact absurd ⟨slot, src, d, hop, hd⟩ hspill

end ChainStep

section Runs

variable (wide : Bool) {lines : List StackLine} (hplain : ∀ l ∈ lines, l.op.Plain) {k : ℕ}
include hplain

theorem chain_ran (rest : List Insn) (hk : k ≤ lines.length) :
    ((stackWindow wide lines rest).take k).foldlM (chainStep (wordSize wide)) ChainState.init =
      some (chainAt (stackWindow wide lines rest) (wordSize wide) k) := by
  induction k with
  | zero => rfl
  | succ k ih =>
    obtain ⟨l, hl⟩ := exists_line (by omega : k < lines.length)
    have hran : ((stackWindow wide lines rest).take (k + 1)).foldlM (chainStep (wordSize wide))
        ChainState.init = chainStep (wordSize wide)
          (chainAt (stackWindow wide lines rest) (wordSize wide) k) (l.insn wide) := by
      rw [List.take_add_one, stackWindow_getElem? hl, List.foldlM_append, ih (by omega)]
      simp
    obtain ⟨s', hs', -⟩ := chainStep_line (hplain l (List.mem_of_getElem? hl)) wide
      (chainAt (stackWindow wide lines rest) (wordSize wide) k)
    rw [hs'] at hran
    rw [chainAt, hran]
    rfl

theorem chain_step (rest : List Insn) {l : StackLine} (hl : lines[k]? = some l) :
    chainStep (wordSize wide) (chainAt (stackWindow wide lines rest) (wordSize wide) k)
      (l.insn wide) = some (chainAt (stackWindow wide lines rest) (wordSize wide) (k + 1)) := by
  have hk : k < lines.length := (List.getElem?_eq_some_iff.mp hl).1
  rw [← chain_ran wide hplain rest hk, List.take_add_one, stackWindow_getElem? hl, List.foldlM_append,
    chain_ran wide hplain rest hk.le]
  simp

/-- `chain` keys its slots so. -/
theorem chain_keyed (rest : List Insn) :
    Keyed wide lines
      (fun k => (chainAt (stackWindow wide lines rest) (wordSize wide) k).stack)
      (fun k => (chainAt (stackWindow wide lines rest) (wordSize wide) k).delta)
      (fun k src => deepest (chainAt (stackWindow wide lines rest) (wordSize wide) k).dep
        (gprsOf src.text)) := by
  have hstep : ∀ {k : ℕ} {l : StackLine}, lines[k]? = some l →
      let s := chainAt (stackWindow wide lines rest) (wordSize wide) k
      let s' := chainAt (stackWindow wide lines rest) (wordSize wide) (k + 1)
      s'.delta = s.delta - (l.op.moves wide - l.op.untracked wide) ∧
        (∀ slot src d, l.op = .spill slot src → slot.disp = some d → s'.stack =
          Function.update s.stack (d - s.delta) (some (deepest s.dep (gprsOf src.text)))) ∧
        ((∀ slot src, l.op = .spill slot src → slot.disp = none) → s'.stack = s.stack) := by
    intro k l hl s s'
    obtain ⟨t, ht, hspec⟩ := chainStep_line (hplain l (List.mem_of_getElem? hl)) wide s
    obtain rfl : s' = t := Option.some.inj ((chain_step wide hplain rest hl).symm.trans ht)
    exact hspec
  refine ⟨fun _ => rfl, fun k hk => ?_, fun k s src hs d hd => ?_, fun k hk hnone => ?_⟩
  · exact delta_eq (fun k => (chainAt (stackWindow wide lines rest) (wordSize wide) k).delta) rfl
      (fun k l hl => (hstep hl).1) hk
  · obtain ⟨a, hl⟩ := spilledAt_eq_some_iff.mp hs
    exact (hstep hl).2.1 s src d rfl hd
  · obtain ⟨l, hl⟩ := exists_line hk
    refine (hstep hl).2.2 fun slot src hop => hnone slot src ?_
    exact spilledAt_eq_some_iff.mpr ⟨l.addr, by rw [hl, ← hop]⟩

/-! ## `roles` -/

/-- `roles` keys its slots the same way. -/
theorem roles_keyed (rest : List Insn) (reads : Reads) :
    Keyed wide lines
      (fun k => (roleState (stackWindow wide lines rest) reads (wordSize wide) k).stack)
      (fun k => (roleState (stackWindow wide lines rest) reads (wordSize wide) k).delta)
      (fun k src => (roleState (stackWindow wide lines rest) reads (wordSize wide) k).live
        (canon src.text)) := by
  have hstep : ∀ {k : ℕ} {l : StackLine}, lines[k]? = some l →
      let s := roleState (stackWindow wide lines rest) reads (wordSize wide) k
      let s' := roleState (stackWindow wide lines rest) reads (wordSize wide) (k + 1)
      s'.stack = stackAfter s (l.insn wide) ∧
        s'.delta = s.delta - (l.op.moves wide - l.op.untracked wide) := by
    intro k l hl s s'
    obtain ⟨hstack, hdelta⟩ := roleState_stack (stackWindow wide lines rest) reads (wordSize wide)
      (stackWindow_getElem? hl rest)
    exact ⟨hstack, hdelta.trans (deltaAfter_line (hplain l (List.mem_of_getElem? hl)) wide _)⟩
  refine ⟨fun _ => rfl, fun k hk => ?_, fun k s src hs d hd => ?_, fun k hk hnone => ?_⟩
  · exact delta_eq
      (fun k => (roleState (stackWindow wide lines rest) reads (wordSize wide) k).delta) rfl
      (fun k l hl => (hstep hl).2) hk
  · obtain ⟨a, hl⟩ := spilledAt_eq_some_iff.mp hs
    have hspill := spill_line (hplain _ (List.mem_of_getElem? hl)) wide
    simp only [hd, Option.map_some] at hspill
    rw [(hstep hl).1, stackAfter, hspill]
  · obtain ⟨l, hl⟩ := exists_line hk
    have hspill := spill_line (hplain l (List.mem_of_getElem? hl)) wide
    have hno : (l.insn wide).spill = none := by
      rw [hspill]
      split
      · rename_i slot src hop
        rw [hnone slot src (spilledAt_eq_some_iff.mpr ⟨l.addr, by rw [hl, ← hop]⟩)]
        rfl
      · rfl
    rw [(hstep hl).1, stackAfter, hno]

/-- A constant is no load. -/
theorem live_constant (rest : List Insn) (reads : Reads) (n : ℕ) (hk : k ≤ lines.length) :
    (roleState (stackWindow wide lines rest) reads (wordSize wide) k).live (hexText n) = none := by
  induction k with
  | zero => rfl
  | succ k ih =>
    obtain ⟨l, hl⟩ := exists_line (by omega : k < lines.length)
    have hlive := (roleState_succ (stackWindow wide lines rest) reads (wordSize wide)
      (stackWindow_getElem? hl rest)).1
    rw [hlive]
    by_cases hdef : (l.insn wide).defines = some (hexText n)
    · obtain ⟨hreload, hmove⟩ := constant_line (hplain l (List.mem_of_getElem? hl)) wide n hdef
      rw [liveAfter_of_eq hdef]
      exact loadOf_other (fun hload => absurd hload.2 (by rw [hmove]; decide)) hreload
    · rw [liveAfter_of_ne hdef]
      exact ih (by omega)

/-! ## Reloads -/

section Reload

variable (rest : List Insn) {j : ℕ} {dst : RegName} {t : Slot}
  (hj : reloadedAt lines j = some (dst, t))
include hj

/-- The step lemma of `chain` at a reload. -/
theorem dep_reload (hdst : dst.spotted = true) :
    let s := chainAt (stackWindow wide lines rest) (wordSize wide) j
    (chainAt (stackWindow wide lines rest) (wordSize wide) (j + 1)).dep dst.reg.common =
      (t.disp.bind fun d => s.stack (d - s.delta)).getD (s.dep "sp".toList + 1) := by
  intro s
  obtain ⟨a, hl⟩ := reloadedAt_eq_some_iff.mp hj
  obtain ⟨s', hs', hdep⟩ := chainStep_reload (wordSize wide) s wide a hdst t
  have hnext := Option.some.inj ((chain_step wide hplain rest hl).symm.trans hs')
  rw [hnext]
  exact hdep

/-- That of `roles`. -/
theorem live_reload {reads : Reads} (hreads : reads j = none) :
    let s := roleState (stackWindow wide lines rest) reads (wordSize wide) j
    (roleState (stackWindow wide lines rest) reads (wordSize wide) (j + 1)).live dst.reg.common =
      t.disp.bind fun d => (s.stack (d - s.delta)).getD none := by
  intro s
  obtain ⟨a, hl⟩ := reloadedAt_eq_some_iff.mp hj
  have hl' := hplain _ (List.mem_of_getElem? hl)
  have hlive := (roleState_succ (stackWindow wide lines rest) reads (wordSize wide)
    (stackWindow_getElem? hl rest)).1
  rw [hlive, liveAfter_of_eq (reload_defines wide a dst t), loadOf, hreads, reload_line hl' wide,
    stackAfter, spill_line hl' wide]
  rfl

end Reload

/-- What is put in the slot of a constant or a register. -/
theorem live_value (rest : List Insn) (reads : Reads) (hk : k ≤ lines.length) {src : Operand}
    (hsrc : src.isMem = false) :
    let s := roleState (stackWindow wide lines rest) reads (wordSize wide) k
    s.live (canon src.text) = s.loadIn src := by
  intro s
  rcases src with n | c | ⟨z, p⟩
  · rw [Operand.text, canon_name]
    rfl
  · rw [Operand.text, canon_hexText]
    exact live_constant wide hplain rest reads c hk
  · exact absurd hsrc (by simp [Operand.isMem])

/-- `chain` goes on from the state it has reached. -/
theorem chain_resumes (rest : List Insn) (hk : k ≤ lines.length) :
    chain (stackWindow wide lines rest) (wordSize wide) =
      chainFrom (wordSize wide) (chainAt (stackWindow wide lines rest) (wordSize wide) k)
        ((stackWindow wide lines rest).drop k) := by
  have hdirect : ∀ x ∈ (stackWindow wide lines rest).take k, isDispatchCall x = false := by
    intro x hx
    rw [stackWindow, List.take_append_of_le_length (by rwa [List.length_map])] at hx
    obtain ⟨l, hl, rfl⟩ := List.mem_map.mp (List.mem_of_mem_take hx)
    exact line_direct (hplain l hl) wide
  have hsplit := chainFrom_append hdirect (wordSize wide) ChainState.init
    ((stackWindow wide lines rest).drop k)
  rwa [List.take_append_drop, chain_ran wide hplain rest hk, Option.bind_some] at hsplit

end Runs

/-- Where the keys tell the addresses apart, a reload yields the depth and the global load of
the value most recently stored at its address, and an ordinary load where none was. -/
theorem reload_yields_stored (wide : Bool) (lines : List StackLine) (h : Kept wide lines)
    (rest : List Insn) (reads : Reads) (j : ℕ) (dst : RegName) (t : Slot)
    (hj : reloadedAt lines j = some (dst, t)) (hreads : reads j = none) :
    let win := stackWindow wide lines rest
    let word := wordSize wide
    let a := addressAt wide lines j t
    chain win word = chainFrom word (chainAt win word (j + 1)) (win.drop (j + 1)) ∧
    (∀ i s src, spilledAt lines i = some (s, src) → Reaches (storedTo wide lines) i a j →
      (chainAt win word (j + 1)).dep dst.reg.common = (chainAt win word i).depthIn src ∧
      (roleState win reads word (j + 1)).live dst.reg.common =
        (roleState win reads word i).loadIn src) ∧
    ((∀ i, ¬ Reaches (storedTo wide lines) i a j) →
      (chainAt win word (j + 1)).dep dst.reg.common = (chainAt win word j).dep "sp".toList + 1 ∧
      (roleState win reads word (j + 1)).live dst.reg.common = none) := by
  intro win word a
  obtain ⟨b, hl⟩ := reloadedAt_eq_some_iff.mp hj
  have hlt : j < lines.length := (List.getElem?_eq_some_iff.mp hl).1
  have hdst : dst.spotted = true := h.spotted _ (List.mem_of_getElem? hl)
  have hmatched : ∀ k < j, ∀ s src, spilledAt lines k = some (s, src) →
      Matched wide lines k j s t := fun k hk s src hs => h.matched k j s src dst t hk hs hj
  have hchain := chain_keyed wide h.plain rest
  have hroles := roles_keyed wide h.plain rest reads
  have hdep := dep_reload wide h.plain rest hj hdst
  have hlive := live_reload wide h.plain rest hj hreads
  refine ⟨chain_resumes wide h.plain rest hlt, fun i s src hi hreach => ?_, fun hno => ?_⟩
  · -- the slots are at one address, so the reload prints a displacement
    have haddr : addressAt wide lines i s = a := by
      have hstored := hreach.2.1
      rw [storedTo, hi] at hstored
      exact Option.some.inj hstored
    obtain ⟨d, hd⟩ := Option.isSome_iff_exists.mp ((hmatched i hreach.1 s src hi).mp haddr).2.1
    obtain ⟨c, hi'⟩ := spilledAt_eq_some_iff.mp hi
    have hline := List.mem_of_getElem? hi'
    have hdepth := hchain.slot_of_reaches hlt.le hmatched hd hi hreach
    have hload := hroles.slot_of_reaches hlt.le hmatched hd hi hreach
    refine ⟨?_, ?_⟩
    · rw [hdep, hd, Option.bind_some, hdepth, Option.getD_some]
      exact depthIn_eq _ (h.plain _ hline) s (h.spotted _ hline)
    · rw [hlive, hd, Option.bind_some, hload, Option.getD_some]
      exact live_value wide h.plain rest reads (hreach.1.le.trans hlt.le) (h.plain _ hline)
  · rcases hd : t.disp with - | d
    · rw [hdep, hlive, hd]
      exact ⟨rfl, rfl⟩
    · have hdepth := hchain.slot_of_not_reaches hlt.le hmatched hd hno
      have hload := hroles.slot_of_not_reaches hlt.le hmatched hd hno
      rw [hdep, hlive, hd, Option.bind_some, Option.bind_some, hdepth, hload]
      exact ⟨rfl, rfl⟩

/-! ## One window kept, one lost -/

def ax (wide : Bool) : RegName := (Dst.mk (.quad .a) wide).name

def bx (wide : Bool) : RegName := (Dst.mk (.quad .b) wide).name

def cx (wide : Bool) : RegName := (Dst.mk (.quad .c) wide).name

/-- A `push` and a `sub` on `esp` between the spill and the reload. -/
def pushWindow : List StackLine :=
  [⟨0, .other "mov eax,DWORD PTR [ebx+0x8]".toList⟩, ⟨6, .spill ⟨.dword, some 8⟩ (.reg (ax false))⟩,
    ⟨10, .push (.reg (bx false))⟩, ⟨11, .adjust true 16⟩, ⟨14, .reload (cx false) ⟨.dword, some 28⟩⟩]

def pushReads : Reads
  | 0 => some ("registry_state".toList, 0)
  | _ => none

theorem pushWindow_kept : Kept false pushWindow where
  plain := by
    intro l hl
    simp only [pushWindow, List.mem_cons, List.not_mem_nil, or_false] at hl
    rcases hl with rfl | rfl | rfl | rfl | rfl
    · refine ⟨by decide +kernel, by decide +kernel, fun n hn => ?_⟩
      have hdef : (Insn.mk 0 "mov eax,DWORD PTR [ebx+0x8]".toList).defines = some "ax".toList := by
        decide +kernel
      rw [hdef] at hn
      exact absurd (List.cons.inj (Option.some.inj hn)).1 (by decide)
    · exact rfl
    · trivial
    · trivial
    · exact (by decide : (cx false).reg ≠ .pointer .sp)
  spotted := by
    intro l hl
    simp only [pushWindow, List.mem_cons, List.not_mem_nil, or_false] at hl
    rcases hl with rfl | rfl | rfl | rfl | rfl
    · trivial
    · rfl
    · trivial
    · trivial
    · rfl
  matched := by
    intro i j s src dst t _ hs ht
    have hi : i = 1 := by
      obtain ⟨a, ha⟩ := spilledAt_eq_some_iff.mp hs
      have hlt : i < 5 := (List.getElem?_eq_some_iff.mp ha).1
      interval_cases i <;> simp [pushWindow] at ha ⊢
    have hj : j = 4 := by
      obtain ⟨a, ha⟩ := reloadedAt_eq_some_iff.mp ht
      have hlt : j < 5 := (List.getElem?_eq_some_iff.mp ha).1
      interval_cases j <;> simp [pushWindow] at ha ⊢
    subst hi hj
    obtain ⟨rfl, -⟩ := Prod.mk.inj (Option.some.inj hs)
    obtain ⟨-, rfl⟩ := Prod.mk.inj (Option.some.inj ht)
    unfold Matched
    decide

theorem pushWindow_yields :
    (chainAt (stackWindow false pushWindow []) 4 5).dep "cx".toList = 1 ∧
      (roleState (stackWindow false pushWindow []) pushReads 4 5).live "cx".toList = some 0 := by
  have h := (reload_yields_stored false pushWindow pushWindow_kept [] pushReads 4 (cx false)
    ⟨.dword, some 28⟩ rfl rfl).2.1 1 ⟨.dword, some 8⟩ (.reg (ax false)) rfl
    ⟨by decide, by decide, fun k hk hkj => by interval_cases k <;> decide⟩
  have hdepth : (chainAt (stackWindow false pushWindow []) 4 1).depthIn (.reg (ax false)) = 1 := by
    decide +kernel
  have hload : (roleState (stackWindow false pushWindow []) pushReads 4 1).loadIn
      (.reg (ax false)) = some 0 := by
    decide +kernel
  exact ⟨h.1.trans hdepth, h.2.trans hload⟩

/-- The same with a `sub` on `rsp`. -/
def subWindow : List StackLine :=
  [⟨0, .other "mov rax,QWORD PTR [rip+0x10]".toList⟩, ⟨7, .other "mov rbx,QWORD PTR [rax+0x8]".toList⟩,
    ⟨11, .spill ⟨.qword, some 8⟩ (.reg (ax true))⟩, ⟨16, .spill ⟨.qword, some 16⟩ (.reg (bx true))⟩,
    ⟨21, .adjust true 16⟩, ⟨25, .reload (cx true) ⟨.qword, some 24⟩⟩,
    ⟨30, .reload (cx true) ⟨.qword, some 32⟩⟩]

/-- The pass loses what was spilled before a `sub` on `rsp`: the load, and the depth. -/
theorem sub_rsp_loses :
    (Reaches (storedTo true subWindow) 2 8 5 ∧ addressAt true subWindow 5 ⟨.qword, some 24⟩ = 8 ∧
      (roleState (stackWindow true subWindow []) pushReads 8 6).live "cx".toList ≠
        (roleState (stackWindow true subWindow []) pushReads 8 2).loadIn (.reg (ax true))) ∧
    (Reaches (storedTo true subWindow) 3 16 6 ∧ addressAt true subWindow 6 ⟨.qword, some 32⟩ = 16 ∧
      (chainAt (stackWindow true subWindow []) 8 7).dep "cx".toList ≠
        (chainAt (stackWindow true subWindow []) 8 3).depthIn (.reg (bx true))) := by
  have hlive : (roleState (stackWindow true subWindow []) pushReads 8 6).live "cx".toList ≠
        (roleState (stackWindow true subWindow []) pushReads 8 2).loadIn (.reg (ax true)) := by
    decide +kernel
  have hdep : (chainAt (stackWindow true subWindow []) 8 7).dep "cx".toList ≠
        (chainAt (stackWindow true subWindow []) 8 3).depthIn (.reg (bx true)) := by
    decide +kernel
  refine ⟨⟨⟨by decide, by decide, fun k hk hkj => ?_⟩, by decide, hlive⟩,
    ⟨by decide, by decide, fun k hk hkj => ?_⟩, by decide, hdep⟩
  · interval_cases k <;> decide
  · interval_cases k <;> decide

end OMB
