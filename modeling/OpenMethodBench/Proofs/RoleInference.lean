import OpenMethodBench.Proofs.RolePass
import OpenMethodBench.Proofs.SliceLoop

/-! Role inference is reaching definitions: in straight-line code `roles` names a load
exactly at its first use, by what the use makes of it. -/

namespace OMB

/-! ## Straight-line windows -/

/-- Does the instruction mention the stack pointer? -/
def Insn.mentionsStack (x : Insn) : Bool :=
  Text.occurs "esp".toList (unspaced x.ops) || Text.occurs "rsp".toList (unspaced x.ops)

/-- Calls and jumps, and `push`, which moves the stack pointer. -/
def transfers : List Text := ["push", "call", "jmp", "je", "jne", "ret"].map String.toList

/-- No stack pointer, call or jump before the last instruction. -/
structure Straight (win : List Insn) : Prop where
  words : ∀ x ∈ win, isWord x.mnem = true
  no_stack : ∀ x ∈ win.dropLast, x.mentionsStack = false
  no_transfer : ∀ x ∈ win.dropLast, transfers.contains x.mnem = false

/-- `cmp` and `test` write no register, anything else its first operand where that is one. -/
def Insn.writes (x : Insn) : Option Text :=
  if (["cmp", "test"].map String.toList).contains x.mnem then none
  else (firstOperand x.ops).map canon

/-- What position `g` loaded from a global is in register `r` at position `j`: no
instruction between the two writes `r`. -/
def Holds (win : List Insn) (reads : Reads) (r : Text) (j g : ℕ) : Prop :=
  LoadsGlobal win reads g ∧ Reaching.Reaches (fun k => (win[k]?).bind Insn.writes) g r j

/-- The family of the symbol an instruction reads. -/
def familyOf (reads : Reads) (g : ℕ) : Option Family := (reads g).map fun r => family r.1

/-- The family a name belongs to. -/
def Role.family : Role → Family
  | .mult | .shift | .vptrs => .st
  | .stride | .slot => .fn

/-- The instruction uses a register of which `P` holds, by its common name, in the way the
role says. -/
def Insn.UsesAs (x : Insn) (P : Text → Prop) : Role → Prop
  | .mult | .stride => x.mnem = "imul".toList ∧ P (canon ((x.ops.splitOn ',').headD []))
  | .shift => "shr".toList <+: x.mnem ∧ ∃ count, thirdWord x.ops = some count ∧ P (canon count)
  | .slot => ∃ base index, tableOperand x.text = some (base, index) ∧ P (canon index)
  | .vptrs => ∃ base index, tableOperand x.text = some (base, index) ∧ P (canon base)

/-- At position `j` the load `g` is used as the role says. An `imul` that reads a global
itself uses that one instead of its operand. -/
def UseOf (win : List Insn) (reads : Reads) (role : Role) (j g : ℕ) : Prop :=
  familyOf reads g = some role.family ∧ ∃ x, win[j]? = some x ∧
    if (role = .mult ∨ role = .stride) ∧ (reads j).isSome then x.mnem = "imul".toList ∧ g = j
    else x.UsesAs (fun r => Holds win reads r j g) role

/-- `roles` gives the name at position `j`. -/
def GivenAt (win : List Insn) (reads : Reads) (word : ℕ) (role : Role) (j g : ℕ) : Prop :=
  ∃ s s', rolesUpTo win reads word j = some s ∧ rolesUpTo win reads word (j + 1) = some s' ∧
    s.named g = none ∧ s'.named g = some role

/-! ## The stack stays out of it -/

theorem occurs_of_suffix {sub t u : Text} (h : u <:+ t) (hu : Text.occurs sub u = true) :
    Text.occurs sub t = true := by
  induction t with
  | nil => rwa [List.suffix_nil.mp h] at hu
  | cons c t ih =>
    rcases List.suffix_cons_iff.mp h with rfl | h
    · exact hu
    · rw [Text.occurs, ih h, Bool.or_true]

theorem slotAt_occurs {t : Text} {offset : ℕ} {rest : Text} (h : slotAt t = some (offset, rest)) :
    Text.occurs "esp".toList t = true ∨ Text.occurs "rsp".toList t = true := by
  unfold slotAt at h
  split at h
  · split at h
    · split_ifs at h with hc
      simp only [Bool.and_eq_true, Bool.or_eq_true, beq_iff_eq] at hc
      rcases hc.1 with rfl | rfl
      · exact Or.inl (by simp [Text.occurs])
      · exact Or.inr (by simp [Text.occurs])
    · simp at h
  · simp at h

theorem ptrAt_suffix {t u : Text} (h : ptrAt t = some u) : u <:+ t := by
  simp only [ptrAt] at h
  split_ifs at h
  exact Option.some.inj h ▸ List.dropWhile_suffix _

theorem reload_eq_none {x : Insn} (h : x.mentionsStack = false) : x.reload = none := by
  rw [Insn.mentionsStack, Bool.or_eq_false_iff] at h
  rw [← Option.not_isSome_iff_eq_none, Option.isSome_iff_exists]
  rintro ⟨offset, hr⟩
  unfold Insn.reload at hr
  split_ifs at hr
  simp only [reloadOf] at hr
  split at hr
  · rename_i u hu
    simp only [Option.bind_eq_bind, Option.bind_eq_some_iff] at hr
    obtain ⟨v, hv, slot, hslot, -⟩ := hr
    -- the slot stands at the end of the operands
    have hsuffix : v <:+ unspaced x.ops :=
      (ptrAt_suffix hv).trans ((List.suffix_cons ',' u).trans (hu ▸ List.dropWhile_suffix _))
    rcases slotAt_occurs hslot with ho | ho
    · rw [occurs_of_suffix hsuffix ho] at h
      exact absurd h.1 (by decide)
    · rw [occurs_of_suffix hsuffix ho] at h
      exact absurd h.2 (by decide)
  · simp at hr

/-! ## What reaches a use -/

section Straight

variable {win : List Insn} {reads : Reads} (word : ℕ)

theorem mem_dropLast {k : ℕ} {x : Insn} (hk : k + 1 < win.length) (hx : win[k]? = some x) :
    x ∈ win.dropLast := by
  apply List.mem_of_getElem? (i := k)
  rw [List.getElem?_dropLast, if_pos (by omega), hx]

/-- Before the last instruction the pass sees the writes as they are. -/
theorem Straight.defines_eq (h : Straight win) {x : Insn} (hx : x ∈ win.dropLast) :
    x.defines = x.writes := by
  have hno := h.no_transfer x hx
  have hsplit : ∀ m ∈ readsFirst, m ∈ transfers ∨ m ∈ ["cmp", "test"].map String.toList := by
    decide
  have hread : ∀ m ∈ ["cmp", "test"].map String.toList, m ∈ readsFirst := by decide
  rw [List.contains_eq_mem, decide_eq_false_iff_not] at hno
  have hmnem : readsFirst.contains x.mnem =
      (["cmp", "test"].map String.toList).contains x.mnem := by
    rw [Bool.eq_iff_iff, List.contains_iff_mem, List.contains_iff_mem]
    exact ⟨fun hm => (hsplit _ hm).resolve_left hno, hread _⟩
  rw [Insn.defines, Insn.writes, hmnem]

/-- `live` has for each register the global load that reaches. -/
theorem Straight.live_iff (h : Straight win) {j : ℕ} (hj : j < win.length) (r : Text) (g : ℕ) :
    (roleState win reads word j).live r = some g ↔ Holds win reads r j g := by
  induction j with
  | zero =>
    refine iff_of_false ?_ fun hr => Reaching.not_reaches_zero hr.2
    simp [roleState, rolesUpTo, RoleState.init]
  | succ j ih =>
    have hx : win[j]? = some win[j] := List.getElem?_eq_getElem (by omega)
    have hmem := mem_dropLast (by omega) hx
    have hw := h.defines_eq hmem
    rw [(roleState_succ win reads word hx).1, Holds, Reaching.reaches_succ_iff]
    simp only [hx, Option.bind_some]
    by_cases hr : (win[j]).writes = some r
    · rw [liveAfter_of_eq (hw.trans hr)]
      have hload : (LoadsGlobal win reads j) ↔
          (reads j).isSome = true ∧ plainMoves.contains (win[j]).mnem = true := by
        simp [LoadsGlobal, hx]
      by_cases hl : (reads j).isSome = true ∧ plainMoves.contains (win[j]).mnem = true
      · rw [loadOf_load hl.1 hl.2, Option.some.injEq]
        refine ⟨?_, ?_⟩
        · rintro rfl
          exact ⟨hload.mpr hl, Or.inl ⟨rfl, hr⟩⟩
        · rintro ⟨-, ⟨rfl, -⟩ | ⟨hne, -⟩⟩
          · rfl
          · exact absurd hr hne
      · rw [loadOf_other hl (reload_eq_none (h.no_stack _ hmem))]
        refine iff_of_false (by simp) ?_
        rintro ⟨hg, ⟨rfl, -⟩ | ⟨hne, -⟩⟩
        · exact hl (hload.mp hg)
        · exact hne hr
    · rw [liveAfter_of_ne (hw ▸ hr), ih (by omega), Holds]
      simp [hr]

end Straight

/-! ## What the uses of one instruction give -/

theorem any_family_iff {reads : Reads} {g : ℕ} {f : Family} :
    ((reads g).any fun r => family r.1 == f) = true ↔ familyOf reads g = some f := by
  rcases hr : reads g with - | r <;> simp [familyOf, hr]

@[simp] theorem calledName_nil (reads : Reads) (g : ℕ) : calledName reads [] g = none := rfl

theorem calledName_cons {reads : Reads} (c : Option ℕ × Family × Role)
    (cs : List (Option ℕ × Family × Role)) (g : ℕ) :
    calledName reads (c :: cs) g =
      if c.1 = some g ∧ familyOf reads g = some c.2.1 then some c.2.2
      else calledName reads cs g := by
  rw [calledName, List.find?_cons]
  by_cases h : c.1 = some g ∧ familyOf reads g = some c.2.1
  · rw [if_pos h, beq_iff_eq.mpr h.1, any_family_iff.mpr h.2]
    rfl
  · rw [if_neg h]
    have hno : (c.1 == some g && ((reads g).any fun r => family r.1 == c.2.1)) = false := by
      rw [← Bool.not_eq_true, Bool.and_eq_true, beq_iff_eq, any_family_iff]
      exact h
    rw [hno]
    rfl

theorem calledName_append {reads : Reads} (a b : List (Option ℕ × Family × Role)) (g : ℕ) :
    calledName reads (a ++ b) g = (calledName reads a g).or (calledName reads b g) := by
  induction a with
  | nil => rfl
  | cons c a ih =>
    rw [List.cons_append, calledName_cons, calledName_cons, ih]
    split_ifs <;> rfl

/-- Three words hold no bracket. -/
theorem tableOperand_eq_none {t : Text} (h : '[' ∉ t) : tableOperand t = none := by
  induction t with
  | nil => rfl
  | cons c t ih =>
    rw [List.mem_cons, not_or] at h
    have hc : tableAt (c :: t) = none := by
      unfold tableAt
      split
      · rename_i heq
        exact absurd (List.cons.inj heq).1.symm h.1
      · rfl
    rw [tableOperand, hc, ih h.2]
    rfl

/-- An instruction on three words has no table operand. -/
theorem tableOperand_of_thirdWord {x : Insn} (hword : isWord x.mnem = true) {count : Text}
    (h : thirdWord x.ops = some count) : tableOperand x.text = none := by
  have hlow : ∀ c ∈ x.mnem, isLow c = true := by
    rw [isWord, Bool.and_eq_true, List.all_eq_true] at hword
    exact hword.2
  have hops : '[' ∉ x.ops := by
    intro hc
    unfold thirdWord at h
    split at h
    · rename_i a b d hsplit
      split_ifs at h with hwords
      simp only [isWord, Bool.and_eq_true, List.all_eq_true] at hwords
      have hjoin : x.ops = Text.join ',' [a, b, d] := by
        rw [← hsplit]
        exact (List.intercalate_splitOn ',').symm
      have hfield : ∀ u : Text, (∀ c ∈ Text.lstrip u, isLow c = true) → '[' ∉ u := by
        intro u hu hcu
        have : '[' ∈ Text.lstrip u := by
          rw [← List.takeWhile_append_dropWhile (p := Text.isSpace) (l := u)] at hcu
          rcases List.mem_append.mp hcu with hcu | hcu
          · exact absurd (List.mem_takeWhile_imp hcu) (by decide)
          · exact hcu
        exact absurd (hu _ this) (by decide)
      rw [hjoin] at hc
      rcases Text.mem_join hc with hcomma | ⟨u, hu, hcu⟩
      · exact absurd hcomma (by decide)
      · simp only [List.mem_cons, List.not_mem_nil, or_false] at hu
        rcases hu with rfl | rfl | rfl
        · exact absurd (hwords.1.1.2 _ hcu) (by decide)
        · exact hfield _ hwords.1.2.2 hcu
        · exact hfield _ hwords.2.2 hcu
    · simp at h
  apply tableOperand_eq_none
  intro hc
  have hsplit : x.text = x.text.take x.mnem.length ++ x.text.drop x.mnem.length :=
    (List.take_append_drop _ _).symm
  rw [hsplit] at hc
  rcases List.mem_append.mp hc with hc | hc
  · -- the front of the text is white space and a prefix of the mnemonic
    have hfront : x.text = x.text.takeWhile Text.isSpace ++ (x.mnem ++
        (Text.lstrip x.text).dropWhile fun c => !Text.isSpace c) := by
      rw [Insn.mnem, Text.firstWord, List.takeWhile_append_dropWhile, Text.lstrip,
        List.takeWhile_append_dropWhile]
    rw [hfront, ← List.append_assoc] at hc
    have hle : x.mnem.length ≤ (x.text.takeWhile Text.isSpace ++ x.mnem).length := by
      rw [List.length_append]
      omega
    rw [List.take_append_of_le_length hle] at hc
    have hc' := List.mem_of_mem_take hc
    rcases List.mem_append.mp hc' with hc' | hc'
    · exact absurd (List.mem_takeWhile_imp hc') (by decide)
    · exact absurd (hlow _ hc') (by decide)
  · exact hops (mem_strip hc (by decide))

section Uses

variable {reads : Reads} {live : Text → Option ℕ} {i : ℕ} {x : Insn} {g : ℕ}

/-- The uses of an instruction, by what `live` says. -/
def UsesLive (reads : Reads) (live : Text → Option ℕ) (i : ℕ) (x : Insn) (role : Role) (g : ℕ) :
    Prop :=
  familyOf reads g = some role.family ∧
    if (role = .mult ∨ role = .stride) ∧ (reads i).isSome then x.mnem = "imul".toList ∧ g = i
    else x.UsesAs (fun r => live r = some g) role

/-- The use is as a factor. -/
def Role.isFactor : Role → Prop
  | .mult | .stride => True
  | _ => False

theorem calledName_factors (role : Role) :
    calledName reads (factorCalls reads live i x) g = some role ↔
      role.isFactor ∧ UsesLive reads live i x role g := by
  have hfactor : factorOf reads live i x = some g ↔
      if (reads i).isSome then g = i
      else live (canon ((x.ops.splitOn ',').headD [])) = some g := by
    unfold factorOf
    split_ifs
    · rw [Option.some.injEq, eq_comm]
    · rfl
  unfold factorCalls
  by_cases himul : x.mnem = "imul".toList
  · rw [if_pos (beq_iff_eq.mpr himul), calledName_cons, calledName_cons, calledName_nil]
    simp only [hfactor]
    cases role <;> simp only [UsesLive, Role.isFactor, Role.family, Insn.UsesAs, himul] <;>
      grind
  · rw [if_neg (by simpa using himul), calledName_nil]
    cases role <;> simp only [UsesLive, Role.isFactor, Insn.UsesAs, himul] <;> grind

theorem calledName_others (hword : isWord x.mnem = true) (role : Role) :
    (calledName reads (shiftCalls live x) g).or (calledName reads (tableCalls live x) g) =
      some role ↔ ¬ role.isFactor ∧ UsesLive reads live i x role g := by
  unfold shiftCalls tableCalls
  rcases hthird : thirdWord x.ops with - | count
  · rcases htable : tableOperand x.text with - | ⟨base, index⟩
    · cases role <;> simp [UsesLive, Role.isFactor, Insn.UsesAs, hthird, htable]
    · simp only [calledName_nil, calledName_cons, Option.none_or]
      cases role <;>
        simp only [UsesLive, Role.isFactor, Role.family, Insn.UsesAs, hthird, htable] <;> grind
  · -- with three words there is no table operand
    have htable := tableOperand_of_thirdWord hword hthird
    rw [htable]
    by_cases hshr : "shr".toList <+: x.mnem
    · have hif : "shr".toList.isPrefixOf x.mnem = true := List.isPrefixOf_iff_prefix.mpr hshr
      simp only [hif, if_true, calledName_cons, calledName_nil, Option.or_none]
      cases role <;>
        simp only [UsesLive, Role.isFactor, Role.family, Insn.UsesAs, hthird, hshr, htable] <;> grind
    · have hif : "shr".toList.isPrefixOf x.mnem = false := by
        rw [← Bool.not_eq_true]
        exact mt List.isPrefixOf_iff_prefix.mp hshr
      simp only [hif, Bool.false_eq_true, if_false, calledName_nil, Option.or_none]
      cases role <;> simp only [UsesLive, Role.isFactor, Insn.UsesAs, hshr, htable] <;> grind

/-- An instruction names what it uses, and a factor before anything else. -/
theorem calledName_eq_some_iff (hword : isWord x.mnem = true) (role : Role) :
    calledName reads (nameCalls reads live i x) g = some role ↔
      UsesLive reads live i x role g ∧ (¬ role.isFactor →
        ¬ UsesLive reads live i x .mult g ∧ ¬ UsesLive reads live i x .stride g) := by
  have hothers := @calledName_others reads live i x g hword role
  have hfactors := @calledName_factors reads live i x g
  rw [nameCalls, List.append_assoc, calledName_append, calledName_append]
  rcases hcalled : calledName reads (factorCalls reads live i x) g with - | first
  · -- no factor
    rw [Option.none_or, hothers]
    simp only [hcalled, reduceCtorEq, false_iff, not_and] at hfactors
    constructor
    · intro h
      exact ⟨h.2, fun _ => ⟨hfactors .mult trivial, hfactors .stride trivial⟩⟩
    · intro h
      exact ⟨fun hrole => hfactors role hrole h.1, h.1⟩
  · rw [Option.some_or, ← hcalled, hfactors]
    have hfirst := (hfactors first).mp hcalled
    constructor
    · intro h
      exact ⟨h.2, fun hno => absurd h.1 hno⟩
    · intro h
      refine ⟨?_, h.1⟩
      by_contra hrole
      cases first with
      | mult => exact (h.2 hrole).1 hfirst.2
      | stride => exact (h.2 hrole).2 hfirst.2
      | _ => exact hfirst.1

end Uses

/-! ## The names of a window -/

section Window

variable {win : List Insn} {reads : Reads} (word : ℕ) (h : Straight win)

include h

theorem Straight.usesLive_iff {j : ℕ} (hj : j < win.length) {x : Insn} (hx : win[j]? = some x)
    (role : Role) (g : ℕ) :
    UsesLive reads (roleState win reads word j).live j x role g ↔ UseOf win reads role j g := by
  have hlive : (fun r => (roleState win reads word j).live r = some g) =
      fun r => Holds win reads r j g := by
    funext r
    exact propext (h.live_iff word hj r g)
  rw [UsesLive, UseOf, hlive]
  simp [hx]

omit h in
theorem givenAt_iff_named (role : Role) (j g : ℕ) :
    GivenAt win reads word role j g ↔ (roleState win reads word j).named g = none ∧
      (roleState win reads word (j + 1)).named g = some role := by
  refine ⟨?_, fun hn => ⟨_, _, rolesUpTo_eq win reads word j, rolesUpTo_eq win reads word (j + 1), hn⟩⟩
  rintro ⟨s, s', hs, hs', hn⟩
  rw [rolesUpTo_eq, Option.some.injEq] at hs hs'
  rwa [hs, hs']

omit h in
/-- A name was given at some position before. -/
theorem named_iff_givenAt (n g : ℕ) (role : Role) :
    (roleState win reads word n).named g = some role ↔ ∃ k < n, GivenAt win reads word role k g := by
  refine ⟨fun hn => ?_, ?_⟩
  · induction n with
    | zero => simp [roleState, rolesUpTo, RoleState.init] at hn
    | succ n ih =>
      rcases hprev : (roleState win reads word n).named g with - | role'
      · exact ⟨n, by omega, (givenAt_iff_named word role n g).mpr ⟨hprev, hn⟩⟩
      · have hkept := named_mono win reads word hprev (show n ≤ n + 1 by omega)
        obtain rfl := Option.some.inj (hkept.symm.trans hn)
        obtain ⟨k, hk, hgiven⟩ := ih hprev
        exact ⟨k, by omega, hgiven⟩
  · rintro ⟨k, hk, hgiven⟩
    exact named_mono win reads word ((givenAt_iff_named word role k g).mp hgiven).2 (by omega)

omit h in
theorem named_eq_none_iff_givenAt (n g : ℕ) :
    (roleState win reads word n).named g = none ↔
      ∀ k < n, ∀ role, ¬ GivenAt win reads word role k g := by
  rw [← not_iff_not, ← ne_eq, Option.ne_none_iff_exists']
  simp only [named_iff_givenAt word n g]
  push Not
  tauto

/-- A position gives the name of what it uses, unless the load has one by then. -/
theorem Straight.givenAt_iff {j : ℕ} {x : Insn} (hx : win[j]? = some x) (role : Role) (g : ℕ) :
    GivenAt win reads word role j g ↔
      UseOf win reads role j g ∧ (∀ k < j, ∀ role', ¬ GivenAt win reads word role' k g) ∧
        (¬ role.isFactor → ¬ UseOf win reads .mult j g ∧ ¬ UseOf win reads .stride j g) := by
  have hj : j < win.length := (List.getElem?_eq_some_iff.mp hx).1
  have hword := h.words _ (List.mem_of_getElem? hx)
  rw [givenAt_iff_named, (roleState_succ win reads word hx).2 g, ← named_eq_none_iff_givenAt]
  simp only [← h.usesLive_iff word hj hx]
  refine ⟨?_, ?_⟩
  · rintro ⟨hn, hs⟩
    rw [hn, Option.none_or, calledName_eq_some_iff hword] at hs
    exact ⟨hs.1, hn, hs.2⟩
  · rintro ⟨huse, hn, hfactor⟩
    rw [hn, Option.none_or]
    exact ⟨rfl, (calledName_eq_some_iff hword role).mpr ⟨huse, hfactor⟩⟩

end Window

/-- No use before position `j`, and no factor use there, has given `g` a name. -/
def Fresh (win : List Insn) (reads : Reads) (word j g : ℕ) : Prop :=
  (∀ k < j, ∀ role, ¬ GivenAt win reads word role k g) ∧
    ¬ UseOf win reads .mult j g ∧ ¬ UseOf win reads .stride j g

/-- In a straight-line window `roles` returns, its names are those given at some position,
and a position gives a load the name slot, vptrs or shift exactly when the load is in the
register used that way and has no name yet. -/
theorem role_inference (win : List Insn) (reads : Reads) (word : ℕ) (h : Straight win) :
    (∃ named, roles win reads word = some named ∧ ∀ g role, named g = some role ↔
        ∃ j < win.length, GivenAt win reads word role j g) ∧
      ∀ j x, win[j]? = some x → ∀ g,
        (familyOf reads g = some .fn →
          (GivenAt win reads word .slot j g ↔ Fresh win reads word j g ∧
            ∃ base index, tableOperand x.text = some (base, index) ∧
              Holds win reads (canon index) j g)) ∧
        (familyOf reads g = some .st →
          (GivenAt win reads word .vptrs j g ↔ Fresh win reads word j g ∧
            ∃ base index, tableOperand x.text = some (base, index) ∧
              Holds win reads (canon base) j g) ∧
          (GivenAt win reads word .shift j g ↔ Fresh win reads word j g ∧
            "shr".toList <+: x.mnem ∧ ∃ count, thirdWord x.ops = some count ∧
              Holds win reads (canon count) j g)) := by
  refine ⟨⟨_, roles_eq win reads word, fun g role => named_iff_givenAt word _ g role⟩, ?_⟩
  intro j x hx g
  have hgiven : ∀ role, GivenAt win reads word role j g ↔ _ :=
    fun role => h.givenAt_iff word hx role g
  have huse : ∀ role, ¬ role.isFactor → (UseOf win reads role j g ↔
      familyOf reads g = some role.family ∧ x.UsesAs (fun r => Holds win reads r j g) role) := by
    intro role hrole
    have hno : ¬ ((role = .mult ∨ role = .stride) ∧ (reads j).isSome = true) := by
      rintro ⟨rfl | rfl, -⟩ <;> exact hrole trivial
    simp [UseOf, hx, hno]
  have hslot := huse .slot id
  have hvptrs := huse .vptrs id
  have hshift := huse .shift id
  refine ⟨fun hfam => ?_, fun hfam => ⟨?_, ?_⟩⟩
  · have hfam' : familyOf reads g = some (Role.family .slot) := hfam
    rw [hgiven, hslot, and_iff_right hfam', forall_prop_of_true (show ¬ Role.isFactor .slot from id)]
    exact and_comm
  · have hfam' : familyOf reads g = some (Role.family .vptrs) := hfam
    rw [hgiven, hvptrs, and_iff_right hfam', forall_prop_of_true (show ¬ Role.isFactor .vptrs from id)]
    exact and_comm
  · have hfam' : familyOf reads g = some (Role.family .shift) := hfam
    rw [hgiven, hshift, and_iff_right hfam', forall_prop_of_true (show ¬ Role.isFactor .shift from id)]
    exact and_comm

theorem not_useOf_factor {win : List Insn} {reads : Reads} {j g : ℕ} {x : Insn}
    (hx : win[j]? = some x) (hmnem : x.mnem ≠ "imul".toList) :
    ¬ UseOf win reads .mult j g ∧ ¬ UseOf win reads .stride j g := by
  constructor
  all_goals
    rintro ⟨-, y, hy, huse⟩
    obtain rfl := Option.some.inj (hx.symm.trans hy)
    split at huse <;> exact hmnem huse.1

/-- A slot and a table loaded from globals, and their use. -/
def slotUse : List Insn :=
  [⟨0x10, "mov rax,QWORD PTR [rip+0x2fe0]".toList⟩,
   ⟨0x17, "mov rcx,QWORD PTR [rip+0x3010]".toList⟩,
   ⟨0x1e, "mov rcx,QWORD PTR [rcx+rax*8+0x10]".toList⟩,
   ⟨0x23, "call QWORD PTR [rcx]".toList⟩]

def slotReads : Reads
  | 0 => some ("omb::poke::fn".toList, 8)
  | 1 => some ("omb::registry_state".toList, 24)
  | _ => none

theorem slotUse_straight : Straight slotUse where
  words := by decide +kernel
  no_stack := by decide +kernel
  no_transfer := by decide +kernel

theorem slot_use_named :
    GivenAt slotUse slotReads 8 .slot 2 0 ∧ GivenAt slotUse slotReads 8 .vptrs 2 1 := by
  have hrole := (role_inference slotUse slotReads 8 slotUse_straight).2 2 _ rfl
  have hfresh : ∀ g, (roleState slotUse slotReads 8 2).named g = none →
      Fresh slotUse slotReads 8 2 g :=
    fun g hg => ⟨(named_eq_none_iff_givenAt 8 2 g).mp hg, not_useOf_factor rfl (by decide +kernel)⟩
  have htable : tableOperand "mov rcx,QWORD PTR [rcx+rax*8+0x10]".toList =
      some ("rcx".toList, "rax".toList) := by
    decide +kernel
  refine ⟨((hrole 0).1 (by decide +kernel)).mpr ⟨hfresh 0 (by decide +kernel), _, _, htable, ?_⟩,
    ((hrole 1).2 (by decide +kernel)).1.mpr ⟨hfresh 1 (by decide +kernel), _, _, htable, ?_⟩⟩
  · refine ⟨⟨rfl, _, rfl, by decide +kernel⟩, by decide, by decide +kernel, fun k hk hk' => ?_⟩
    obtain rfl : k = 1 := by omega
    decide +kernel
  · exact ⟨⟨rfl, _, rfl, by decide +kernel⟩, by decide, by decide +kernel, fun k hk hk' => by omega⟩

end OMB
