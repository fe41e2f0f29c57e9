import Mathlib
import OpenMethodBench.Spec.Roles

/-! The pass of `roles`, one instruction at a time: what it does to `live`, which names it
gives, and that it never looks up an instruction that reads no global. -/

namespace OMB

/-! ## Definitions -/

/-- The instruction loads a register from a global, as `mov`, `movzx`, `movsx` or `lea`. -/
def LoadsGlobal (win : List Insn) (reads : Reads) (g : ℕ) : Prop :=
  (reads g).isSome = true ∧ ∃ x, win[g]? = some x ∧ plainMoves.contains x.mnem = true

/-- What the positions of a window write. -/
def definesAt (win : List Insn) (k : ℕ) : Option Text := (win[k]?).bind Insn.defines

section Live

variable {reads : Reads} {i : ℕ} {x : Insn} {s : RoleState} {stack : ℤ → Option (Option ℕ)}
  {r : Text}

/-- Nothing but the register written changes. -/
theorem liveAfter_of_ne (h : x.defines ≠ some r) : liveAfter reads i x s stack r = s.live r := by
  unfold liveAfter
  rcases hd : x.defines with - | dst
  · rfl
  · apply Function.update_of_ne
    rintro rfl
    exact h hd

theorem liveAfter_of_eq (h : x.defines = some r) :
    liveAfter reads i x s stack r = loadOf reads i x s stack := by
  unfold liveAfter
  rw [h]
  exact Function.update_self _ _ _

theorem loadOf_load (hreads : (reads i).isSome = true)
    (hmove : plainMoves.contains x.mnem = true) : loadOf reads i x s stack = some i := by
  unfold loadOf
  rw [hreads, hmove]
  rfl

/-- Anything else leaves the register without a load, unless a slot is read. -/
theorem loadOf_other (hload : ¬ ((reads i).isSome = true ∧ plainMoves.contains x.mnem = true))
    (hreload : x.reload = none) : loadOf reads i x s stack = none := by
  unfold loadOf
  rw [← Bool.and_eq_true] at hload
  rw [if_neg hload, hreload]
  rfl

/-- What `live` gets is this load, or what a slot holds. -/
theorem loadOf_mem {g : ℕ} (h : loadOf reads i x s stack = some g) :
    (g = i ∧ (reads i).isSome = true) ∨ ∃ k, stack k = some (some g) := by
  unfold loadOf at h
  split_ifs at h with hload
  · rw [Bool.and_eq_true] at hload
    exact Or.inl ⟨(Option.some.inj h).symm, hload.1⟩
  · obtain ⟨offset, -, hslot⟩ := Option.bind_eq_some_iff.mp h
    refine Or.inr ⟨offset - s.delta, ?_⟩
    rcases hk : stack (offset - s.delta) with - | v
    · rw [hk] at hslot
      simp at hslot
    · rw [hk] at hslot
      exact congrArg some hslot

end Live

/-! ## No lookup fails -/

/-- Everything the pass remembers reads a global. -/
structure Known (reads : Reads) (s : RoleState) : Prop where
  live : ∀ r g, s.live r = some g → (reads g).isSome = true
  stack : ∀ k g, s.stack k = some (some g) → (reads g).isSome = true

theorem Known.init (reads : Reads) : Known reads RoleState.init := by
  constructor <;> simp [RoleState.init]

theorem Known.stackAfter {reads : Reads} {s : RoleState} (h : Known reads s) (x : Insn) (k : ℤ)
    (g : ℕ) (hg : stackAfter s x k = some (some g)) : (reads g).isSome = true := by
  unfold OMB.stackAfter at hg
  rcases hx : x.spill with - | ⟨offset, src⟩
  · rw [hx] at hg
    exact h.stack k g hg
  · rw [hx] at hg
    rcases eq_or_ne k (offset - s.delta) with rfl | hk
    · simp only [Function.update_self, Option.some.injEq] at hg
      exact h.live _ g hg
    · simp only [Function.update_of_ne hk] at hg
      exact h.stack k g hg

theorem Known.factorOf {reads : Reads} {s : RoleState} (h : Known reads s) (i : ℕ) (x : Insn)
    {g : ℕ} (hg : factorOf reads s.live i x = some g) : (reads g).isSome = true := by
  unfold OMB.factorOf at hg
  split_ifs at hg with hread
  · exact Option.some.inj hg ▸ hread
  · exact h.live _ g hg

/-- The calls of `name` are about instructions that read a global. -/
theorem Known.nameCalls {reads : Reads} {s : RoleState} (h : Known reads s) (i : ℕ) (x : Insn) :
    ∀ c ∈ nameCalls reads s.live i x, ∀ g, c.1 = some g → (reads g).isSome = true := by
  intro c hc g hg
  rw [OMB.nameCalls, List.mem_append, List.mem_append] at hc
  rcases hc with (hc | hc) | hc
  · unfold factorCalls at hc
    split_ifs at hc
    · simp only [List.mem_cons, List.not_mem_nil, or_false] at hc
      rcases hc with rfl | rfl <;> exact h.factorOf i x hg
    · simp at hc
  · unfold shiftCalls at hc
    split at hc
    · split_ifs at hc
      · rw [List.mem_singleton.mp hc] at hg
        exact h.live _ g hg
      · simp at hc
    · simp at hc
  · unfold tableCalls at hc
    split at hc
    · simp only [List.mem_cons, List.not_mem_nil, or_false] at hc
      rcases hc with rfl | rfl <;> exact h.live _ g hg
    · simp at hc

/-! ## Names -/

/-- The name a list of calls has for an instruction: that of the first call about it that
asks for its family. -/
def calledName (reads : Reads) (calls : List (Option ℕ × Family × Role)) (g : ℕ) : Option Role :=
  (calls.find? fun c => c.1 == some g && ((reads g).any fun r => family r.1 == c.2.1)).map (·.2.2)

/-- `setdefault`: the first name stays. -/
theorem foldlM_nameCall {reads : Reads} {calls : List (Option ℕ × Family × Role)}
    (h : ∀ c ∈ calls, ∀ g, c.1 = some g → (reads g).isSome = true) (named : ℕ → Option Role) :
    ∃ named', calls.foldlM (nameCall reads) named = some named' ∧
      ∀ g, named' g = (named g).or (calledName reads calls g) := by
  induction calls generalizing named with
  | nil => exact ⟨named, rfl, fun g => by simp [calledName]⟩
  | cons c calls ih =>
    have htail : ∀ c' ∈ calls, ∀ g, c'.1 = some g → (reads g).isSome = true :=
      fun c' hc' => h c' (List.mem_cons_of_mem c hc')
    obtain ⟨idx, fam, role⟩ := c
    rcases idx with - | idx
    · obtain ⟨named', hfold, hnamed⟩ := ih htail named
      exact ⟨named', hfold, fun g => by rw [hnamed g]; simp [calledName]⟩
    · obtain ⟨r, hr⟩ := Option.isSome_iff_exists.mp (h _ (List.mem_cons_self) idx rfl)
      have hstep : nameCall reads named (some idx, fam, role) =
          some (if family r.1 = fam ∧ named idx = none then Function.update named idx (some role)
            else named) := by
        simp [nameCall, hr]
      obtain ⟨named', hfold, hnamed⟩ := ih htail
        (if family r.1 = fam ∧ named idx = none then Function.update named idx (some role)
          else named)
      refine ⟨named', by rw [List.foldlM_cons, hstep]; exact hfold, fun g => ?_⟩
      rw [hnamed g]
      by_cases hg : g = idx
      · subst hg
        by_cases hfam : family r.1 = fam
        · rcases hn : named g with - | old
          · simp [calledName, hr, hfam]
          · simp [hn]
        · simp [calledName, hr, hfam]
      · have hg' : (idx == g) = false := beq_eq_false_iff_ne.mpr (Ne.symm hg)
        have hsame : (if family r.1 = fam ∧ named idx = none then
            Function.update named idx (some role) else named) g = named g := by
          split_ifs
          · exact Function.update_of_ne hg _ _
          · rfl
        rw [hsame]
        simp [calledName, hg']

/-! ## Runs -/

section Runs

variable (win : List Insn) (reads : Reads) (word : ℕ)

theorem roleStep_spec {s : RoleState} (hs : Known reads s) (i : ℕ) (x : Insn) :
    ∃ s', roleStep reads word i s x = some s' ∧ Known reads s' ∧
      s'.live = liveAfter reads i x s (stackAfter s x) ∧
      ∀ g, s'.named g = (s.named g).or (calledName reads (nameCalls reads s.live i x) g) := by
  obtain ⟨named, hfold, hnamed⟩ := foldlM_nameCall (hs.nameCalls i x) s.named
  refine ⟨_, by rw [roleStep, hfold]; rfl, ⟨fun r g hg => ?_, fun k g hg => hs.stackAfter x k g hg⟩,
    rfl, hnamed⟩
  by_cases hr : x.defines = some r
  · rcases loadOf_mem ((liveAfter_of_eq hr).symm.trans hg) with ⟨rfl, hg⟩ | ⟨k, hk⟩
    · exact hg
    · exact hs.stackAfter x k g hk
  · exact hs.live r g ((liveAfter_of_ne hr).symm.trans hg)

/-- The pass never fails. -/
theorem rolesUpTo_ok (n : ℕ) : ∃ s, rolesUpTo win reads word n = some s ∧ Known reads s := by
  induction n with
  | zero => exact ⟨_, rfl, Known.init reads⟩
  | succ n ih =>
    obtain ⟨s, hs, hknown⟩ := ih
    rcases hx : win[n]? with - | x
    · exact ⟨s, by simp [rolesUpTo, hs, hx], hknown⟩
    · obtain ⟨s', hs', hknown', -⟩ := roleStep_spec reads word hknown n x
      exact ⟨s', by simp [rolesUpTo, hs, hx, hs'], hknown'⟩

/-- The state before position `n`. -/
def roleState (n : ℕ) : RoleState := (rolesUpTo win reads word n).getD RoleState.init

theorem rolesUpTo_eq (n : ℕ) : rolesUpTo win reads word n = some (roleState win reads word n) := by
  obtain ⟨s, hs, -⟩ := rolesUpTo_ok win reads word n
  rw [roleState, hs]
  rfl

theorem roleState_known (n : ℕ) : Known reads (roleState win reads word n) := by
  obtain ⟨s, hs, hknown⟩ := rolesUpTo_ok win reads word n
  rwa [roleState, hs]

theorem roleState_step {n : ℕ} {x : Insn} (hx : win[n]? = some x) :
    roleStep reads word n (roleState win reads word n) x =
      some (roleState win reads word (n + 1)) := by
  have hup := rolesUpTo_eq win reads word (n + 1)
  rw [rolesUpTo, rolesUpTo_eq win reads word n] at hup
  simpa only [hx, Option.bind_eq_bind, Option.bind_some] using hup

theorem roleState_succ {n : ℕ} {x : Insn} (hx : win[n]? = some x) :
    let s := roleState win reads word n
    let s' := roleState win reads word (n + 1)
    s'.live = liveAfter reads n x s (stackAfter s x) ∧
      ∀ g, s'.named g = (s.named g).or (calledName reads (nameCalls reads s.live n x) g) := by
  intro s s'
  obtain ⟨t, ht, -, hspec⟩ := roleStep_spec reads word (roleState_known win reads word n) n x
  obtain rfl : s' = t := Option.some.inj ((roleState_step win reads word hx).symm.trans ht)
  exact hspec

/-- What becomes of the slots and of `delta`. -/
theorem roleState_stack {n : ℕ} {x : Insn} (hx : win[n]? = some x) :
    let s := roleState win reads word n
    let s' := roleState win reads word (n + 1)
    s'.stack = stackAfter s x ∧ s'.delta = deltaAfter word s.delta x := by
  intro s s'
  obtain ⟨named, -, hs'⟩ := Option.map_eq_some_iff.mp (roleState_step win reads word hx)
  have hstack := congrArg RoleState.stack hs'
  have hdelta := congrArg RoleState.delta hs'
  exact ⟨hstack.symm, hdelta.symm⟩

theorem roleState_stop {n : ℕ} (hx : win[n]? = none) :
    roleState win reads word (n + 1) = roleState win reads word n := by
  have hup := rolesUpTo_eq win reads word (n + 1)
  rw [rolesUpTo, rolesUpTo_eq win reads word n] at hup
  simp only [hx, Option.bind_eq_bind, Option.bind_some] at hup
  exact (Option.some.inj hup).symm

theorem roles_eq : roles win reads word = some (roleState win reads word win.length).named := by
  rw [roles, rolesUpTo_eq]
  rfl

/-- The pass keeps a name it has given. -/
theorem named_mono {n : ℕ} {g : ℕ} {role : Role}
    (h : (roleState win reads word n).named g = some role) {m : ℕ} (hm : n ≤ m) :
    (roleState win reads word m).named g = some role := by
  induction m, hm using Nat.le_induction with
  | base => exact h
  | succ m hm ih =>
    rcases hx : win[m]? with - | x
    · rw [roleState_stop win reads word hx, ih]
    · rw [(roleState_succ win reads word hx).2 g, ih]
      rfl

/-- A load that reaches a position is what `live` has for its register there. -/
theorem live_of_reaches {g j : ℕ} {r : Text} (hg : LoadsGlobal win reads g)
    (h : Reaching.Reaches (definesAt win) g r j) : (roleState win reads word j).live r = some g := by
  obtain ⟨hreads, y, hy, hmove⟩ := hg
  have hwrite : y.defines = some r := by
    have hdef := h.2.1
    rwa [definesAt, hy] at hdef
  refine h.kept (P := fun k => (roleState win reads word k).live r = some g) ?_
    fun k _ _ hne hlive => ?_
  · rw [(roleState_succ win reads word hy).1]
    exact (liveAfter_of_eq hwrite).trans (loadOf_load hreads hmove)
  · rcases hx : win[k]? with - | x
    · rw [roleState_stop win reads word hx]
      exact hlive
    · rw [definesAt, hx] at hne
      rw [(roleState_succ win reads word hx).1, liveAfter_of_ne hne]
      exact hlive

end Runs

end OMB
