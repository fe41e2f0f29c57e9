import OpenMethodBench.Proofs.RoleInference
import OpenMethodBench.Proofs.SliceRendering

/-! Factors of an `imul`: only the load in its first operand is named, and not even that
one where the instruction reads a global itself. -/

namespace OMB

/-- A two-operand `imul`. -/
def imulText (a b : Text) : Text := "imul".toList ++ ' ' :: Text.join ',' [a, b]

/-- Which registers an instruction overwrites: the processor's writes, not the pass's. A move
overwrites the register it names first. -/
structure RegisterWrites where
  overwrites : Insn → Text → Prop
  move : ∀ x r, plainMoves.contains x.mnem = true → x.defines = some r → overwrites x r

/-- Register `r` holds at position `j` what position `g` loaded: nothing between them overwrites
it. -/
def RegisterWrites.Held (m : RegisterWrites) (win : List Insn) (reads : Reads) (r : Text) (j g : ℕ) :
    Prop :=
  LoadsGlobal win reads g ∧ definesAt win g = some r ∧ g < j ∧
    ∀ k, g < k → k < j → ∀ x ∈ win[k]?, ¬ m.overwrites x r

/-- How far `esp` has been pushed down before position `k`. -/
def deltaBefore (win : List Insn) (word k : ℕ) : ℤ := (win.take k).foldl (deltaAfter word) 0

/-- The slot position `k` spills to, by its offset when the window opened. -/
def spilledKey (win : List Insn) (word k : ℕ) : Option ℤ :=
  (win[k]?).bind fun x => x.spill.map fun s => s.1 - deltaBefore win word k

/-- By the writes the pass sees, the last that register `r` got before position `j` is what
position `g` loaded, directly or out of the slot it was last spilled to. -/
inductive Carries (win : List Insn) (reads : Reads) (word : ℕ) : Text → ℕ → ℕ → Prop
  | load {r : Text} {j g : ℕ} : LoadsGlobal win reads g → Reaching.Reaches (definesAt win) g r j →
      Carries win reads word r j g
  | reload {r src : Text} {j g k p offset offset' : ℕ} {x y : Insn} :
      win[k]? = some x → x.reload = some offset → reads k = none →
      Reaching.Reaches (definesAt win) k r j →
      win[p]? = some y → y.spill = some (offset', src) →
      Reaching.Reaches (spilledKey win word) p (offset - deltaBefore win word k) (k + 1) →
      Carries win reads word (canon src) p g → Carries win reads word r j g

/-- The load `g` is one a factor can be, and has no name before position `j`. -/
def Nameable (win : List Insn) (reads : Reads) (word : ℕ) (role : Role) (j g : ℕ) : Prop :=
  role.isFactor ∧ familyOf reads g = some role.family ∧
    ∀ k < j, ∀ role', ¬ GivenAt win reads word role' k g

theorem piece_of_isWord {t : Text} (h : isWord t = true) : Piece t := by
  rw [isWord, Bool.and_eq_true, List.all_eq_true] at h
  exact piece_of_chars (by simpa using h.1) fun c hc =>
    ⟨not_space_of_low (h.2 c hc), ne_of_low (h.2 c hc) (by decide)⟩

section Imul

variable {win : List Insn} {reads : Reads} (word : ℕ) {j addr : ℕ} {a b : Text}
  (ha : isWord a = true) (hb : Piece b)

include ha hb

theorem imul_fields (addr : ℕ) :
    let x : Insn := ⟨addr, imulText a b⟩
    x.mnem = "imul".toList ∧ (x.ops.splitOn ',').headD [] = a := by
  intro x
  have hpieces : ∀ p ∈ [a, b], Piece p := by
    intro p hp
    simp only [List.mem_cons, List.not_mem_nil, or_false] at hp
    rcases hp with rfl | rfl
    · exact piece_of_isWord ha
    · exact hb
  obtain ⟨hmnem, hops, -⟩ := insn_fields (m := "imul".toList) (by decide) (by decide) hpieces addr
  refine ⟨hmnem, ?_⟩
  show ((Insn.ops ⟨addr, imulText a b⟩).splitOn ',').headD [] = a
  rw [imulText, hops, Text.splitOn_join (by simp) fun p hp => (hpieces p hp).no_comma]
  rfl

variable (hx : win[j]? = some ⟨addr, imulText a b⟩)

include hx

/-- The `imul` names its own global, or else what `live` has for its first operand. -/
theorem imul_givenAt_iff {role : Role} (hrole : role.isFactor) (g : ℕ) :
    GivenAt win reads word role j g ↔
      familyOf reads g = some role.family ∧ (∀ k < j, ∀ role', ¬ GivenAt win reads word role' k g) ∧
        if (reads j).isSome then g = j
        else (roleState win reads word j).live (canon a) = some g := by
  obtain ⟨hmnem, hfirst⟩ := imul_fields ha hb addr
  have hword : isWord (Insn.mnem ⟨addr, imulText a b⟩) = true := by
    rw [hmnem]
    decide
  have huse : UsesLive reads (roleState win reads word j).live j ⟨addr, imulText a b⟩ role g ↔
      familyOf reads g = some role.family ∧ if (reads j).isSome then g = j
        else (roleState win reads word j).live (canon a) = some g := by
    have hfactor : role = .mult ∨ role = .stride := by
      cases role
      · exact Or.inl rfl
      · exact Or.inr rfl
      all_goals exact absurd hrole id
    have huses : ∀ P, Insn.UsesAs ⟨addr, imulText a b⟩ P role ↔ P (canon a) := by
      intro P
      rcases hfactor with rfl | rfl <;> simp only [Insn.UsesAs, hmnem, hfirst, true_and]
    rw [UsesLive, huses]
    simp [hfactor, hmnem]
  rw [givenAt_iff_named, (roleState_succ win reads word hx).2 g, ← named_eq_none_iff_givenAt]
  refine ⟨?_, ?_⟩
  · rintro ⟨hn, hs⟩
    rw [hn, Option.none_or, calledName_eq_some_iff hword, huse] at hs
    exact ⟨hs.1.1, hn, hs.1.2⟩
  · rintro ⟨hfam, hn, hg⟩
    rw [hn, Option.none_or, calledName_eq_some_iff hword, huse]
    exact ⟨rfl, ⟨hfam, hg⟩, fun hno => absurd hrole hno⟩

end Imul

/-! ## What `live` says -/

section Live

variable (win : List Insn) (reads : Reads) (word : ℕ)

theorem roleState_delta (n : ℕ) : (roleState win reads word n).delta = deltaBefore win word n := by
  induction n with
  | zero => rfl
  | succ n ih =>
    rcases hx : win[n]? with - | x
    · have hend : win.length ≤ n := List.getElem?_eq_none_iff.mp hx
      rw [roleState_stop win reads word hx, ih, deltaBefore, deltaBefore,
        List.take_of_length_le hend, List.take_of_length_le (Nat.le_succ_of_le hend)]
    · rw [(roleState_stack win reads word hx).2, ih, deltaBefore, deltaBefore, List.take_add_one, hx,
        List.foldl_append]
      rfl

/-- A slot holds what `live` had for the register that was last spilled to it. -/
theorem stack_eq_some_iff {n : ℕ} {key : ℤ} {v : Option ℕ} :
    (roleState win reads word n).stack key = some v ↔
      ∃ p, Reaching.Reaches (spilledKey win word) p key n ∧ ∃ y offset src, win[p]? = some y ∧
        y.spill = some (offset, src) ∧ (roleState win reads word p).live (canon src) = v := by
  induction n with
  | zero =>
    refine iff_of_false (fun h => absurd h (by simp [roleState, rolesUpTo, RoleState.init])) ?_
    rintro ⟨p, hp, -⟩
    exact Reaching.not_reaches_zero hp
  | succ n ih =>
    rcases hx : win[n]? with - | x
    · have hnone : spilledKey win word n = none := by rw [spilledKey, hx, Option.bind_none]
      rw [roleState_stop win reads word hx, ih]
      simp [Reaching.reaches_succ_iff, hnone]
    rw [(roleState_stack win reads word hx).1, stackAfter, roleState_delta]
    rcases hspill : x.spill with - | ⟨offset, src⟩
    · have hnone : spilledKey win word n = none := by rw [spilledKey, hx, Option.bind_some, hspill]; rfl
      rw [ih]
      simp [Reaching.reaches_succ_iff, hnone]
    · have hkey : spilledKey win word n = some (offset - deltaBefore win word n) := by
        rw [spilledKey, hx, Option.bind_some, hspill]
        rfl
      by_cases hsame : key = offset - deltaBefore win word n
      · subst hsame
        dsimp only
        rw [Function.update_self, Option.some.injEq]
        constructor
        · intro hv
          exact ⟨n, Reaching.reaches_succ_iff.mpr (Or.inl ⟨rfl, hkey⟩), x, offset, src, hx, hspill, hv⟩
        · rintro ⟨p, hp, y, offset', src', hy, hyspill, hv⟩
          obtain rfl : p = n := by
            rcases Reaching.reaches_succ_iff.mp hp with ⟨hpn, -⟩ | ⟨hno, -⟩
            · exact hpn
            · exact absurd hkey hno
          obtain rfl := Option.some.inj (hx.symm.trans hy)
          obtain ⟨-, rfl⟩ := Prod.mk.inj (Option.some.inj (hspill.symm.trans hyspill))
          exact hv
      · have hother : spilledKey win word n ≠ some key := by
          rw [hkey]
          exact fun h => hsame (Option.some.inj h).symm
        simp only [Function.update_of_ne hsame, ih, Reaching.reaches_succ_iff, hother, and_false,
          false_or, ne_eq, not_false_iff, true_and]

/-- What `live` has for a register is what the write that reaches the position put there. -/
theorem live_eq_some_iff {n : ℕ} {r : Text} {g : ℕ} :
    (roleState win reads word n).live r = some g ↔
      ∃ k, Reaching.Reaches (definesAt win) k r n ∧ ∃ x, win[k]? = some x ∧
        loadOf reads k x (roleState win reads word k) (roleState win reads word (k + 1)).stack =
          some g := by
  induction n with
  | zero =>
    refine iff_of_false (fun h => absurd h (by simp [roleState, rolesUpTo, RoleState.init])) ?_
    rintro ⟨k, hk, -⟩
    exact Reaching.not_reaches_zero hk
  | succ n ih =>
    rcases hx : win[n]? with - | x
    · have hnone : definesAt win n = none := by rw [definesAt, hx, Option.bind_none]
      rw [roleState_stop win reads word hx, ih]
      simp [Reaching.reaches_succ_iff, hnone]
    have hdef : definesAt win n = x.defines := by rw [definesAt, hx, Option.bind_some]
    rw [(roleState_succ win reads word hx).1]
    by_cases hr : x.defines = some r
    · rw [liveAfter_of_eq hr, ← (roleState_stack win reads word hx).1]
      constructor
      · intro hload
        exact ⟨n, Reaching.reaches_succ_iff.mpr (Or.inl ⟨rfl, hdef.trans hr⟩), x, hx, hload⟩
      · rintro ⟨k, hk, y, hy, hload⟩
        obtain rfl : k = n := by
          rcases Reaching.reaches_succ_iff.mp hk with ⟨hkn, -⟩ | ⟨hno, -⟩
          · exact hkn
          · exact absurd (hdef.trans hr) hno
        obtain rfl := Option.some.inj (hx.symm.trans hy)
        exact hload
    · have hother : definesAt win n ≠ some r := by rwa [hdef]
      rw [liveAfter_of_ne hr, ih]
      simp only [Reaching.reaches_succ_iff, hother, and_false, false_or, ne_eq, not_false_iff,
        true_and]

theorem isSome_reload_move {x : Insn} {offset : ℕ} (h : x.reload = some offset) :
    plainMoves.contains x.mnem = true := by
  unfold Insn.reload at h
  split_ifs at h with hmov
  rw [beq_iff_eq.mp hmov]
  decide

/-- `live` is what the writes before a position carry there. -/
theorem live_iff_carries {j : ℕ} {r : Text} {g : ℕ} :
    (roleState win reads word j).live r = some g ↔ Carries win reads word r j g := by
  constructor
  · intro h
    induction j using Nat.strong_induction_on generalizing r with
    | h j ih =>
      obtain ⟨k, hk, x, hx, hload⟩ := (live_eq_some_iff win reads word).mp h
      unfold loadOf at hload
      split_ifs at hload with hown
      · obtain rfl := Option.some.inj hload
        rw [Bool.and_eq_true] at hown
        exact .load ⟨hown.1, x, hx, hown.2⟩ hk
      · obtain ⟨offset, hreload, hslot⟩ := Option.bind_eq_some_iff.mp hload
        have hreads : reads k = none := by
          rcases hread : reads k with - | v
          · rfl
          · exact absurd (isSome_reload_move hreload) (by simpa [hread] using hown)
        rw [roleState_delta] at hslot
        rcases hstack : (roleState win reads word (k + 1)).stack (offset - deltaBefore win word k) with
          - | v
        · rw [hstack] at hslot
          exact absurd hslot (by simp)
        · rw [hstack, Option.getD_some] at hslot
          obtain ⟨p, hp, y, offset', src, hy, hspill, hv⟩ :=
            (stack_eq_some_iff win reads word).mp hstack
          have hpj : p < j := by
            have h1 := hp.1
            have h2 := hk.1
            omega
          exact .reload hx hreload hreads hk hy hspill hp (ih p hpj (hv.trans hslot))
  · intro h
    induction h with
    | load hg hreach => exact live_of_reaches win reads word hg hreach
    | reload hx hreload hreads hk hy hspill hp _ ih =>
      have hstack := (stack_eq_some_iff win reads word).mpr ⟨_, hp, _, _, _, hy, hspill, ih⟩
      refine (live_eq_some_iff win reads word).mpr ⟨_, hk, _, hx, ?_⟩
      rw [loadOf, hreads, roleState_delta, hreload, Option.bind_some, hstack]
      rfl

end Live

/-- A load that a register holds is carried there exactly when no instruction between seems to
write the register. -/
theorem RegisterWrites.Held.carries_iff {m : RegisterWrites} {win : List Insn} {reads : Reads}
    {r : Text} {j g : ℕ} (h : m.Held win reads r j g) (word : ℕ) :
    Carries win reads word r j g ↔ ∀ k, g < k → k < j → definesAt win k ≠ some r := by
  obtain ⟨hload, hwrite, hgj, hkept⟩ := h
  refine ⟨fun hc => ?_, fun hbetween => .load hload ⟨hgj, hwrite, hbetween⟩⟩
  cases hc with
  | load _ hreach => exact hreach.2.2
  | @reload _ _ _ _ k _ _ _ x _ hx hreload hreads hk =>
    exfalso
    rcases Nat.lt_trichotomy k g with hlt | rfl | hgt
    · exact hk.2.2 g hlt hgj hwrite
    · have hown := hload.1
      rw [hreads] at hown
      exact absurd hown (by decide)
    · have hdef : x.defines = some r := by
        have hdef := hk.2.1
        rwa [definesAt, hx, Option.bind_some] at hdef
      exact hkept k hgt hk.1 x hx (m.move x r (isSome_reload_move hreload) hdef)

/-! ## Swapping the operands -/

section Swap

variable {win win' : List Insn} (reads : Reads) (word : ℕ)

theorem rolesUpTo_congr {n : ℕ} (h : ∀ k < n, win[k]? = win'[k]?) :
    rolesUpTo win reads word n = rolesUpTo win' reads word n := by
  induction n with
  | zero => rfl
  | succ n ih => rw [rolesUpTo, rolesUpTo, ih fun k hk => h k (by omega), h n (by omega)]

theorem givenAt_congr {n k : ℕ} (h : ∀ k < n, win[k]? = win'[k]?) (hk : k < n) (role : Role)
    (g : ℕ) : GivenAt win reads word role k g ↔ GivenAt win' reads word role k g := by
  rw [GivenAt, GivenAt, rolesUpTo_congr reads word fun m hm => h m (by omega),
    rolesUpTo_congr reads word (n := k + 1) fun m hm => h m (by omega)]

end Swap

/-- A factor in the second operand, as gcc and clang print it for the hash. -/
def secondFactor : List Insn :=
  [⟨0x10, "mov rcx,QWORD PTR [rip+0x2fe0]".toList⟩,
   ⟨0x17, "mov rax,QWORD PTR [rdi-0x8]".toList⟩,
   ⟨0x1b, imulText "rax".toList "rcx".toList⟩,
   ⟨0x1f, "call QWORD PTR [rax]".toList⟩]

def factorReads : Reads
  | 0 => some ("omb::registry_state".toList, 8)
  | _ => none

/-- The registers these instructions overwrite are those they name first. -/
def namedWrites : RegisterWrites where
  overwrites x r := x.defines = some r
  move _ _ _ h := h

theorem namedWrites_held_iff {win : List Insn} {reads : Reads} {r : Text} {j g : ℕ} :
    namedWrites.Held win reads r j g ↔
      LoadsGlobal win reads g ∧ Reaching.Reaches (definesAt win) g r j := by
  have hbetween : (∀ k, g < k → k < j → ∀ x ∈ win[k]?, ¬namedWrites.overwrites x r) ↔
      ∀ k, g < k → k < j → definesAt win k ≠ some r := by
    refine forall₃_congr fun k _ _ => ?_
    rcases hx : win[k]? with - | x
    · simp [definesAt, hx]
    · simp [definesAt, hx, namedWrites]
  rw [RegisterWrites.Held, hbetween, Reaching.Reaches]
  tauto

theorem secondFactor_held : namedWrites.Held secondFactor factorReads (canon "rcx".toList) 2 0 := by
  refine namedWrites_held_iff.mpr ⟨⟨rfl, _, rfl, by decide +kernel⟩, by decide, by decide +kernel,
    fun k hk hk' => ?_⟩
  obtain rfl : k = 1 := by omega
  decide +kernel

end OMB
