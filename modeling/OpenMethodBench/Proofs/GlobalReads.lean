import Mathlib
import OpenMethodBench.Proofs.SliceRendering
import OpenMethodBench.Spec.Globals

/-! The addresses looked up for global operands, against those the processor accesses. -/

namespace OMB

open Reaching

/-! ## Operands -/

section Search

variable {α : Type*} {matchAt : Text → Option α}
  (hmatch : ∀ c t, c ≠ '[' → matchAt (c :: t) = none)
include hmatch

theorem searchText_append {pre : Text} (hpre : '[' ∉ pre) (t : Text) :
    searchText matchAt (pre ++ t) = searchText matchAt t := by
  induction pre with
  | nil => rfl
  | cons c pre ih =>
    rw [List.mem_cons, not_or] at hpre
    rw [List.cons_append, searchText, hmatch c _ (Ne.symm hpre.1), ih hpre.2]
    rfl

theorem searchText_eq_none {t : Text} (h : '[' ∉ t) : searchText matchAt t = none := by
  have happend := searchText_append hmatch h []
  rwa [List.append_nil] at happend

/-- Where one bracket opens, the search is the match there. -/
theorem searchText_bracket {pre t : Text} (hpre : '[' ∉ pre) (ht : '[' ∉ t) :
    searchText matchAt (pre ++ '[' :: t) = matchAt ('[' :: t) := by
  rw [searchText_append hmatch hpre, searchText, searchText_eq_none hmatch ht]
  cases matchAt ('[' :: t) <;> rfl

end Search

theorem ripAt_eq_none (c : Char) (t : Text) (hc : c ≠ '[') : ripAt (c :: t) = none := by
  unfold ripAt
  split
  · rename_i h
    exact absurd (List.cons.inj h).1 hc
  · rfl

theorem basedAt_eq_none (c : Char) (t : Text) (hc : c ≠ '[') : basedAt (c :: t) = none := by
  unfold basedAt
  split
  · rename_i h
    exact absurd (List.cons.inj h).1 hc
  · rfl

theorem hexClosed_toDigits (n : ℕ) (post : Text) :
    hexClosed (Nat.toDigits 16 n ++ ']' :: post) = some n := by
  have hclose : ∀ c ∈ (']' :: post).head?, isHex c = false := fun c hc => Option.some.inj hc ▸ rfl
  have hne : Nat.toDigits 16 n ≠ [] := Nat.toDigits_ne_nil
  simp only [hexClosed, Text.takeWhile_append_of_head (isHex_toDigits n) hclose,
    Text.dropWhile_append_of_head (isHex_toDigits n) hclose, hexVal_toDigits]
  simp [hne]

theorem no_bracket_disp {name post : Text} (hname : ∀ c ∈ name, c ≠ '[') (d : ℤ) (hpost : '[' ∉ post) :
    '[' ∉ name ++ dispText d ++ ']' :: post := by
  have hhex : '[' ∉ hexText d.natAbs := fun h => absurd (hexText_low _ h) (by decide)
  have hsign : ∀ c ∈ dispText d, c ≠ '[' := by
    intro c hc
    rcases List.mem_cons.mp hc with rfl | hc
    · split_ifs <;> decide
    · rintro rfl
      exact hhex hc
  simp only [List.mem_append, List.mem_cons, not_or]
  exact ⟨⟨fun h => hname _ h rfl, fun h => hsign _ h rfl⟩, by decide, hpost⟩

/-- A displacement is found where it is printed with a plus. -/
theorem ripAt_rip (d : ℤ) (post : Text) :
    ripAt ('[' :: ("rip".toList ++ dispText d ++ ']' :: post)) =
      if d < 0 then none else some d.natAbs := by
  by_cases hd : d < 0
  · rw [if_pos hd, dispText, if_pos hd]
    rfl
  · rw [if_neg hd, dispText, if_neg hd]
    exact hexClosed_toDigits d.natAbs post

theorem basedAt_reg {r s : Char} (hr : r.isLower = true) (hs : s.isLower = true) (d : ℤ)
    (post : Text) : basedAt ('[' :: (['e', r, s] ++ dispText d ++ ']' :: post)) =
      if d < 0 then none else some (['e', r, s], d.natAbs) := by
  by_cases hd : d < 0
  · rw [if_pos hd, dispText, if_pos hd]
    rfl
  · have hclosed := hexClosed_toDigits d.natAbs post
    rw [if_neg hd, dispText, if_neg hd]
    simp only [hexText, List.cons_append, List.nil_append, basedAt, hr, hs, hclosed]
    rfl

/-! ## The bases -/

/-- The register that an idiom beginning at a position sets up. -/
def setsUp (body : List Insn) (i : ℕ) : Option Text := (setUp body i).map Prod.fst

/-- The last idiom before `upto` that sets up `reg`, with the first `add` after it, makes
`v`. -/
def LastSetUp (body : List Insn) (upto : ℕ) (reg : Text) (v : ℕ) : Prop :=
  ∃ i ret, Reaches (setsUp body) i reg upto ∧ setUp body i = some (reg, ret) ∧
    v = ret + firstAddend body upto i reg

section Bases

variable {body : List Insn} {upto : ℕ} {reg : Text}

/-- The bases after the first `n` positions. -/
def basesAt (body : List Insn) (upto n : ℕ) : Text → Option ℕ :=
  (List.range n).foldl (picStep body upto) fun _ => none

theorem basesAt_succ (n : ℕ) :
    basesAt body upto (n + 1) = picStep body upto (basesAt body upto n) n := by
  rw [basesAt, List.range_succ, List.foldl_append]
  rfl

theorem picBase_eq (hupto : upto ≤ body.length) : picBase body upto = basesAt body upto upto := by
  rw [picBase, List.length_take_of_le hupto, basesAt]

theorem basesAt_keep {n : ℕ} (h : setsUp body n ≠ some reg) :
    basesAt body upto (n + 1) reg = basesAt body upto n reg := by
  rw [basesAt_succ, picStep]
  rcases hs : setUp body n with - | ⟨r, ret⟩
  · rfl
  · refine Function.update_of_ne (fun hr => h ?_) _ _
    rw [setsUp, hs, hr]
    rfl

theorem basesAt_write {n ret : ℕ} (h : setUp body n = some (reg, ret)) :
    basesAt body upto (n + 1) reg = some (ret + firstAddend body upto n reg) := by
  rw [basesAt_succ, picStep, h]
  exact Function.update_self _ _ _

/-- What the last idiom has made. -/
theorem picBase_of_reaches (hupto : upto ≤ body.length) {i ret : ℕ}
    (h : Reaches (setsUp body) i reg upto) (hi : setUp body i = some (reg, ret)) :
    picBase body upto reg = some (ret + firstAddend body upto i reg) := by
  have hwrite : ∀ n < upto, setsUp body n = some reg → basesAt body upto (n + 1) reg =
      (setUp body n).map fun u => u.2 + firstAddend body upto n reg := by
    intro n _ hn
    obtain ⟨⟨r, ret'⟩, hu, rfl⟩ := Option.map_eq_some_iff.mp hn
    rw [basesAt_write hu, hu]
    rfl
  have hcell := cell_of_reaches (fun n => basesAt body upto n reg)
    (fun n => (setUp body n).map fun u => u.2 + firstAddend body upto n reg) hwrite
    (fun n _ hn => basesAt_keep hn) h
  rw [picBase_eq hupto]
  exact hcell.trans (by rw [hi]; rfl)

theorem picBase_of_not_reaches (hupto : upto ≤ body.length)
    (h : ∀ i, ¬ Reaches (setsUp body) i reg upto) : picBase body upto reg = none := by
  have hcell := cell_of_not_reaches (fun n => basesAt body upto n reg)
    (fun n _ hn => basesAt_keep hn) h
  rw [picBase_eq hupto]
  exact hcell

theorem picBase_eq_some_iff (hupto : upto ≤ body.length) {v : ℕ} :
    picBase body upto reg = some v ↔ LastSetUp body upto reg v := by
  refine ⟨fun hv => ?_, fun ⟨i, ret, hreach, hi, hv⟩ => ?_⟩
  · by_cases h : ∃ i, Reaches (setsUp body) i reg upto
    · obtain ⟨i, hreach⟩ := h
      obtain ⟨⟨r, ret⟩, hi, rfl⟩ := Option.map_eq_some_iff.mp hreach.2.1
      rw [picBase_of_reaches hupto hreach hi] at hv
      exact ⟨i, ret, hreach, hi, (Option.some.inj hv).symm⟩
    · rw [picBase_of_not_reaches hupto (not_exists.mp h)] at hv
      exact absurd hv (by simp)
  · rw [picBase_of_reaches hupto hreach hi, hv]

/-- A register without a base is set up nowhere. -/
theorem picBase_eq_none_iff (hupto : upto ≤ body.length) :
    picBase body upto reg = none ↔ ∀ i < upto, setsUp body i ≠ some reg := by
  refine ⟨fun hnone i hi hw => ?_, fun h => ?_⟩
  · obtain ⟨j, hreach⟩ := exists_reaches_iff.mpr ⟨i, hi, hw⟩
    obtain ⟨⟨r, ret⟩, hj, rfl⟩ := Option.map_eq_some_iff.mp hreach.2.1
    rw [picBase_of_reaches hupto hreach hj] at hnone
    exact absurd hnone (by simp)
  · exact picBase_of_not_reaches hupto fun i hreach => h i hreach.1 hreach.2.1

variable {last : ℕ} (hlast : last + 1 ≤ body.length) {d : ℤ}
include hlast

/-- The lookup through a base the register holds is the access where the last idiom makes
that base. -/
theorem lookup_eq_some_iff {a : ℕ} (ha : a < 2 ^ 32) :
    ((if d < 0 then none else (picBase body (last + 1) reg).map (· + d.natAbs)) =
      some ((a + d) % 2 ^ 32).toNat) ↔
      0 ≤ d ∧ a + d < 2 ^ 32 ∧ LastSetUp body (last + 1) reg a := by
  rw [← picBase_eq_some_iff hlast]
  by_cases hd : d < 0
  · rw [if_pos hd]
    exact ⟨fun h => absurd h (by simp), fun h => absurd h.1 (by omega)⟩
  rw [if_neg hd, Option.map_eq_some_iff]
  refine ⟨fun ⟨v, hv, haddr⟩ => ?_, fun ⟨_, hwrap, hv⟩ => ⟨a, hv, by omega⟩⟩
  -- neither side has wrapped, so the bases are equal
  have hlt : (v : ℤ) + d < 2 ^ 32 := by omega
  obtain rfl : v = a := by omega
  exact ⟨by omega, hlt, hv⟩

/-- There is none where the register is set up nowhere, or the displacement is not seen. -/
theorem lookup_eq_none_iff :
    ((if d < 0 then none else (picBase body (last + 1) reg).map (· + d.natAbs)) = none) ↔
      d < 0 ∨ ∀ i ≤ last, setsUp body i ≠ some reg := by
  by_cases hd : d < 0
  · rw [if_pos hd]
    exact ⟨fun _ => Or.inl hd, fun _ => rfl⟩
  · rw [if_neg hd, Option.map_eq_none_iff, picBase_eq_none_iff hlast]
    simp only [Nat.lt_succ_iff, hd, false_or]

end Bases

/-! ## The window -/

namespace Body

variable (b : Body)

theorem next_addr {k : ℕ} {l m : CodeLine} (hl : b.lines[k]? = some l)
    (hm : b.lines[k + 1]? = some m) : m.addr = l.next := by
  obtain ⟨hk, rfl⟩ := List.getElem?_eq_some_iff.mp hl
  obtain ⟨hk', rfl⟩ := List.getElem?_eq_some_iff.mp hm
  exact List.isChain_iff_getElem.mp b.contiguous k hk'

theorem lookedUp_based (start last k : ℕ) {l : CodeLine} {pre post : Text} (hpre : '[' ∉ pre)
    (hpost : '[' ∉ post) {d : ℤ} {r s : Char} (hr : r.isLower = true) (hs : s.isLower = true)
    (htext : l.text = pre ++ '[' :: (['e', r, s] ++ dispText d ++ ']' :: post)) :
    b.lookedUp start last k l =
      if d < 0 then none else (picBase b.insns (last + 1) ['e', r, s]).map (· + d.natAbs) := by
  have hname : ∀ c ∈ ['e', r, s], c ≠ '[' := by
    intro c hc
    simp only [List.mem_cons, List.not_mem_nil, or_false] at hc
    rcases hc with rfl | rfl | rfl
    · decide
    · rintro rfl
      exact absurd hr (by decide)
    · rintro rfl
      exact absurd hs (by decide)
  have hopen : '[' ∉ ['e', r, s] ++ dispText d ++ ']' :: post := no_bracket_disp hname d hpost
  have hrip : searchText ripAt l.insn.text = none := by
    rw [CodeLine.insn, htext, searchText_bracket ripAt_eq_none hpre hopen]
    rfl
  have hbased : searchText basedAt l.insn.text =
      if d < 0 then none else some (['e', r, s], d.natAbs) := by
    rw [CodeLine.insn, htext, searchText_bracket basedAt_eq_none hpre hopen, basedAt_reg hr hs]
  rw [lookedUp, targetOf, hrip, hbased]
  by_cases hd : d < 0
  · rw [if_pos hd, if_pos hd]
    rfl
  · rw [if_neg hd, if_neg hd]
    rfl

section Lookup

variable {start last k : ℕ} {l : CodeLine} (hstart : start ≤ k) (hk : k ≤ last)
  (hlast : last < b.lines.length) (hl : b.lines[k]? = some l)
include hstart

theorem slice_getElem? : (b.slice start last)[k - start]? =
    if k ≤ last then (b.lines[k]?).map CodeLine.insn else none := by
  rw [slice, List.getElem?_drop, Nat.add_sub_cancel' hstart, List.getElem?_take, insns,
    List.getElem?_map]
  exact if_congr Nat.lt_succ_iff rfl rfl

include hk hl

/-- What `globals_read` returns for an instruction of the window. -/
theorem globalsRead_eq (syms : List Symbol) :
    globalsRead (b.slice start last) (picBase b.insns (last + 1)) syms (k - start) =
      (b.lookedUp start last k l).bind (resolve syms) := by
  rw [globalsRead, b.slice_getElem? hstart, if_pos hk, hl]
  rfl

include hlast

/-- The window knows where the next instruction begins, but for its last one. -/
theorem slice_next : ((b.slice start last)[k - start + 1]?).elim l.addr Insn.addr =
    if k < last then l.next else l.addr := by
  have hsucc : k - start + 1 = k + 1 - start := by omega
  rw [hsucc, b.slice_getElem? (by omega)]
  by_cases hlt : k < last
  · obtain ⟨m, hm⟩ : ∃ m, b.lines[k + 1]? = some m := ⟨_, List.getElem?_eq_getElem (by omega)⟩
    rw [if_pos (Nat.succ_le_of_lt hlt), if_pos hlt, hm]
    exact b.next_addr hl hm
  · rw [if_neg (by omega), if_neg hlt]
    rfl

variable {pre post : Text} (hpre : '[' ∉ pre) (hpost : '[' ∉ post) {d : ℤ}
include hpre hpost

theorem lookedUp_rip (htext : l.text = pre ++ '[' :: ("rip".toList ++ dispText d ++ ']' :: post)) :
    b.lookedUp start last k l =
      if d < 0 then none else some ((if k < last then l.next else l.addr) + d.natAbs) := by
  have hopen : '[' ∉ "rip".toList ++ dispText d ++ ']' :: post :=
    no_bracket_disp (by decide) d hpost
  have hrip : searchText ripAt l.insn.text = if d < 0 then none else some d.natAbs := by
    rw [CodeLine.insn, htext, searchText_bracket ripAt_eq_none hpre hopen, ripAt_rip]
  have hbased : searchText basedAt l.insn.text = none := by
    rw [CodeLine.insn, htext, searchText_bracket basedAt_eq_none hpre hopen]
    rfl
  have haddr : l.insn.addr = l.addr := rfl
  rw [lookedUp, targetOf, hrip, hbased, haddr, b.slice_next hstart hk hlast hl]
  by_cases hd : d < 0
  · rw [if_pos hd, if_pos hd]
    rfl
  · rw [if_neg hd, if_neg hd]

end Lookup

/-! ## What a register holds -/

section Pic

variable (overwrites : Insn → Text → Bool) (reg : Text)

/-- The constant an instruction adds to the register. -/
def addendAt (k : ℕ) : Option ℕ := (b.lines[k]?).bind fun l => addend reg l.text

/-- A position brings no return address and does not overwrite the register. -/
def Leaves (k : ℕ) : Prop :=
  b.returned reg k = none ∧ ∀ l, b.lines[k]? = some l → overwrites l.insn reg = false

variable {k : ℕ}

/-- The step lemmas: where a return address comes from, -/
theorem picAt_succ_ret {r : ℕ} : b.picAt overwrites reg (k + 1) = .ret r ↔
    b.returned reg k = some r ∨ (b.picAt overwrites reg k = .ret r ∧
      (b.Leaves overwrites reg k ∧ b.addendAt reg k = none)) := by
  rw [picAt]
  rcases hl : b.lines[k]? with - | l
  · have hret : b.returned reg k = none := by
      rw [returned, hl]
      rfl
    simp [Leaves, addendAt, hl, hret]
  · simp only [picAfter, Leaves, addendAt, hl, Option.bind_some, Option.some.injEq, forall_eq']
    rcases b.returned reg k with - | r'
    · rcases b.picAt overwrites reg k with - | r' | a' <;> rcases addend reg l.text with - | c <;>
        cases overwrites l.insn reg <;> simp
    · simp

/-- and where a base does. -/
theorem picAt_succ_base {a : ℕ} : b.picAt overwrites reg (k + 1) = .base a ↔
    (∃ r c, b.picAt overwrites reg k = .ret r ∧ b.returned reg k = none ∧
      b.addendAt reg k = some c ∧ a = (r + c) % 2 ^ 32) ∨
    (b.picAt overwrites reg k = .base a ∧ b.Leaves overwrites reg k) := by
  rw [picAt]
  rcases hl : b.lines[k]? with - | l
  · have hret : b.returned reg k = none := by
      rw [returned, hl]
      rfl
    simp [Leaves, addendAt, hl, hret]
  · simp only [picAfter, Leaves, addendAt, hl, Option.bind_some, Option.some.injEq, forall_eq']
    rcases b.returned reg k with - | r'
    · rcases b.picAt overwrites reg k with - | r' | a' <;> rcases addend reg l.text with - | c <;>
        cases overwrites l.insn reg <;> simp [eq_comm]
    · simp

/-- The register holds a base where an idiom has brought a return address, the next `add` to
the register has made it the base, and nothing has overwritten it. -/
theorem picAt_eq_base_iff {a : ℕ} : b.picAt overwrites reg k = .base a ↔
    ∃ q < k, (∃ r c, (∃ p < q, b.returned reg p = some r ∧
        ∀ m, p < m → m < q → b.Leaves overwrites reg m ∧ b.addendAt reg m = none) ∧
      b.returned reg q = none ∧ b.addendAt reg q = some c ∧ a = (r + c) % 2 ^ 32) ∧
      ∀ m, q < m → m < k → b.Leaves overwrites reg m := by
  have hret : ∀ q r, b.picAt overwrites reg q = .ret r ↔ ∃ p < q, b.returned reg p = some r ∧
      ∀ m, p < m → m < q → b.Leaves overwrites reg m ∧ b.addendAt reg m = none := fun q r =>
    since_iff (P := fun k => b.picAt overwrites reg k = .ret r) (by simp [picAt]) fun k =>
      b.picAt_succ_ret overwrites reg
  have hbase := since_iff (j := k) (P := fun k => b.picAt overwrites reg k = .base a)
    (by simp [picAt]) fun k => b.picAt_succ_base overwrites reg
  refine hbase.trans (exists_congr fun q => and_congr_right fun _ => and_congr_left fun _ => ?_)
  exact exists₂_congr fun r c => and_congr_left fun _ => hret q r

/-- A base is an address of 32 bits. -/
theorem picAt_base_lt {a : ℕ} (h : b.picAt overwrites reg k = .base a) : a < 2 ^ 32 := by
  obtain ⟨-, -, ⟨r, c, -, -, -, rfl⟩, -⟩ := (b.picAt_eq_base_iff overwrites reg).mp h
  exact Nat.mod_lt _ (by decide)

/-- The displacement is printed with a plus, and the last set-up before the end of the window
makes the base the register holds, with no wrap; or the register holds no base, and has been
set up nowhere or the displacement is printed with a minus. -/
def Told (last k : ℕ) (d : ℤ) : Prop :=
  match b.picAt overwrites reg k with
  | .base a => 0 ≤ d ∧ a + d < 2 ^ 32 ∧ LastSetUp b.insns (last + 1) reg a
  | _ => d < 0 ∨ ∀ i ≤ last, setsUp b.insns i ≠ some reg

end Pic

end Body

/-- Where the lookups meet the addresses the processor accesses: an operand off `rip` has a
following instruction in the window and a displacement with a plus, and one off a register
is told. -/
theorem global_lookup_iff (b : Body) (overwrites : Insn → Text → Bool) (syms : List Symbol)
    (start last k : ℕ) (l : CodeLine) (pre post : Text) (d : ℤ) (hstart : start ≤ k) (hk : k ≤ last)
    (hlast : last < b.lines.length) (hl : b.lines[k]? = some l) (hpre : '[' ∉ pre)
    (hpost : '[' ∉ post) :
    globalsRead (b.slice start last) (picBase b.insns (last + 1)) syms (k - start) =
      (b.lookedUp start last k l).bind (resolve syms) ∧
    (l.text = pre ++ '[' :: ("rip".toList ++ dispText d ++ ']' :: post) →
      ((∃ a, b.lookedUp start last k l = some a ∧ (a : ℤ) = l.next + d) ↔ 0 ≤ d ∧ k < last)) ∧
    ∀ r s : Char, r.isLower = true → s.isLower = true →
      l.text = pre ++ '[' :: (['e', r, s] ++ dispText d ++ ']' :: post) →
      (b.lookedUp start last k l = b.accessed overwrites ['e', r, s] k d ↔
        b.Told overwrites ['e', r, s] last k d) := by
  refine ⟨b.globalsRead_eq hstart hk hl syms, fun htext => ?_, fun r s hr hs htext => ?_⟩
  · rw [b.lookedUp_rip hstart hk hlast hl hpre hpost htext]
    have hsized := b.sized l (List.mem_of_getElem? hl)
    by_cases hd : d < 0
    · rw [if_pos hd]
      simp [hd]
    · rw [if_neg hd]
      by_cases hlt : k < last
      · rw [if_pos hlt]
        exact ⟨fun _ => ⟨by omega, hlt⟩, fun _ => ⟨_, rfl, by omega⟩⟩
      · rw [if_neg hlt]
        refine ⟨fun ⟨a, ha, haddr⟩ => ?_, fun h => absurd h.2 hlt⟩
        have := Option.some.inj ha
        omega
  · have hupto : last + 1 ≤ b.insns.length := by
      rw [Body.insns, List.length_map]
      exact hlast
    rw [b.lookedUp_based start last k hpre hpost hr hs htext, Body.accessed, Body.Told]
    rcases hstate : b.picAt overwrites ['e', r, s] k with - | ret | a
    case base => exact lookup_eq_some_iff hupto (b.picAt_base_lt overwrites _ hstate)
    all_goals exact lookup_eq_none_iff hupto

/-! ## One body resolved, two not -/

/-- An instruction overwrites its first operand, where it does not read it first. -/
def overwritesFirst (x : Insn) (reg : Text) : Bool :=
  x.parts.head? == some reg && !readsFirst.contains x.mnem

/-- The base set up by a call and a `pop`, then read through. -/
def picBody : Body where
  lines := [⟨0x10, 0x15, "call 15 <f+0x5>".toList⟩, ⟨0x15, 0x16, "pop ebx".toList⟩,
    ⟨0x16, 0x1c, "add ebx,0x2feb".toList⟩, ⟨0x1c, 0x22, "mov eax,DWORD PTR [ebx+0x10]".toList⟩,
    ⟨0x22, 0x24, "call eax".toList⟩]
  sized := by decide
  contiguous := by decide

theorem picBody_resolves :
    picBody.lookedUp 3 4 3 ⟨0x1c, 0x22, "mov eax,DWORD PTR [ebx+0x10]".toList⟩ =
      picBody.accessed overwritesFirst "ebx".toList 3 0x10 := by
  have hlast : LastSetUp picBody.insns 5 "ebx".toList 0x3000 :=
    ⟨0, 0x15, ⟨by decide, by decide +kernel, fun k hk hkj => by interval_cases k <;> decide +kernel⟩,
      by decide +kernel, by decide +kernel⟩
  have hstate : picBody.picAt overwritesFirst "ebx".toList 3 = .base 0x3000 := by
    decide +kernel
  refine ((global_lookup_iff picBody overwritesFirst [] 3 4 3
    ⟨0x1c, 0x22, "mov eax,DWORD PTR [ebx+0x10]".toList⟩ "mov eax,DWORD PTR ".toList [] 0x10
    (by decide) (by decide) (by decide) rfl (by decide) (by decide)).2.2 'b' 'x' rfl rfl rfl).mpr ?_
  change Body.Told picBody overwritesFirst "ebx".toList 4 3 0x10
  rw [Body.Told, hstate]
  exact ⟨by decide, by decide, hlast⟩

/-- The call reads its target through `rip`. -/
def ripCall : CodeLine := ⟨0x10, 0x16, "call QWORD PTR [rip+0x20]".toList⟩

def ripBody : Body where
  lines := [ripCall]
  sized := by decide
  contiguous := by decide

/-- The base is overwritten before the read. -/
def lostBody : Body where
  lines := [⟨0x10, 0x15, "call 15 <f+0x5>".toList⟩, ⟨0x15, 0x16, "pop ebx".toList⟩,
    ⟨0x16, 0x1c, "add ebx,0x2feb".toList⟩, ⟨0x1c, 0x1e, "mov ebx,ecx".toList⟩,
    ⟨0x1e, 0x24, "mov eax,DWORD PTR [ebx+0x10]".toList⟩, ⟨0x24, 0x26, "call eax".toList⟩]
  sized := by decide
  contiguous := by decide

/-- The last instruction of a window is looked up from its own address, and a register that
has been overwritten still at its base. -/
theorem lookups_go_wrong :
    (ripCall.text = "call QWORD PTR ".toList ++ '[' :: ("rip".toList ++ dispText 0x20 ++ [']']) ∧
      ripBody.lookedUp 0 0 0 ripCall = some 0x30 ∧ (ripCall.next : ℤ) + 0x20 = 0x36) ∧
    lostBody.lookedUp 4 5 4 ⟨0x1e, 0x24, "mov eax,DWORD PTR [ebx+0x10]".toList⟩ = some 0x3010 ∧
      lostBody.accessed overwritesFirst "ebx".toList 4 0x10 = none := by
  refine ⟨⟨by decide +kernel, by decide +kernel, by decide⟩, by decide +kernel, by decide +kernel⟩

end OMB
