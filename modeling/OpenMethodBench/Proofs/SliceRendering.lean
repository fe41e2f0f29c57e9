import Mathlib
import OpenMethodBench.Proofs.SliceLoop
import OpenMethodBench.Spec.Machine

/-! What `bookkeeping` makes of the text of an instruction: the registers it finds
there, the fields it splits, and so the definitions and uses it sees. -/

namespace OMB

open DefUse

/-! ## Scanning for registers -/

theorem takeWhile_append_stop {p : Char → Bool} {c : Char} (hc : p c = false) (s t : Text) :
    (s ++ c :: t).takeWhile p = s.takeWhile p := by
  induction s with
  | nil => simp [hc]
  | cons a s ih =>
    rw [List.cons_append, List.takeWhile_cons, List.takeWhile_cons, ih]

theorem dropWhile_append_stop {p : Char → Bool} {c : Char} (hc : p c = false) (s t : Text) :
    (s ++ c :: t).dropWhile p = s.dropWhile p ++ c :: t := by
  induction s with
  | nil => simp [hc]
  | cons a s ih =>
    rw [List.cons_append, List.dropWhile_cons, List.dropWhile_cons, ih]
    split_ifs <;> rfl

section Scan

variable {c : Char} (hc : isLow c = false)

include hc

theorem not_digit_of_not_low : c.isDigit = false := by
  rw [isLow, Bool.or_eq_false_iff] at hc
  exact hc.2

theorem ne_of_not_low {a : Char} (ha : isLow a = true) : c ≠ a := by
  intro h
  rw [h, ha] at hc
  exact absurd hc (by decide)

theorem legacyAt_append (s t : Text) : legacyAt (s ++ c :: t) = legacyAt s := by
  have hl : c.isLower = false := by
    rw [isLow, Bool.or_eq_false_iff] at hc
    exact hc.1
  have hr : c ≠ 'r' := ne_of_not_low hc (by decide)
  have he : c ≠ 'e' := ne_of_not_low hc (by decide)
  rcases s with - | ⟨a, - | ⟨b, - | ⟨d, s⟩⟩⟩
  · rcases t with - | ⟨a, - | ⟨b, t⟩⟩ <;> simp [legacyAt, hr, he]
  · rcases t with - | ⟨b, t⟩ <;> simp [legacyAt, hl]
  · simp [legacyAt, hl]
  · rfl

theorem numberedAt_append (s t : Text) : numberedAt (s ++ c :: t) = numberedAt s := by
  have hd := not_digit_of_not_low hc
  rcases s with - | ⟨a, s⟩
  · have hr : c ≠ 'r' := ne_of_not_low hc (by decide)
    simp [numberedAt, hr]
  · rw [List.cons_append, numberedAt, numberedAt, takeWhile_append_stop hd,
      dropWhile_append_stop hd]
    have hsuffix : ∀ u : Text, ((u ++ c :: t).head?.filter fun s => s == 'd' || s == 'w' || s == 'b')
        = u.head?.filter fun s => s == 'd' || s == 'w' || s == 'b' := by
      intro u
      have h1 : c ≠ 'd' := ne_of_not_low hc (by decide)
      have h2 : c ≠ 'w' := ne_of_not_low hc (by decide)
      have h3 : c ≠ 'b' := ne_of_not_low hc (by decide)
      rcases u with - | ⟨b, u⟩
      · simp [h1, h2, h3]
      · rfl
    simp only [hsuffix]

theorem xmmAt_append (s t : Text) : xmmAt (s ++ c :: t) = xmmAt s := by
  have hx : c ≠ 'x' := ne_of_not_low hc (by decide)
  have hm : c ≠ 'm' := ne_of_not_low hc (by decide)
  rcases s with - | ⟨a, - | ⟨b, - | ⟨d, s⟩⟩⟩
  · simp [xmmAt, hx]
  · rcases t with - | ⟨b, t⟩ <;> simp [xmmAt, hm]
  · simp [xmmAt, hm]
  · simp only [xmmAt, List.cons_append, List.drop_succ_cons, List.drop_zero,
      List.take_succ_cons, List.take_zero, takeWhile_append_stop (not_digit_of_not_low hc)]

/-- A match ends before the first character that is none of `[a-z0-9]`. -/
theorem regAt_append (s t : Text) : regAt (s ++ c :: t) = regAt s := by
  rw [regAt, regAt, legacyAt_append hc, numberedAt_append hc, xmmAt_append hc]

theorem scanRegs_append (b : Bool) (s t : Text) :
    scanRegs b (s ++ c :: t) = scanRegs b s ++ scanRegs false t := by
  induction s generalizing b with
  | nil =>
    cases b with
    | true => simp [scanRegs, hc]
    | false =>
      have hnone : regAt (c :: t) = none := regAt_append hc [] t
      simp [scanRegs, hc, hnone]
  | cons a s ih =>
    cases b with
    | true => exact ih _
    | false =>
      rw [List.cons_append, scanRegs, scanRegs, ← List.cons_append, regAt_append hc, ih,
        List.append_assoc]

theorem regsOf_append (s t : Text) : regsOf (s ++ c :: t) = regsOf s ++ regsOf t := by
  rw [regsOf, findRegs, scanRegs_append hc, List.map_append]
  rfl

theorem regsOf_cons (t : Text) : regsOf (c :: t) = regsOf t := regsOf_append hc [] t

end Scan

theorem scanRegs_low {t : Text} (h : ∀ c ∈ t, isLow c = true) : scanRegs true t = [] := by
  induction t with
  | nil => rfl
  | cons c t ih =>
    rw [scanRegs, h c (List.mem_cons_self)]
    exact ih fun d hd => h d (List.mem_cons_of_mem c hd)

/-! ## Digits -/

theorem mem_toDigitsCore {b fuel n : ℕ} (hb : 0 < b) {ds : List Char} {c : Char}
    (h : c ∈ Nat.toDigitsCore b fuel n ds) : c ∈ ds ∨ ∃ m < b, c = Nat.digitChar m := by
  induction fuel generalizing n ds with
  | zero => exact Or.inl h
  | succ fuel ih =>
    have hdigit : ∀ d ∈ Nat.digitChar (n % b) :: ds, d ∈ ds ∨ ∃ m < b, d = Nat.digitChar m := by
      intro d hd
      rcases List.mem_cons.mp hd with rfl | hd
      · exact Or.inr ⟨n % b, Nat.mod_lt n hb, rfl⟩
      · exact Or.inl hd
    simp only [Nat.toDigitsCore] at h
    split_ifs at h
    · exact hdigit c h
    · rcases ih h with h | h
      · exact hdigit c h
      · exact Or.inr h

theorem forall_mem_toDigits {P : Char → Prop} (hdigit : ∀ m < 16, P (Nat.digitChar m)) (n : ℕ) :
    ∀ c ∈ Nat.toDigits 16 n, P c := by
  intro c hc
  rcases mem_toDigitsCore (by decide) hc with hc | ⟨m, hm, rfl⟩
  · simp at hc
  · exact hdigit m hm

theorem hexText_low {n : ℕ} : ∀ c ∈ hexText n, isLow c = true := by
  intro c hc
  rcases List.mem_cons.mp hc with rfl | hc
  · decide
  rcases List.mem_cons.mp hc with rfl | hc
  · decide
  have hdigit : ∀ m < 16, isLow (Nat.digitChar m) = true := by decide
  exact forall_mem_toDigits (P := fun c => isLow c = true) hdigit n c hc

theorem isHex_toDigits (n : ℕ) : ∀ c ∈ Nat.toDigits 16 n, isHex c = true := by
  have hdigit : ∀ m < 16, isHex (Nat.digitChar m) = true := by decide
  exact forall_mem_toDigits (P := fun c => isHex c = true) hdigit n

theorem hexVal_append (t : Text) (c : Char) :
    hexVal (t ++ [c]) = hexVal t * 16 + hexVal [c] := by
  simp [hexVal, List.foldl_append]

/-- A printed number is read back. -/
theorem hexVal_toDigits (n : ℕ) : hexVal (Nat.toDigits 16 n) = n := by
  have hdigit : ∀ m < 16, hexVal [Nat.digitChar m] = m := by decide
  induction n using Nat.strongRecOn with
  | ind n ih =>
    by_cases hn : n < 16
    · rw [Nat.toDigits_of_lt_base hn, hdigit n hn]
    · have hle : 16 ≤ n := not_lt.mp hn
      have hlt : n / 16 < n := Nat.div_lt_self (by omega) (by decide)
      rw [Nat.toDigits_of_base_le (by decide) hle, hexVal_append, ih _ hlt,
        hdigit _ (Nat.mod_lt n (by decide))]
      omega

theorem regAt_zero (t : Text) : regAt ('0' :: t) = none := by
  rcases t with - | ⟨a, - | ⟨b, t⟩⟩ <;> simp [regAt, legacyAt, numberedAt, xmmAt]

theorem regsOf_hexText (n : ℕ) : regsOf (hexText n) = [] := by
  have hlow : ∀ c ∈ 'x' :: Nat.toDigits 16 n, isLow c = true := fun c hc =>
    hexText_low c (List.mem_cons_of_mem _ hc)
  rw [regsOf, findRegs, hexText, scanRegs, regAt_zero, show isLow '0' = true by decide,
    scanRegs_low hlow]
  rfl

/-! ## The registers of an operand -/

/-- `bookkeeping` finds in the text those registers the names stand for that `REG`
matches, and beyond them at most `rip`. -/
def Mentions (t : Text) (ns : List RegName) : Prop :=
  ∀ g : Gpr, g.common ∈ regsOf t ↔ g ∈ regsSpotted ns

theorem common_injective : Function.Injective Gpr.common := by
  have h : ∀ g h : Gpr, g.common = h.common → g = h := by decide
  exact fun g k => h g k

theorem regsSpotted_append (ns ms : List RegName) :
    regsSpotted (ns ++ ms) = regsSpotted ns ++ regsSpotted ms := by
  simp [regsSpotted]

theorem mentions_name (n : RegName) : Mentions n.text [n] := by
  have h : ∀ n : RegName, regsOf n.text = if n.spotted then [n.reg.common] else [] := by decide
  intro g
  rw [h n, regsSpotted, List.filter_cons]
  split_ifs
  · simp [common_injective.eq_iff]
  · simp

theorem mentions_nil {t : Text} (h : regsOf t = []) : Mentions t [] := by
  intro g
  simp [h, regsSpotted]

theorem Mentions.append {s t : Text} {ns ms : List RegName} (hs : Mentions s ns)
    (ht : Mentions t ms) {c : Char} (hc : isLow c = false) :
    Mentions (s ++ c :: t) (ns ++ ms) := by
  intro g
  rw [regsOf_append hc, regsSpotted_append, List.mem_append, List.mem_append, hs g, ht g]

theorem Mentions.cons {t : Text} {ns : List RegName} (ht : Mentions t ns) {c : Char}
    (hc : isLow c = false) : Mentions (c :: t) ns := by
  intro g
  rw [regsOf_cons hc, ht g]

theorem sign_not_low (d : ℤ) : isLow (if d < 0 then '-' else '+') = false := by
  split_ifs <;> decide

theorem mentions_scaled (wide : Bool) (g : Gpr) (s : Size) :
    Mentions (Addr.scaledText wide g s) [(Dst.mk g wide).name] := by
  have hdigits : regsOf (Nat.toDigits 10 s.bytes) = [] := by
    cases s <;> decide
  exact (mentions_name _).append (mentions_nil hdigits) (by decide)

theorem Mentions.disp {s : Text} {ns : List RegName} (hs : Mentions s ns) (d : ℤ) :
    Mentions (s ++ dispText d) ns := by
  have h := hs.append (mentions_nil (regsOf_hexText d.natAbs)) (sign_not_low d)
  rwa [List.append_nil] at h

theorem Mentions.disp? {s : Text} {ns : List RegName} (hs : Mentions s ns) (d : Option ℤ) :
    Mentions (s ++ (d.map dispText).getD []) ns := by
  rcases d with - | d
  · simpa using hs
  · exact hs.disp d

theorem mentions_addr (a : Addr) : Mentions a.text a.names := by
  rcases a with d | ⟨wide, b, - | ⟨i, s⟩, d⟩ | ⟨wide, i, s, d⟩
  · have hrip : Mentions "rip".toList [] := by
      have h : ∀ g : Gpr, g.common ∉ regsOf "rip".toList := by decide
      exact fun g => iff_of_false (h g) (by simp [regsSpotted])
    exact hrip.disp d
  · exact (mentions_name _).disp? d
  · exact ((mentions_name _).append (mentions_scaled wide i s) (by decide)).disp? d
  · exact (mentions_scaled wide i s).disp d

theorem mentions_place (p : Place) : Mentions p.text p.names := by
  rcases p with a | n
  · have h := (mentions_addr a).append (mentions_nil (t := []) (by decide))
      (show isLow ']' = false by decide)
    rw [List.append_nil] at h
    exact h.cons (by decide)
  · have hds : Mentions "ds".toList [] := mentions_nil (by decide)
    exact hds.append (mentions_nil (regsOf_hexText n)) (by decide)

theorem mentions_operand (o : Operand) : Mentions o.text o.names := by
  rcases o with n | v | ⟨s, p⟩
  · exact mentions_name n
  · exact mentions_nil (regsOf_hexText v)
  · have hsize : Mentions s.text [] := mentions_nil (by cases s <;> decide)
    have hptr : Mentions "PTR".toList [] := mentions_nil (by decide)
    have h := hsize.append (hptr.append (mentions_place p) (show isLow ' ' = false by decide))
      (show isLow ' ' = false by decide)
    simpa [Operand.text, Operand.names] using h

/-! ## The fields of an instruction -/

theorem not_space_of_low {c : Char} (hc : isLow c = true) : Text.isSpace c = false := by
  simp only [isLow, Char.isLower, Char.isDigit, Bool.or_eq_true, Bool.and_eq_true,
    decide_eq_true_eq, ge_iff_le, UInt32.le_iff_toNat_le] at hc
  simp only [Text.isSpace, Char.toNat, Bool.or_eq_false_iff, Bool.and_eq_false_iff,
    decide_eq_false_iff_not, beq_eq_false_iff_ne]
  have ha : ('a' : Char).val.toNat = 97 := rfl
  have hz : ('z' : Char).val.toNat = 122 := rfl
  have h0 : ('0' : Char).val.toNat = 48 := rfl
  have h9 : ('9' : Char).val.toNat = 57 := rfl
  omega

/-- A text that comes back whole when a list of such is joined and split at commas. -/
structure Piece (t : Text) : Prop where
  nonempty : t ≠ []
  no_comma : ',' ∉ t
  trimmed : Text.Trimmed t

theorem trimmed_append {s t : Text} (hs : s ≠ []) (ht : t ≠ [])
    (hhead : ∀ c ∈ s.head?, Text.isSpace c = false)
    (hlast : ∀ c ∈ t.getLast?, Text.isSpace c = false) : Text.Trimmed (s ++ t) := by
  refine ⟨?_, ?_⟩
  · rw [List.head?_append_of_ne_nil _ hs]
    exact hhead
  · rw [List.getLast?_append_of_ne_nil _ ht]
    exact hlast

theorem join_ne_nil {o : Text} (os : List Text) (h : o ≠ []) :
    Text.join ',' (o :: os) ≠ [] := by
  rcases os with - | ⟨p, os⟩
  · simpa using h
  · rw [Text.join_cons_cons]
    simp

theorem trimmed_join {o : Text} {os : List Text} (h : ∀ p ∈ o :: os, Piece p) :
    Text.Trimmed (Text.join ',' (o :: os)) := by
  induction os generalizing o with
  | nil => simpa using (h o (List.mem_cons_self)).trimmed
  | cons p os ih =>
    have ho := h o (List.mem_cons_self)
    have hrest := ih fun q hq => h q (List.mem_cons_of_mem o hq)
    have hne := join_ne_nil os (h p (by simp)).nonempty
    rw [Text.join_cons_cons]
    refine trimmed_append ho.nonempty (by simp) ho.trimmed.1 ?_
    rw [List.getLast?_cons_of_ne_nil hne]
    exact hrest.2

/-- Mnemonic and operands come back as they were put together. -/
theorem insn_fields {m o : Text} {os : List Text} (hm : m ≠ [])
    (hlow : ∀ c ∈ m, isLow c = true) (h : ∀ p ∈ o :: os, Piece p) (addr : ℕ) :
    let x : Insn := ⟨addr, m ++ ' ' :: Text.join ',' (o :: os)⟩
    x.mnem = m ∧ x.ops = Text.join ',' (o :: os) ∧ x.parts = o :: os := by
  intro x
  have hmnem : x.mnem = m := Text.firstWord_append hm (fun c hc => not_space_of_low (hlow c hc))
    (by simp [Text.isSpace])
  have hops : x.ops = Text.join ',' (o :: os) := by
    rw [Insn.ops, hmnem, List.drop_left, Text.strip_cons_space (by decide),
      Text.strip_eq_self (trimmed_join h)]
  refine ⟨hmnem, hops, ?_⟩
  have hne := join_ne_nil os (h o (List.mem_cons_self)).nonempty
  rw [Insn.parts, hops, if_neg (by simpa using hne), Text.splitOn_join (by simp)
    fun p hp => (h p hp).no_comma]
  rw [List.map_congr_left fun p hp => Text.strip_eq_self (h p hp).trimmed, List.map_id']

/-! ## Operands as fields -/

theorem piece_of_chars {t : Text} (hne : t ≠ [])
    (h : ∀ c ∈ t, Text.isSpace c = false ∧ c ≠ ',') : Piece t :=
  ⟨hne, fun hc => (h ',' hc).2 rfl, Text.trimmed_of_forall fun c hc => (h c hc).1⟩

theorem ne_of_low {c a : Char} (hc : isLow c = true) (ha : isLow a = false) : c ≠ a := by
  intro h
  rw [h, ha] at hc
  exact absurd hc (by decide)

theorem name_low (n : RegName) : ∀ c ∈ n.text, isLow c = true := by
  have h : ∀ n : RegName, ∀ c ∈ n.text, isLow c = true := by decide
  exact h n

theorem name_ne_nil (n : RegName) : n.text ≠ [] := by
  have h : ∀ n : RegName, n.text ≠ [] := by decide
  exact h n

/-- The characters that stand between the brackets. -/
def isInner (c : Char) : Bool := isLow c || c == '+' || c == '-' || c == '*'

theorem isInner_of_low {c : Char} (h : isLow c = true) : isInner c = true := by
  simp [isInner, h]

theorem not_space_of_inner {c : Char} (h : isInner c = true) : Text.isSpace c = false := by
  simp only [isInner, Bool.or_eq_true, beq_iff_eq] at h
  rcases h with ((h | rfl) | rfl) | rfl
  · exact not_space_of_low h
  all_goals decide

theorem ne_of_inner {c a : Char} (h : isInner c = true) (ha : isInner a = false) : c ≠ a := by
  intro hca
  rw [hca, ha] at h
  exact absurd h (by decide)

theorem dispText_inner (d : ℤ) : ∀ c ∈ dispText d, isInner c = true := by
  intro c hc
  rcases List.mem_cons.mp hc with rfl | hc
  · split_ifs <;> decide
  · exact isInner_of_low (hexText_low c hc)

theorem scaledText_inner (wide : Bool) (g : Gpr) (s : Size) :
    ∀ c ∈ Addr.scaledText wide g s, isInner c = true := by
  intro c hc
  have hdigits : ∀ c ∈ '*' :: Nat.toDigits 10 s.bytes, isInner c = true := by
    cases s <;> decide
  rcases List.mem_append.mp hc with hc | hc
  · exact isInner_of_low (name_low _ c hc)
  · exact hdigits c hc

theorem addr_inner (a : Addr) : ∀ c ∈ a.text, isInner c = true := by
  have hdisp : ∀ d : Option ℤ, ∀ c ∈ (d.map dispText).getD [], isInner c = true := by
    intro d
    rcases d with - | d
    · simp
    · exact dispText_inner d
  intro c hc
  rcases a with d | ⟨wide, b, - | ⟨i, s⟩, d⟩ | ⟨wide, i, s, d⟩
  · rcases List.mem_append.mp hc with hc | hc
    · have hrip : ∀ c ∈ "rip".toList, isInner c = true := by decide
      exact hrip c hc
    · exact dispText_inner d c hc
  · rcases List.mem_append.mp hc with hc | hc
    · exact isInner_of_low (name_low _ c hc)
    · exact hdisp d c hc
  · rcases List.mem_append.mp hc with hc | hc
    · rcases List.mem_append.mp hc with hc | hc
      · exact isInner_of_low (name_low _ c hc)
      · rcases List.mem_cons.mp hc with rfl | hc
        · decide
        · exact scaledText_inner wide i s c hc
    · exact hdisp d c hc
  · rcases List.mem_append.mp hc with hc | hc
    · exact scaledText_inner wide i s c hc
    · exact dispText_inner d c hc

theorem place_chars (p : Place) : ∀ c ∈ p.text, Text.isSpace c = false ∧ c ≠ ',' := by
  intro c hc
  rcases p with a | n
  · rcases List.mem_append.mp hc with hc | hc
    · rcases List.mem_cons.mp hc with rfl | hc
      · decide
      · have h := addr_inner a c hc
        exact ⟨not_space_of_inner h, ne_of_inner h (by decide)⟩
    · obtain rfl := List.mem_singleton.mp hc
      decide
  · rcases List.mem_append.mp hc with hc | hc
    · have hds : ∀ c ∈ "ds:".toList, Text.isSpace c = false ∧ c ≠ ',' := by decide
      exact hds c hc
    · have h := hexText_low c hc
      exact ⟨not_space_of_low h, ne_of_low h (by decide)⟩

theorem piece_name (n : RegName) : Piece n.text :=
  piece_of_chars (name_ne_nil n) fun c hc =>
    ⟨not_space_of_low (name_low n c hc), ne_of_low (name_low n c hc) (by decide)⟩

theorem piece_place (p : Place) : Piece p.text :=
  piece_of_chars (by cases p <;> simp [Place.text]) (place_chars p)

theorem size_word (s : Size) : s.text ≠ [] ∧ ∀ c ∈ s.text, isWordChar c = true ∧ c ≠ ',' ∧
    Text.isSpace c = false := by
  cases s <;> decide

theorem piece_operand (o : Operand) : Piece o.text := by
  rcases o with n | v | ⟨s, p⟩
  · exact piece_name n
  · exact piece_of_chars (by simp [Operand.text, hexText]) fun c hc =>
      ⟨not_space_of_low (hexText_low c hc), ne_of_low (hexText_low c hc) (by decide)⟩
  · obtain ⟨hne, hsize⟩ := size_word s
    have hp := piece_place p
    refine ⟨?_, ?_, ?_⟩
    · simp [Operand.text, hne]
    · intro hc
      rcases List.mem_append.mp hc with hc | hc
      · rcases List.mem_append.mp hc with hc | hc
        · exact (hsize _ hc).2.1 rfl
        · revert hc
          decide
      · exact hp.no_comma hc
    · rw [Operand.text, List.append_assoc]
      refine trimmed_append hne (by simp) ?_ ?_
      · intro c hc
        exact (hsize c (List.mem_of_mem_head? hc)).2.2
      · rw [List.getLast?_append_of_ne_nil _ hp.nonempty]
        exact hp.trimmed.2

/-! ## Stores -/

theorem wordChar_of_low {c : Char} (h : isLow c = true) : isWordChar c = true := by
  rw [isLow, Bool.or_eq_true] at h
  rcases h with h | h <;> simp [isWordChar, Char.isAlphanum, Char.isAlpha, h]

theorem storesTo_at (s : Size) (a : Addr) (r : Text) :
    storesTo ((Operand.mem s (.at a)).text ++ ',' :: r) = true := by
  obtain ⟨hne, hsize⟩ := size_word s
  have hops : (Operand.mem s (.at a)).text ++ ',' :: r =
      s.text ++ (" PTR [".toList ++ (a.text ++ ']' :: ',' :: r)) := by
    simp [Operand.text, Place.text]
  have hinner : a.text ≠ [] := by
    rcases a with d | ⟨wide, b, - | ⟨i, s⟩, d⟩ | ⟨wide, i, s, d⟩ <;>
      simp [Addr.text, Addr.scaledText, name_ne_nil]
  have hclose : ∀ c ∈ a.text, (c != ']') = true := fun c hc =>
    bne_iff_ne.mpr (ne_of_inner (addr_inner a c hc) (by decide))
  have hword : ∀ c ∈ (" PTR [".toList ++ (a.text ++ ']' :: ',' :: r)).head?,
      isWordChar c = false := by
    simp [isWordChar]
  rw [hops, storesTo, Text.takeWhile_append_of_head (fun c hc => (hsize c hc).1) hword,
    Text.dropWhile_append_of_head (fun c hc => (hsize c hc).1) hword]
  have htake : (" PTR [".toList ++ (a.text ++ ']' :: ',' :: r)).take 6 = " PTR [".toList := rfl
  have hdrop : (" PTR [".toList ++ (a.text ++ ']' :: ',' :: r)).drop 6 =
      a.text ++ ']' :: ',' :: r := rfl
  simp only [htake, hdrop, Text.takeWhile_append_of_head hclose (r := ']' :: ',' :: r) (by simp),
    Text.dropWhile_append_of_head hclose (r := ']' :: ',' :: r) (by simp)]
  simp [hne, hinner]

/-- No store: what follows the first word does not open a bracket. -/
theorem storesTo_eq_false {w r : Text} (hw : ∀ c ∈ w, isWordChar c = true)
    (hr : ∀ c ∈ r.head?, isWordChar c = false) (hptr : r.take 6 ≠ " PTR [".toList) :
    storesTo (w ++ r) = false := by
  have hno : (r.take 6 == " PTR [".toList) = false := beq_eq_false_iff_ne.mpr hptr
  rw [storesTo, Text.takeWhile_append_of_head hw hr, Text.dropWhile_append_of_head hw hr]
  simp only [hno, Bool.and_false, Bool.false_and]

theorem storesTo_word {w : Text} (hw : ∀ c ∈ w, isLow c = true) (r : Text) :
    storesTo (w ++ ',' :: r) = false :=
  storesTo_eq_false (fun c hc => wordChar_of_low (hw c hc)) (by simp [isWordChar]) (by simp)

theorem storesTo_abs (s : Size) (n : ℕ) (r : Text) :
    storesTo ((Operand.mem s (.abs n)).text ++ ',' :: r) = false := by
  have hops : (Operand.mem s (.abs n)).text ++ ',' :: r =
      s.text ++ (" PTR ds:".toList ++ (hexText n ++ ',' :: r)) := by
    simp [Operand.text, Place.text]
  rw [hops]
  exact storesTo_eq_false (fun c hc => ((size_word s).2 c hc).1) (by simp [isWordChar])
    (by simp)

end OMB
