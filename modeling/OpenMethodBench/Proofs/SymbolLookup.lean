import Mathlib.Data.List.Find
import OpenMethodBench.Spec.Symbols

/-! The lookup of an address: which symbols `resolve` looks at, and when the ones it
leaves out would have changed the answer. -/

namespace OMB

/-- A search cut short finds the same, or it misses what stands further on. -/
theorem find?_take_eq_iff {α β : Type*} {p : α → Bool} {l : List α} {n : ℕ} (f : α → β) :
    ((l.take n).find? p).map f = (l.find? p).map f ↔
      ((∃ a ∈ l, p a = true) → ∃ a ∈ l.take n, p a = true) := by
  rcases htake : (l.take n).find? p with - | a
  · have hno := List.find?_eq_none.mp htake
    have hnone : ¬ ∃ a ∈ l.take n, p a = true := fun ⟨a, ha, hp⟩ => hno a ha hp
    rw [Option.map_none, eq_comm, Option.map_eq_none_iff, List.find?_eq_none]
    simp [hnone]
  · -- what the shorter search finds comes first in the longer one too
    have hfull : l.find? p = some a := by
      conv_lhs => rw [← List.take_append_drop n l]
      rw [List.find?_append, htake]
      rfl
    rw [hfull]
    exact iff_of_true rfl fun _ => ⟨a, List.mem_of_find?_eq_some htake, List.find?_some htake⟩

/-- The symbols at or below an address, from the highest position downwards. -/
def atOrBelow (syms : List Symbol) (addr : ℕ) : List Symbol :=
  (syms.filter fun s => decide (s.addr ≤ addr)).reverse

theorem mem_atOrBelow {syms : List Symbol} {addr : ℕ} {s : Symbol} :
    s ∈ atOrBelow syms addr ↔ s ∈ syms ∧ s.addr ≤ addr := by
  simp [atOrBelow]

/-- At or below the address, containing it is what the test of the scan decides. -/
theorem contains_eq_covers {syms : List Symbol} {addr : ℕ} {s : Symbol}
    (hs : s ∈ atOrBelow syms addr) : s.contains addr = s.covers addr := by
  simp [Symbol.contains, (mem_atOrBelow.mp hs).2]

theorem exists_covering_iff {syms : List Symbol} {addr : ℕ} :
    (∃ s ∈ atOrBelow syms addr, s.covers addr = true) ↔ ∃ s ∈ syms, s.contains addr = true := by
  refine ⟨?_, ?_⟩
  · rintro ⟨s, hs, hc⟩
    exact ⟨s, (mem_atOrBelow.mp hs).1, contains_eq_covers hs ▸ hc⟩
  · rintro ⟨s, hs, hc⟩
    have hbelow : s ∈ atOrBelow syms addr := by
      refine mem_atOrBelow.mpr ⟨hs, ?_⟩
      rw [Symbol.contains, Bool.and_eq_true] at hc
      exact of_decide_eq_true hc.1
    exact ⟨s, hbelow, contains_eq_covers hbelow ▸ hc⟩

section Scan

variable {syms : List Symbol} (h : Ascending syms) (addr : ℕ)

include h

/-- The loop ends at the number of symbols at or below the address. -/
theorem searchAbove_eq : searchAbove syms addr = (atOrBelow syms addr).length := by
  rw [searchAbove, Bisect.search_getElem? (h.turns addr), atOrBelow, List.length_reverse]

/-- What `resolve` scans: the eight highest positions. -/
theorem scanned_eq :
    ((syms.take (searchAbove syms addr)).drop (searchAbove syms addr - 8)).reverse =
      (atOrBelow syms addr).take 8 := by
  have htake : syms.take (searchAbove syms addr) = (atOrBelow syms addr).reverse := by
    rw [searchAbove_eq h, atOrBelow, List.length_reverse, List.reverse_reverse]
    exact Bisect.take_filter (h.turns addr)
  rw [htake, searchAbove_eq h, ← List.reverse_take, List.reverse_reverse]

theorem resolve_eq :
    resolve syms addr =
      (((atOrBelow syms addr).take 8).find? fun s => s.covers addr).map (Symbol.hit addr) := by
  rw [resolve, scanned_eq h]
  congr 1
  apply List.find?_congr
  intro s hs
  exact contains_eq_covers (List.mem_of_mem_take hs)

end Scan

theorem resolveAll_eq (syms : List Symbol) (addr : ℕ) :
    resolveAll syms addr =
      ((atOrBelow syms addr).find? fun s => s.covers addr).map (Symbol.hit addr) := rfl

theorem resolveAll_eq_none_iff {syms : List Symbol} {addr : ℕ} :
    resolveAll syms addr = none ↔ ∀ s ∈ syms, s.contains addr = false := by
  rw [resolveAll_eq, Option.map_eq_none_iff, List.find?_eq_none]
  have h := not_congr (@exists_covering_iff syms addr)
  simpa using h

/-- The lookup agrees with the scan of the whole table exactly when a symbol that
contains the address, if there is one, is among the eight highest positions at or below
it. -/
theorem resolve_exhaustive_iff (out : Text) (addr : ℕ) :
    (resolve (symbols out) addr = resolveAll (symbols out) addr ∧
        (resolve (symbols out) addr = none ↔
          ∀ s ∈ symbols out, s.contains addr = false)) ↔
      ((∃ s ∈ symbols out, s.contains addr = true) →
        ∃ s ∈ (atOrBelow (symbols out) addr).take 8, s.contains addr = true) := by
  have h := symbols_ascending out
  have hnear : (∃ s ∈ (atOrBelow (symbols out) addr).take 8, s.covers addr = true) ↔
      ∃ s ∈ (atOrBelow (symbols out) addr).take 8, s.contains addr = true := by
    refine exists_congr fun s => and_congr_right fun hs => ?_
    rw [contains_eq_covers (List.mem_of_mem_take hs)]
  rw [← exists_covering_iff, ← hnear, ← find?_take_eq_iff (Symbol.hit addr), ← resolve_eq h,
    ← resolveAll_eq, and_iff_left_iff_imp]
  intro heq
  rw [heq, resolveAll_eq_none_iff]

/-- An object of 256 bytes, and eight of eight bytes that lie inside it. -/
def nestedSymbols : List Symbol :=
  ⟨0x4000, 0x100, "state".toList⟩ ::
    ["field0", "field1", "field2", "field3", "field4", "field5", "field6", "field7"].mapIdx
      fun k name => ⟨0x4010 + 8 * k, 8, name.toList⟩

/-- A symbol as `objdump` lists it. -/
def Symbol.listed (s : Symbol) : Text :=
  Nat.toDigits 16 s.addr ++ " l     O .bss\t".toList ++ Nat.toDigits 16 s.size ++
    "              ".toList ++ s.name ++ ['\n']

theorem symbols_nested : symbols (nestedSymbols.flatMap Symbol.listed) = nestedSymbols := by
  have hlines : ((nestedSymbols.flatMap Symbol.listed).splitOn '\n').filterMap symbolLine =
      nestedSymbols := by
    decide +kernel
  rw [symbols, hlines]
  apply List.mergeSort_of_pairwise
  decide +kernel

/-- `state` contains 0x4080, but all eight candidates lie between the two. -/
theorem nested_symbol_missed :
    let out := nestedSymbols.flatMap Symbol.listed
    resolve (symbols out) 0x4080 = none ∧
      resolveAll (symbols out) 0x4080 = some ("state".toList, 0x80) := by
  intro out
  have hsorted : Ascending nestedSymbols := symbols_nested ▸ symbols_ascending out
  rw [symbols_nested, resolve_eq hsorted]
  decide +kernel

end OMB
