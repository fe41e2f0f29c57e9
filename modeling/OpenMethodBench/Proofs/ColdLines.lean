import Mathlib
import OpenMethodBench.Spec.Flush

/-! The lines `clflush` mode flushes are those that hold a byte of a region, for every
alignment of its ends. -/

namespace OMB

/-- Addresses of a user mapping, or none: the end lies 64 bytes below the top. -/
structure Region.Mapped (w : ℕ) (r : Region) : Prop where
  size : 1 ≤ r.size
  top : r.addr + r.size + 64 ≤ 2 ^ w

/-- The line at `line` holds byte `b`. -/
def Touches (line b : ℕ) : Prop := line % 64 = 0 ∧ line ≤ b ∧ b < line + 64

section Loop

variable {w stop : ℕ}

/-- More fuel changes nothing. -/
theorem flushLoop_mono {fuel line : ℕ} {lines : List ℕ}
    (h : flushLoop w stop fuel line = some lines) (k : ℕ) :
    flushLoop w stop (fuel + k) line = some lines := by
  induction fuel generalizing line lines with
  | zero =>
    rw [flushLoop] at h
    split_ifs at h with hlt
    cases k with
    | zero => rw [Nat.zero_add, flushLoop, if_neg hlt, h]
    | succ k => rw [Nat.zero_add, flushLoop, if_neg hlt, h]
  | succ fuel ih =>
    have hfuel : fuel + 1 + k = fuel + k + 1 := by omega
    rw [flushLoop] at h
    rw [hfuel, flushLoop]
    split_ifs at h ⊢ with hlt
    · obtain ⟨rest, hrest, hlines⟩ := Option.map_eq_some_iff.mp h
      rw [ih hrest, Option.map_some, hlines]
    · exact h

/-- One line after another, up to the end. -/
theorem flushLoop_spec (hw : 64 ∣ 2 ^ w) (htop : stop + 64 ≤ 2 ^ w) (fuel : ℕ) {line : ℕ}
    (haligned : line % 64 = 0) (hfuel : stop ≤ line + 64 * fuel) :
    ∃ lines, flushLoop w stop fuel line = some lines ∧
      ∀ x, x ∈ lines ↔ x % 64 = 0 ∧ line ≤ x ∧ x < stop := by
  induction fuel generalizing line with
  | zero =>
    refine ⟨[], by rw [flushLoop, if_neg (by omega)], fun x => ?_⟩
    simp only [List.not_mem_nil, false_iff]
    omega
  | succ fuel ih =>
    rw [flushLoop]
    split_ifs with hlt
    · -- the next line does not pass the top of the address space
      have hnext : (line + 64) % 2 ^ w = line + 64 := Nat.mod_eq_of_lt (by omega)
      obtain ⟨lines, hlines, hmem⟩ := @ih (line + 64) (by omega) (by omega)
      refine ⟨line :: lines, by rw [hnext, hlines]; rfl, fun x => ?_⟩
      rw [List.mem_cons, hmem]
      omega
    · refine ⟨[], rfl, fun x => ?_⟩
      simp only [List.not_mem_nil, false_iff]
      omega

end Loop

section Ranges

variable {w : ℕ}

/-- A line is flushed for a region. -/
def Region.Flushes (r : Region) (line : ℕ) : Prop :=
  r.addr ≠ 0 ∧ ∃ b, r.addr ≤ b ∧ b < r.addr + r.size ∧ Touches line b

theorem flushRange_spec (hw : 64 ∣ 2 ^ w) {r : Region} (hr : r.addr ≠ 0 → r.Mapped w) :
    ∃ lines, (∀ fuel, 2 ^ w ≤ fuel → flushRange w fuel r = some lines) ∧
      ∀ line, line ∈ lines ↔ r.Flushes line := by
  by_cases hnull : r.addr = 0
  · refine ⟨[], fun fuel _ => by rw [flushRange, if_pos hnull], fun line => ?_⟩
    simp [Region.Flushes, hnull]
  · obtain ⟨hsize, htop⟩ := hr hnull
    have hstop : (r.addr + r.size) % 2 ^ w = r.addr + r.size := Nat.mod_eq_of_lt (by omega)
    have haligned : (r.addr - r.addr % 64) % 64 = 0 := by omega
    obtain ⟨lines, hlines, hmem⟩ := flushLoop_spec hw htop (2 ^ w) haligned (by omega)
    refine ⟨lines, fun fuel hfuel => ?_, fun line => ?_⟩
    · obtain ⟨k, rfl⟩ := Nat.exists_eq_add_of_le hfuel
      rw [flushRange, if_neg hnull, hstop, flushLoop_mono hlines k]
    · rw [hmem, Region.Flushes]
      constructor
      · intro ⟨hline, hbegin, hend⟩
        -- the first line holds the first byte, every other one its own
        refine ⟨hnull, max r.addr line, by omega, by omega, hline, by omega, by omega⟩
      · intro ⟨_, b, hb, hend, hline, hle, hlt⟩
        omega

theorem applyFlush_spec (hw : 64 ∣ 2 ^ w) {regions : List Region}
    (h : ∀ r ∈ regions, r.addr ≠ 0 → r.Mapped w) :
    ∃ lines, (∀ fuel, 2 ^ w ≤ fuel → applyFlush w fuel regions = some lines) ∧
      ∀ line, line ∈ lines ↔ ∃ r ∈ regions, r.Flushes line := by
  induction regions with
  | nil => exact ⟨[], fun fuel _ => rfl, fun line => by simp⟩
  | cons r rs ih =>
    obtain ⟨first, hfirst, hmem⟩ := flushRange_spec hw (h r List.mem_cons_self)
    obtain ⟨rest, hrest, hmems⟩ := ih fun s hs => h s (List.mem_cons_of_mem r hs)
    refine ⟨first ++ rest, fun fuel hfuel => ?_, fun line => ?_⟩
    · obtain ⟨parts, hparts, hflat⟩ := Option.map_eq_some_iff.mp (hrest fuel hfuel)
      rw [applyFlush, List.mapM_cons, hfirst fuel hfuel, hparts, ← hflat]
      rfl
    · rw [List.mem_append, hmem, hmems, List.exists_mem_cons_iff]

end Ranges

/-- Every byte of a region lies in a flushed line. -/
theorem exists_flushed {r : Region} (hnull : r.addr ≠ 0) {b : ℕ} (hb : r.addr ≤ b)
    (hend : b < r.addr + r.size) : ∃ line, Touches line b ∧ r.Flushes line := by
  have hline : Touches (b - b % 64) b := ⟨by omega, by omega, by omega⟩
  exact ⟨b - b % 64, hline, hnull, b, hb, hend, hline⟩

/-- The v-table region of a v-table in a user mapping. -/
theorem tableRegion_addr {w vtbl : ℕ} (hlow : 16 < vtbl) (htop : vtbl < 2 ^ w) :
    (vtbl + 2 ^ w - 16) % 2 ^ w = vtbl - 16 := by
  rw [show vtbl + 2 ^ w - 16 = vtbl - 16 + 2 ^ w by omega, Nat.add_mod_right]
  exact Nat.mod_eq_of_lt (by omega)

/-- `clflush` mode ends, and flushes the lines that hold a byte of a region that is not null,
and no others; with it, of an object and its v-table, every byte of the object, the type_info
slot before the address point and the 512 bytes after it. -/
theorem cold_means_cold {w : ℕ} (hw : w = 32 ∨ w = 64) :
    (∀ regions : List Region, (∀ r ∈ regions, r.addr ≠ 0 → r.Mapped w) →
      ∃ lines, (∀ fuel, 2 ^ w ≤ fuel → applyFlush w fuel regions = some lines) ∧
        ∀ line, line ∈ lines ↔ ∃ r ∈ regions, r.addr ≠ 0 ∧
          ∃ b, r.addr ≤ b ∧ b < r.addr + r.size ∧ Touches line b) ∧
    ∀ sizeB p vtbl : ℕ, p ≠ 0 → p + max 64 sizeB + 64 ≤ 2 ^ w → 16 < vtbl →
      vtbl + 512 + 64 ≤ 2 ^ w →
      ∃ lines, (∀ fuel, 2 ^ w ≤ fuel →
          applyFlush w fuel (objectRegions w sizeB p vtbl) = some lines) ∧
        ∀ b, (p ≤ b ∧ b < p + sizeB) ∨ (vtbl - w / 8 ≤ b ∧ b < vtbl + 512) →
          ∃ line ∈ lines, Touches line b := by
  have hdvd : 64 ∣ 2 ^ w := by
    rcases hw with rfl | rfl
    · exact ⟨2 ^ 26, by norm_num⟩
    · exact ⟨2 ^ 58, by norm_num⟩
  have hword : w / 8 ≤ 8 := by omega
  refine ⟨fun regions h => applyFlush_spec hdvd h, fun sizeB p vtbl hp htop hlow hend => ?_⟩
  have haddr := tableRegion_addr hlow (show vtbl < 2 ^ w by omega)
  have hmapped : ∀ r ∈ objectRegions w sizeB p vtbl, r.addr ≠ 0 → r.Mapped w := by
    intro r hr _
    rcases List.mem_cons.mp hr with rfl | hr
    · constructor
      · dsimp only
        split_ifs <;> omega
      · dsimp only
        split_ifs <;> omega
    · obtain rfl := List.mem_singleton.mp hr
      constructor
      · dsimp only
        omega
      · dsimp only
        rw [haddr]
        omega
  obtain ⟨lines, hlines, hmem⟩ := applyFlush_spec hdvd hmapped
  refine ⟨lines, hlines, fun b hb => ?_⟩
  obtain ⟨r, hr, line, hline, hflush⟩ : ∃ r ∈ objectRegions w sizeB p vtbl,
      ∃ line, Touches line b ∧ r.Flushes line := by
    rcases hb with ⟨hb, hlt⟩ | ⟨hb, hlt⟩
    · refine ⟨_, List.mem_cons_self, exists_flushed hp hb ?_⟩
      dsimp only
      split_ifs <;> omega
    · refine ⟨_, List.mem_cons_of_mem _ List.mem_cons_self, exists_flushed ?_ ?_ ?_⟩
      all_goals
        dsimp only
        rw [haddr]
        omega
  exact ⟨line, (hmem line).mpr ⟨r, hr, hflush⟩, hline⟩

/-- A null region beside one that crosses a line, and an object whose v-table starts a line,
on a 32-bit build. -/
theorem cold_means_cold_crossing :
    (∃ lines, (∀ fuel, 2 ^ 32 ≤ fuel → applyFlush 32 fuel [⟨0, 8⟩, ⟨4136, 32⟩] = some lines) ∧
      ∀ line, line ∈ lines ↔ ∃ r ∈ [(⟨0, 8⟩ : Region), ⟨4136, 32⟩], r.addr ≠ 0 ∧
        ∃ b, r.addr ≤ b ∧ b < r.addr + r.size ∧ Touches line b) ∧
    ∃ lines, (∀ fuel, 2 ^ 32 ≤ fuel →
        applyFlush 32 fuel (objectRegions 32 16 8200 12288) = some lines) ∧
      ∀ b, (8200 ≤ b ∧ b < 8200 + 16) ∨ (12288 - 32 / 8 ≤ b ∧ b < 12288 + 512) →
        ∃ line ∈ lines, Touches line b := by
  constructor
  · refine (cold_means_cold (Or.inl rfl)).1 _ fun r hr hnull => ?_
    rcases List.mem_cons.mp hr with rfl | hr
    · exact absurd rfl hnull
    · obtain rfl := List.mem_singleton.mp hr
      exact ⟨by decide, by norm_num⟩
  · exact (cold_means_cold (Or.inl rfl)).2 16 8200 12288 (by decide) (by norm_num) (by decide)
      (by norm_num)

end OMB
