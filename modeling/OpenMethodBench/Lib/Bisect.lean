import Mathlib.Data.List.Basic
import Mathlib.Tactic.Common

/-! Bisection: the first position at which a monotone test fails. -/

namespace Bisect

/-- Halve `[lo, hi)`, keeping the half where the test turns from true to false. -/
def search (p : ℕ → Bool) (lo hi : ℕ) : ℕ :=
  if lo < hi then
    if p ((lo + hi) / 2) then search p ((lo + hi) / 2 + 1) hi
    else search p lo ((lo + hi) / 2)
  else lo
termination_by hi - lo

/-- The loop keeps the turn of the test between its bounds. -/
theorem search_eq {p : ℕ → Bool} {k : ℕ} (hp : ∀ i, p i = true ↔ i < k) {lo hi : ℕ}
    (hlo : lo ≤ k) (hhi : k ≤ hi) : search p lo hi = k := by
  induction lo, hi using search.induct p with
  | case1 lo hi hlt hmid ih =>
    rw [search, if_pos hlt, if_pos hmid]
    have := (hp _).mp hmid
    apply ih <;> omega
  | case2 lo hi hlt hmid ih =>
    rw [search, if_pos hlt, if_neg hmid]
    have := mt (hp _).mpr hmid
    apply ih <;> omega
  | case3 lo hi hge =>
    rw [search, if_neg hge]
    omega

section Front

variable {α : Type*} {q : α → Bool} {l : List α}

/-- Where nothing that passes follows what fails, what passes stands in front. -/
theorem takeWhile_eq_filter (h : l.Pairwise fun a b => q b = true → q a = true) :
    l.takeWhile q = l.filter q := by
  induction l with
  | nil => rfl
  | cons a l ih =>
    obtain ⟨ha, hl⟩ := List.pairwise_cons.mp h
    by_cases hq : q a = true
    · rw [List.takeWhile_cons_of_pos hq, List.filter_cons_of_pos hq, ih hl]
    · rw [List.takeWhile_cons_of_neg hq, List.filter_cons_of_neg hq, eq_comm,
        List.filter_eq_nil_iff]
      intro b hb hqb
      exact hq (ha b hb hqb)

/-- The entries that pass are those before the first failure. -/
theorem any_getElem?_iff (h : l.Pairwise fun a b => q b = true → q a = true) (i : ℕ) :
    (l[i]?).any q = true ↔ i < (l.takeWhile q).length := by
  induction l generalizing i with
  | nil => simp
  | cons a l ih =>
    obtain ⟨ha, hl⟩ := List.pairwise_cons.mp h
    by_cases hq : q a = true
    · rw [List.takeWhile_cons_of_pos hq]
      cases i with
      | zero => simp [hq]
      | succ i => simpa using ih hl i
    · rw [List.takeWhile_cons_of_neg hq]
      cases i with
      | zero => simp [hq]
      | succ i =>
        simp only [List.getElem?_cons_succ, List.length_nil, Nat.not_lt_zero, iff_false]
        rcases hb : l[i]? with - | b
        · simp
        · exact fun hqb => hq (ha b (List.mem_of_getElem? hb) hqb)

/-- Bisecting a list for its first failure finds how many entries pass. -/
theorem search_getElem? (h : l.Pairwise fun a b => q b = true → q a = true) :
    search (fun i => (l[i]?).any q) 0 l.length = (l.filter q).length := by
  rw [← takeWhile_eq_filter h]
  apply search_eq (any_getElem?_iff h)
  · exact Nat.zero_le _
  · exact (List.takeWhile_prefix q).length_le

/-- What passes is the list up to the turn. -/
theorem take_filter (h : l.Pairwise fun a b => q b = true → q a = true) :
    l.take (l.filter q).length = l.filter q := by
  rw [← takeWhile_eq_filter h]
  exact (List.prefix_iff_eq_take.mp (List.takeWhile_prefix q)).symm

end Front

end Bisect
