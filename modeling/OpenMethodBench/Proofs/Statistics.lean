import Mathlib
import OpenMethodBench.Spec.Statistics

/-! What `summarize` computes: statistics that no outlier moves, and order statistics that
are right as long as `90 n` fits in `size_t`. -/

namespace OMB

/-! ## Sorted samples -/

theorem sorted_perm (samples : List ℕ) : (sorted samples).Perm samples :=
  List.mergeSort_perm samples _

theorem length_sorted (samples : List ℕ) : (sorted samples).length = samples.length :=
  (sorted_perm samples).length_eq

theorem sorted_pairwise (samples : List ℕ) : (sorted samples).Pairwise (· ≤ ·) := by
  have htrans : ∀ a b c : ℕ, decide (a ≤ b) = true → decide (b ≤ c) = true →
      decide (a ≤ c) = true := by
    intro a b c hab hbc
    rw [decide_eq_true_eq] at *
    omega
  have htotal : ∀ a b : ℕ, (decide (a ≤ b) || decide (b ≤ a)) = true := by
    intro a b
    rw [Bool.or_eq_true, decide_eq_true_eq, decide_eq_true_eq]
    omega
  have hsorted := List.pairwise_mergeSort htrans htotal samples
  exact hsorted.imp fun h => decide_eq_true_eq.mp h

/-- A sorted list is told by its elements. -/
theorem sorted_eq {samples s : List ℕ} (hperm : s.Perm samples) (hs : s.Pairwise (· ≤ ·)) :
    sorted samples = s :=
  ((sorted_perm samples).trans hperm.symm).eq_of_pairwise (fun _ _ _ _ => Nat.le_antisymm)
    (sorted_pairwise samples) hs

theorem sorted_mono {samples : List ℕ} {i j x y : ℕ} (hij : i ≤ j)
    (hx : (sorted samples)[i]? = some x) (hy : (sorted samples)[j]? = some y) : x ≤ y := by
  obtain ⟨hi, rfl⟩ := List.getElem?_eq_some_iff.mp hx
  obtain ⟨hj, rfl⟩ := List.getElem?_eq_some_iff.mp hy
  rcases Nat.eq_or_lt_of_le hij with rfl | hlt
  · exact Nat.le_refl _
  · exact List.pairwise_iff_getElem.mp (sorted_pairwise samples) i j hi hj hlt

/-! ## Indices -/

section Indices

variable {n : ℕ}

theorem keepCount_eq (n : ℕ) : keepCount n = n - n / 20 := by
  unfold keepCount
  split_ifs <;> omega

theorem medianIndex_lt (hn : 1 ≤ n) : medianIndex n < keepCount n := by
  rw [keepCount_eq, medianIndex]
  omega

theorem p90Index_le (w n : ℕ) : p90Index w n ≤ 9 * n / 10 := by
  have hmod := Nat.mod_le (n * 90) (2 ^ w)
  rw [p90Index]
  omega

theorem p90Index_lt (w : ℕ) (hn : 1 ≤ n) : p90Index w n < keepCount n := by
  have hle := p90Index_le w n
  rw [keepCount_eq]
  omega

theorem keepCount_le (n : ℕ) : keepCount n ≤ n := by
  rw [keepCount_eq]
  omega

theorem keepCount_pos (hn : 1 ≤ n) : 1 ≤ keepCount n := by
  rw [keepCount_eq]
  omega

end Indices

/-! ## Outliers -/

/-- The `k` smallest samples, as a multiset. -/
structure Smallest (k : ℕ) (samples : List ℕ) (s : Multiset ℕ) : Prop where
  le : s ≤ samples
  card : s.card = k
  below : ∀ x ∈ s, ∀ y ∈ (samples : Multiset ℕ) - s, x ≤ y

/-- They are the first ones after sorting. -/
theorem Smallest.take_sorted {k : ℕ} {samples : List ℕ} {s : Multiset ℕ}
    (h : Smallest k samples s) : (sorted samples).take k = s.sort (· ≤ ·) := by
  have hperm : (s.sort (· ≤ ·) ++ ((samples : Multiset ℕ) - s).sort (· ≤ ·)).Perm samples := by
    rw [← Multiset.coe_eq_coe, ← Multiset.coe_add, Multiset.sort_eq, Multiset.sort_eq]
    exact add_tsub_cancel_of_le h.le
  have hsorted : (s.sort (· ≤ ·) ++ ((samples : Multiset ℕ) - s).sort (· ≤ ·)).Pairwise (· ≤ ·) := by
    refine List.pairwise_append.mpr ⟨s.pairwise_sort _, Multiset.pairwise_sort _ _, ?_⟩
    intro x hx y hy
    exact h.below x ((Multiset.mem_sort _).mp hx) y ((Multiset.mem_sort _).mp hy)
  have hlen : (s.sort (· ≤ ·)).length = k := by rw [Multiset.length_sort, h.card]
  rw [sorted_eq hperm hsorted, List.take_left' hlen]

section Summarize

variable {D : Type} (d : Doubles D) (w : ℕ)

/-- What is kept, and how many samples there are, tell the summary. -/
theorem summarize_congr {a b : List ℕ} (hlen : a.length = b.length)
    (hkept : (sorted a).take (keepCount a.length) = (sorted b).take (keepCount a.length)) :
    summarize d w a = summarize d w b := by
  by_cases hnil : a = []
  · have hb : b = [] := List.eq_nil_of_length_eq_zero (by rw [← hlen, hnil]; rfl)
    rw [hnil, hb]
  have hn : 1 ≤ a.length := List.length_pos_iff.mpr hnil
  have hnilb : b ≠ [] := List.length_pos_iff.mp (hlen ▸ hn)
  have hget : ∀ i, i < keepCount a.length → (sorted a)[i]? = (sorted b)[i]? := by
    intro i hi
    have heq := congrArg (fun l : List ℕ => l[i]?) hkept
    simpa only [List.getElem?_take, if_pos hi] using heq
  unfold summarize
  rw [if_neg (by simpa using hnil), if_neg (by simpa using hnilb)]
  dsimp only
  rw [length_sorted, length_sorted, ← hlen, hget 0 (keepCount_pos hn), hget _ (medianIndex_lt hn),
    hget _ (p90Index_lt w hn), hkept]

end Summarize

/-- Samples with the same multiset of all but the top 5% have the same statistics, in
whatever order they come and whatever lies above. -/
theorem outliers_ignored {D : Type} (d : Doubles D) (w : ℕ) (a b : List ℕ) (s : Multiset ℕ)
    (hlen : a.length = b.length) (ha : Smallest (a.length - a.length / 20) a s)
    (hb : Smallest (b.length - b.length / 20) b s) :
    summarize d w a = summarize d w b := by
  apply summarize_congr d w hlen
  rw [keepCount_eq, ha.take_sorted, hlen, hb.take_sorted]

/-- One preemption among twenty samples, in another place: nineteen threes are kept. -/
theorem outliers_ignored_preempted :
    summarize (exact Real.sqrt) 64 (List.replicate 19 3 ++ [4]) =
      summarize (exact Real.sqrt) 64 (1000000 :: List.replicate 19 3) := by
  have hkept : ∀ a : List ℕ, a.length = 20 → (a : Multiset ℕ) - Multiset.replicate 19 3 = {4} ∨
      (a : Multiset ℕ) - Multiset.replicate 19 3 = {1000000} →
      Multiset.replicate 19 3 ≤ (a : Multiset ℕ) →
      Smallest (a.length - a.length / 20) a (Multiset.replicate 19 3) := by
    intro a hlen hrest hle
    refine ⟨hle, by rw [hlen, Multiset.card_replicate], fun x hx y hy => ?_⟩
    rw [Multiset.eq_of_mem_replicate hx]
    rcases hrest with hrest | hrest
    · rw [hrest, Multiset.mem_singleton] at hy
      omega
    · rw [hrest, Multiset.mem_singleton] at hy
      omega
  refine outliers_ignored _ 64 _ _ (Multiset.replicate 19 3) (by decide) ?_ ?_
  · exact hkept _ (by decide) (Or.inl (by decide)) (by decide)
  · exact hkept _ (by decide) (Or.inr (by decide)) (by decide)

/-! ## Order statistics -/

section Order

variable {K : Type} [Field K] [LinearOrder K] (sqrt : K → K) (w : ℕ)

/-- What is said of the statistics of some samples, in exact arithmetic. -/
structure Right (samples : List ℕ) (s : Summary K) : Prop where
  rank : (sorted samples)[9 * samples.length / 10]? = some s.p90
  min_le : s.min ≤ s.median
  median_le : s.median ≤ s.p90
  kept : 1 ≤ keepCount samples.length ∧ keepCount samples.length ≤ samples.length
  above : (s.min : K) ≤ s.mean
  below : ∃ x : ℕ, (sorted samples)[keepCount samples.length - 1]? = some x ∧ s.mean ≤ x

variable [IsStrictOrderedRing K]

theorem totalOf_exact (kept : List ℕ) : totalOf (exact sqrt) kept = ((kept.sum : ℕ) : K) := by
  have hfold : ∀ (kept : List ℕ) (t : K),
      kept.foldl (fun t x => (exact sqrt).add t ((exact sqrt).ofNat x)) t =
        t + ((kept.sum : ℕ) : K) := by
    intro kept
    induction kept with
    | nil => simp
    | cons x kept ih =>
      intro t
      rw [List.foldl_cons, ih, List.sum_cons]
      simp only [exact]
      push_cast
      ring
  rw [totalOf, hfold]
  simp [exact]

/-- The mean of some samples lies between any bounds of theirs. -/
theorem meanOf_between {kept : List ℕ} (lo hi : ℕ) (hne : kept ≠ [])
    (hlo : ∀ x ∈ kept, lo ≤ x) (hhi : ∀ x ∈ kept, x ≤ hi) :
    (lo : K) ≤ meanOf (exact sqrt) kept kept.length ∧
      meanOf (exact sqrt) kept kept.length ≤ hi := by
  have hpos : (0 : K) < (kept.length : K) := Nat.cast_pos.mpr (List.length_pos_iff.mpr hne)
  have hmean : meanOf (exact sqrt) kept kept.length =
      ((kept.sum : ℕ) : K) / (kept.length : K) := by
    rw [meanOf, totalOf_exact]
    rfl
  have hlow : kept.length * lo ≤ kept.sum := by
    simpa using List.card_nsmul_le_sum kept lo hlo
  have hhigh : kept.sum ≤ kept.length * hi := by
    simpa using List.sum_le_card_nsmul kept hi hhi
  rw [hmean, le_div_iff₀ hpos, div_le_iff₀ hpos]
  constructor
  · rw [mul_comm]
    exact_mod_cast hlow
  · rw [mul_comm (hi : K)]
    exact_mod_cast hhigh

omit [LinearOrder K] [IsStrictOrderedRing K] in
/-- What `summarize` returns for some samples. -/
theorem summarize_spec {samples : List ℕ} (hn : 1 ≤ samples.length) :
    ∃ s : Summary K, summarize (exact sqrt) w samples = some s ∧
      (sorted samples)[0]? = some s.min ∧
      (sorted samples)[medianIndex samples.length]? = some s.median ∧
      (sorted samples)[p90Index w samples.length]? = some s.p90 ∧
      s.mean = meanOf (exact sqrt) ((sorted samples).take (keepCount samples.length))
        (keepCount samples.length) := by
  have hkeep := keepCount_le samples.length
  have hget : ∀ i, i < keepCount samples.length → ∃ x, (sorted samples)[i]? = some x := by
    intro i hi
    have hlt : i < (sorted samples).length := by
      rw [length_sorted]
      omega
    exact ⟨_, List.getElem?_eq_getElem hlt⟩
  obtain ⟨min, hmin⟩ := hget 0 (keepCount_pos hn)
  obtain ⟨median, hmedian⟩ := hget _ (medianIndex_lt hn)
  obtain ⟨p90, hp90⟩ := hget _ (p90Index_lt w hn)
  have hne : samples ≠ [] := List.length_pos_iff.mp hn
  unfold summarize
  rw [if_neg (by simpa using hne)]
  dsimp only
  rw [length_sorted, hmin, hmedian, hp90]
  exact ⟨_, rfl, rfl, rfl, rfl, rfl⟩

/-- The order statistics are right exactly when the product `90 n` does not overflow, or the
two ranks that then differ, and all between them, hold one value. -/
theorem order_statistics_iff (samples : List ℕ) (hn : 1 ≤ samples.length) :
    (∃ s : Summary K, summarize (exact sqrt) w samples = some s ∧ Right samples s) ↔
      samples.length * 90 < 2 ^ w ∨
        ∃ x, ∀ k, p90Index w samples.length ≤ k → k ≤ 9 * samples.length / 10 →
          (sorted samples)[k]? = some x := by
  obtain ⟨s, hs, hmin, hmedian, hp90, hmean⟩ := summarize_spec sqrt w hn
  have hkeep := keepCount_le samples.length
  have hpos := keepCount_pos hn
  constructor
  · intro ⟨t, ht, hright⟩
    obtain rfl := Option.some.inj (hs.symm.trans ht)
    right
    refine ⟨s.p90, fun k hlow hhigh => ?_⟩
    have hlt : k < (sorted samples).length := by
      rw [length_sorted]
      omega
    have hk := List.getElem?_eq_getElem hlt
    have hle := sorted_mono hlow hp90 hk
    have hge := sorted_mono hhigh hk hright.rank
    rw [hk, Nat.le_antisymm hge hle]
  · intro hcond
    have hrank : (sorted samples)[9 * samples.length / 10]? = some s.p90 := by
      rcases hcond with hfit | ⟨x, hx⟩
      · have hindex : p90Index w samples.length = 9 * samples.length / 10 := by
          rw [p90Index, Nat.mod_eq_of_lt hfit]
          omega
        rw [← hindex, hp90]
      · have hle := p90Index_le w samples.length
        rw [hx _ hle (Nat.le_refl _), ← hx _ (Nat.le_refl _) hle, hp90]
    have hlast : keepCount samples.length - 1 < (sorted samples).length := by
      rw [length_sorted]
      omega
    have hlastget := List.getElem?_eq_getElem hlast
    have hkept : ((sorted samples).take (keepCount samples.length)).length =
        keepCount samples.length := by
      rw [List.length_take, length_sorted]
      omega
    have hne : (sorted samples).take (keepCount samples.length) ≠ [] := by
      rw [← List.length_pos_iff, hkept]
      omega
    have hbetween := meanOf_between sqrt s.min (sorted samples)[keepCount samples.length - 1] hne
      (fun x hx => by
        obtain ⟨i, hi⟩ := List.getElem?_of_mem hx
        rw [List.getElem?_take] at hi
        split_ifs at hi
        exact sorted_mono (Nat.zero_le i) hmin hi)
      (fun x hx => by
        obtain ⟨i, hi⟩ := List.getElem?_of_mem hx
        rw [List.getElem?_take] at hi
        split_ifs at hi with hlt
        exact sorted_mono (by omega) hi hlastget)
    rw [hkept, ← hmean] at hbetween
    refine ⟨s, hs, ⟨hrank, sorted_mono (Nat.zero_le _) hmin hmedian, ?_, ⟨hpos, hkeep⟩,
      hbetween.1, _, hlastget, hbetween.2⟩⟩
    refine sorted_mono ?_ hmedian hrank
    rw [medianIndex]
    omega

end Order

/-- Three samples. -/
theorem order_statistics_three :
    (∃ s : Summary ℝ, summarize (exact Real.sqrt) 32 [30, 10, 20] = some s ∧
        Right [30, 10, 20] s) ↔
      [30, 10, 20].length * 90 < 2 ^ 32 ∨
        ∃ x, ∀ k, p90Index 32 [30, 10, 20].length ≤ k → k ≤ 9 * [30, 10, 20].length / 10 →
          (sorted [30, 10, 20])[k]? = some x :=
  order_statistics_iff Real.sqrt 32 [30, 10, 20] (by decide)

/-- Zeros below rank `9n / 10`, and ones from there. -/
def stepped (n : ℕ) : List ℕ := List.replicate (9 * n / 10) 0 ++ List.replicate (n - 9 * n / 10) 1

theorem length_stepped (n : ℕ) : (stepped n).length = n := by
  rw [stepped, List.length_append, List.length_replicate, List.length_replicate]
  omega

theorem sorted_stepped (n : ℕ) : sorted (stepped n) = stepped n := by
  apply sorted_eq (List.Perm.refl _)
  refine List.pairwise_append.mpr ⟨List.pairwise_replicate.mpr (Or.inr (le_refl 0)),
    List.pairwise_replicate.mpr (Or.inr (le_refl 1)), fun x hx y _ => ?_⟩
  rw [List.eq_of_mem_replicate hx]
  exact Nat.zero_le y

/-- Some samples of a size come out wrong as soon as `90 n` overflows. -/
theorem not_right_stepped {K : Type} [Field K] [LinearOrder K] [IsStrictOrderedRing K]
    (sqrt : K → K) {w n : ℕ} (hw : 100 ≤ 2 ^ w) (hn : 2 ^ w ≤ n * 90) :
    ¬ ∃ s : Summary K, summarize (exact sqrt) w (stepped n) = some s ∧ Right (stepped n) s := by
  have hpos : 1 ≤ n := by omega
  rw [order_statistics_iff sqrt w _ (by rw [length_stepped]; exact hpos), length_stepped,
    sorted_stepped]
  -- the wrapped product gives a rank among the zeros
  have hmod : n * 90 % 2 ^ w ≤ n * 90 - 2 ^ w := by
    rw [Nat.mod_eq_sub_mod hn]
    exact Nat.mod_le _ _
  have hlow : p90Index w n < 9 * n / 10 := by
    rw [p90Index]
    omega
  intro h
  rcases h with h | ⟨x, hx⟩
  · omega
  · have hzero := hx _ (Nat.le_refl _) hlow.le
    have hone := hx _ hlow.le (Nat.le_refl _)
    rw [stepped, List.getElem?_append_left (by simpa using hlow), List.getElem?_replicate,
      if_pos hlow] at hzero
    rw [stepped, List.getElem?_append_right (by simp), List.length_replicate, Nat.sub_self,
      List.getElem?_replicate, if_pos (by omega)] at hone
    rw [← Option.some.inj hzero] at hone
    exact absurd (Option.some.inj hone) (by decide)

/-- 47,721,859 samples, 364 MiB, on a 32-bit build. -/
theorem p90_wraps_on_32_bits :
    ¬ ∀ samples : List ℕ, 1 ≤ samples.length → samples.length ≤ vectorMax 32 →
      ∃ s : Summary ℝ, summarize (exact Real.sqrt) 32 samples = some s ∧ Right samples s := by
  intro h
  have hlen := length_stepped 47721859
  refine not_right_stepped Real.sqrt (w := 32) (n := 47721859) (by decide) (by decide)
    (h (stepped 47721859) ?_ ?_)
  · rw [hlen]
    decide
  · rw [hlen]
    decide

end OMB
