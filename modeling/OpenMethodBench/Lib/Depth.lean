import Mathlib
import OpenMethodBench.Lib.DefUse
import OpenMethodBench.Lib.Reaching

/-! Dependency depth of straight-line code: one forward pass over a map of depths
computes the greatest cost of a def-use path. -/

namespace Depth

open Reaching

variable {L : Type*}

/-- What an instruction writes, and the locations it reads: for the address of the load it
may make, and for the value it computes. -/
structure Use (L : Type*) where
  dst : Option L
  addrs : List L
  values : List L

def Use.skip : Use L := ⟨none, [], []⟩

/-- The location written at each position. -/
def writes (p : List (Use L)) (k : ℕ) : Option L := p[k]?.bind Use.dst

/-- A def-use path that ends at a position, with the positions whose load counts on it:
where the path starts, and wherever it enters by the address. -/
inductive Path (p : List (Use L)) : ℕ → List ℕ → Prop
  | start {j : ℕ} : Path p j [j]
  | addr {g j : ℕ} {r : L} {x : Use L} {counted : List ℕ} :
    Path p g counted → Reaches (writes p) g r j → p[j]? = some x → r ∈ x.addrs →
      Path p j (j :: counted)
  | value {g j : ℕ} {r : L} {x : Use L} {counted : List ℕ} :
    Path p g counted → Reaches (writes p) g r j → p[j]? = some x → r ∈ x.values →
      Path p j counted

/-- What the positions counted on a path weigh. -/
def cost (weight : ℕ → ℕ) (counted : List ℕ) : ℕ := (counted.map weight).sum

/-- Some path ends in a write of one of the locations that holds at position `n`; the
empty path counts nothing. -/
def Enters (p : List (Use L)) (n : ℕ) (locs : List L) (counted : List ℕ) : Prop :=
  counted = [] ∨ ∃ r ∈ locs, ∃ g, Reaches (writes p) g r n ∧ Path p g counted

/-! ## The pass -/

/-- The greatest depth among some locations. -/
def greatest (dep : L → ℕ) (locs : List L) : ℕ := (locs.map dep).foldr max 0

/-- The depth of what an instruction writes. -/
def entry (load : ℕ) (dep : L → ℕ) (x : Use L) : ℕ :=
  max (load + greatest dep x.addrs) (greatest dep x.values)

def after [DecidableEq L] (load : ℕ) (dep : L → ℕ) (x : Use L) : L → ℕ :=
  match x.dst with
  | some d => Function.update dep d (entry load dep x)
  | none => dep

/-- The depths before position `n`. -/
def depthAt [DecidableEq L] (weight : ℕ → ℕ) (p : List (Use L)) : ℕ → L → ℕ
  | 0 => fun _ => 0
  | n + 1 =>
    match p[n]? with
    | some x => after (weight n) (depthAt weight p n) x
    | none => depthAt weight p n

/-! ## Greatest elements of a list -/

theorem le_greatest {dep : L → ℕ} {locs : List L} {r : L} (hr : r ∈ locs) :
    dep r ≤ greatest dep locs := by
  induction locs with
  | nil => simp at hr
  | cons l locs ih =>
    rcases List.mem_cons.mp hr with rfl | hr
    · exact Nat.le_max_left _ _
    · exact (ih hr).trans (Nat.le_max_right _ _)

theorem greatest_mem (dep : L → ℕ) (locs : List L) :
    greatest dep locs = 0 ∨ ∃ r ∈ locs, greatest dep locs = dep r := by
  induction locs with
  | nil => exact Or.inl rfl
  | cons l locs ih =>
    change max (dep l) (greatest dep locs) = 0 ∨ ∃ r ∈ l :: locs, max (dep l) (greatest dep locs) = _
    rcases Nat.le_total (greatest dep locs) (dep l) with h | h
    · exact Or.inr ⟨l, List.mem_cons_self, Nat.max_eq_left h⟩
    · rw [Nat.max_eq_right h]
      exact ih.imp_right fun ⟨r, hr, he⟩ => ⟨r, List.mem_cons_of_mem l hr, he⟩

theorem greatest_le {dep : L → ℕ} {locs : List L} {n : ℕ} (h : ∀ r ∈ locs, dep r ≤ n) :
    greatest dep locs ≤ n := by
  rcases greatest_mem dep locs with h0 | ⟨r, hr, he⟩
  · omega
  · exact he ▸ h r hr

theorem greatest_append (dep : L → ℕ) (locs locs' : List L) :
    greatest dep (locs ++ locs') = max (greatest dep locs) (greatest dep locs') := by
  induction locs with
  | nil => exact (Nat.zero_max _).symm
  | cons l locs ih =>
    change max (dep l) (greatest dep (locs ++ locs')) = max (max (dep l) (greatest dep locs)) _
    rw [ih, Nat.max_assoc]

/-! ## Costs -/

@[simp] theorem cost_nil (weight : ℕ → ℕ) : cost weight [] = 0 := rfl

@[simp] theorem cost_cons (weight : ℕ → ℕ) (j : ℕ) (counted : List ℕ) :
    cost weight (j :: counted) = weight j + cost weight counted := by
  simp [cost]

theorem cost_mono {weight weight' : ℕ → ℕ} {counted : List ℕ}
    (h : ∀ k ∈ counted, weight' k ≤ weight k) : cost weight' counted ≤ cost weight counted := by
  induction counted with
  | nil => exact Nat.le_refl _
  | cons j counted ih =>
    rw [cost_cons, cost_cons]
    exact Nat.add_le_add (h j List.mem_cons_self) (ih fun k hk => h k (List.mem_cons_of_mem j hk))

/-- Lighter weights cost the same only where they are the same. -/
theorem cost_eq_iff {weight weight' : ℕ → ℕ} {counted : List ℕ}
    (h : ∀ k, weight' k ≤ weight k) :
    cost weight' counted = cost weight counted ↔ ∀ k ∈ counted, weight' k = weight k := by
  induction counted with
  | nil => simp
  | cons j counted ih =>
    rw [cost_cons, cost_cons, List.forall_mem_cons, ← ih]
    have hj := h j
    have hc : cost weight' counted ≤ cost weight counted := cost_mono fun k _ => h k
    omega

/-! ## The pass computes the greatest cost -/

section Greatest

variable [DecidableEq L] {weight : ℕ → ℕ} {p : List (Use L)} {n : ℕ}

theorem depthAt_succ {x : Use L} (hx : p[n]? = some x) :
    depthAt weight p (n + 1) = after (weight n) (depthAt weight p n) x := by
  rw [depthAt, hx]

theorem after_of_eq {load : ℕ} {dep : L → ℕ} {x : Use L} {r : L} (h : x.dst = some r) :
    after load dep x r = entry load dep x := by
  simp [after, h]

theorem after_of_ne {load : ℕ} {dep : L → ℕ} {x : Use L} {r : L} (h : x.dst ≠ some r) :
    after load dep x r = dep r := by
  unfold after
  rcases he : x.dst with - | d
  · rfl
  · have hne : r ≠ d := fun hr => h (by rw [he, hr])
    exact Function.update_of_ne hne _ _

omit [DecidableEq L] in
theorem writes_eq {x : Use L} (hx : p[n]? = some x) : writes p n = x.dst := by
  rw [writes, hx]
  rfl

/-- `depthAt` says of a location the greatest cost of a path to the write of it that
holds. -/
def Sound (weight : ℕ → ℕ) (p : List (Use L)) (n : ℕ) (r : L) : Prop :=
  (∀ g counted, Reaches (writes p) g r n → Path p g counted →
      cost weight counted ≤ depthAt weight p n r) ∧
    (depthAt weight p n r = 0 ∨ ∃ g counted, Reaches (writes p) g r n ∧ Path p g counted ∧
      cost weight counted = depthAt weight p n r)

/-- No path to a position costs more than what the pass enters there. -/
theorem Path.cost_le {x : Use L} (hx : p[n]? = some x) (hs : ∀ r, Sound weight p n r)
    {counted : List ℕ} (h : Path p n counted) :
    cost weight counted ≤ entry (weight n) (depthAt weight p n) x := by
  cases h with
  | start => exact le_max_of_le_left (by simp)
  | addr hg hr hx' hmem =>
    obtain rfl := Option.some.inj (hx.symm.trans hx')
    refine le_max_of_le_left ?_
    rw [cost_cons]
    exact Nat.add_le_add_left (((hs _).1 _ _ hr hg).trans (le_greatest hmem)) _
  | value hg hr hx' hmem =>
    obtain rfl := Option.some.inj (hx.symm.trans hx')
    exact le_max_of_le_right (((hs _).1 _ _ hr hg).trans (le_greatest hmem))

/-- Some path to a position costs what the pass enters there. -/
theorem exists_path {x : Use L} (hx : p[n]? = some x) (hs : ∀ r, Sound weight p n r) :
    entry (weight n) (depthAt weight p n) x = 0 ∨
      ∃ counted, Path p n counted ∧
        cost weight counted = entry (weight n) (depthAt weight p n) x := by
  have haddr : ∃ counted, Path p n counted ∧
      cost weight counted = weight n + greatest (depthAt weight p n) x.addrs := by
    rcases greatest_mem (depthAt weight p n) x.addrs with h0 | ⟨r, hr, he⟩
    · exact ⟨[n], Path.start, by simp [h0]⟩
    · rcases (hs r).2 with h0 | ⟨g, counted, hreach, hpath, hcost⟩
      · exact ⟨[n], Path.start, by simp [he, h0]⟩
      · exact ⟨n :: counted, hpath.addr hreach hx hr, by rw [cost_cons, hcost, he]⟩
  unfold entry
  rcases Nat.le_total (greatest (depthAt weight p n) x.values)
      (weight n + greatest (depthAt weight p n) x.addrs) with hle | hle
  · rw [Nat.max_eq_left hle]
    exact Or.inr haddr
  · rw [Nat.max_eq_right hle]
    rcases greatest_mem (depthAt weight p n) x.values with h0 | ⟨r, hr, he⟩
    · exact Or.inl h0
    · rw [he]
      exact (hs r).2.imp_right fun ⟨g, counted, hreach, hpath, hcost⟩ =>
        ⟨counted, hpath.value hreach hx hr, hcost⟩

/-- The step lemma: one instruction writes one location and leaves the others. -/
theorem Sound.succ (hs : ∀ r, Sound weight p n r) (r : L) : Sound weight p (n + 1) r := by
  rcases hx : p[n]? with - | x
  · have hw : writes p n ≠ some r := by simp [writes, hx]
    have hd : depthAt weight p (n + 1) = depthAt weight p n := by rw [depthAt, hx]
    have hreach : ∀ g, Reaches (writes p) g r (n + 1) ↔ Reaches (writes p) g r n := by
      simp [reaches_succ_iff, hw]
    simpa only [Sound, hd, hreach] using hs r
  · by_cases hw : x.dst = some r
    · have hreach : ∀ g, Reaches (writes p) g r (n + 1) ↔ g = n := by
        simp [reaches_succ_iff, writes_eq hx, hw]
      have hd : depthAt weight p (n + 1) r = entry (weight n) (depthAt weight p n) x := by
        rw [depthAt_succ hx, after_of_eq hw]
      refine ⟨fun g counted hg hp => ?_, ?_⟩
      · obtain rfl := (hreach g).mp hg
        exact hd ▸ hp.cost_le hx hs
      · rw [hd]
        exact (exists_path hx hs).imp_right fun ⟨counted, hp, hc⟩ =>
          ⟨n, counted, (hreach n).mpr rfl, hp, hc⟩
    · have hreach : ∀ g, Reaches (writes p) g r (n + 1) ↔ Reaches (writes p) g r n := by
        simp [reaches_succ_iff, writes_eq hx, hw]
      have hd : depthAt weight p (n + 1) r = depthAt weight p n r := by
        rw [depthAt_succ hx, after_of_ne hw]
      simpa only [Sound, hd, hreach] using hs r

/-- The run lemma. -/
theorem sound (weight : ℕ → ℕ) (p : List (Use L)) (n : ℕ) (r : L) : Sound weight p n r := by
  induction n generalizing r with
  | zero => exact ⟨fun g counted hg _ => absurd hg not_reaches_zero, Or.inl rfl⟩
  | succ n ih => exact Sound.succ ih r

theorem isGreatest_greatest (weight : ℕ → ℕ) (p : List (Use L)) (n : ℕ) (locs : List L) :
    IsGreatest (cost weight '' {counted | Enters p n locs counted})
      (greatest (depthAt weight p n) locs) := by
  refine ⟨?_, ?_⟩
  · rcases greatest_mem (depthAt weight p n) locs with h0 | ⟨r, hr, he⟩
    · exact ⟨[], Or.inl rfl, h0.symm⟩
    · rcases (sound weight p n r).2 with h0 | ⟨g, counted, hreach, hpath, hcost⟩
      · exact ⟨[], Or.inl rfl, by rw [he, h0]; rfl⟩
      · exact ⟨counted, Or.inr ⟨r, hr, g, hreach, hpath⟩, hcost.trans he.symm⟩
  · rintro m ⟨counted, hent, rfl⟩
    rcases hent with rfl | ⟨r, hr, g, hreach, hpath⟩
    · exact Nat.zero_le _
    · exact ((sound weight p n r).1 g counted hreach hpath).trans (le_greatest hr)

/-- The same at the position itself, whose load counts where the path starts or enters by
the address. -/
theorem isGreatest_entry (weight : ℕ → ℕ) {x : Use L} (hx : p[n]? = some x) :
    IsGreatest (cost weight '' {counted | Path p n counted})
      (entry (weight n) (depthAt weight p n) x) := by
  refine ⟨?_, ?_⟩
  · rcases exists_path hx (sound weight p n) with h0 | ⟨counted, hpath, hcost⟩
    · have hstart := Path.cost_le hx (sound weight p n) Path.start
      exact ⟨[n], Path.start, by omega⟩
    · exact ⟨counted, hpath, hcost⟩
  · rintro m ⟨counted, hpath, rfl⟩
    exact hpath.cost_le hx (sound weight p n)

end Greatest

/-! ## What a path counts -/

theorem Path.le {p : List (Use L)} {j : ℕ} {counted : List ℕ} (h : Path p j counted) :
    ∀ k ∈ counted, k ≤ j := by
  induction h with
  | start => simp
  | addr hg hr _ _ ih =>
    have hlt := hr.1
    refine List.forall_mem_cons.mpr ⟨le_refl _, fun k hk => ?_⟩
    have := ih k hk
    omega
  | value hg hr _ _ ih =>
    have hlt := hr.1
    intro k hk
    have := ih k hk
    omega

/-- A position counts once. -/
theorem Path.nodup {p : List (Use L)} {j : ℕ} {counted : List ℕ} (h : Path p j counted) :
    counted.Nodup := by
  induction h with
  | start => exact List.nodup_singleton _
  | addr hg hr _ _ ih =>
    have hlt := hr.1
    refine List.nodup_cons.mpr ⟨fun hk => ?_, ih⟩
    have := hg.le _ hk
    omega
  | value hg hr _ _ ih => exact ih

theorem cost_eq_card {weight : ℕ → ℕ} (hw : ∀ k, weight k ≤ 1) {counted : List ℕ}
    (hnodup : counted.Nodup) :
    cost weight counted = (counted.toFinset.filter fun k => weight k = 1).card := by
  induction counted with
  | nil => rfl
  | cons j counted ih =>
    obtain ⟨hj, hnodup⟩ := List.nodup_cons.mp hnodup
    have hmem : j ∉ counted.toFinset.filter fun k => weight k = 1 := by
      simp [hj]
    rw [cost_cons, List.toFinset_cons, Finset.filter_insert, ih hnodup]
    have := hw j
    split_ifs with h1
    · rw [Finset.card_insert_of_notMem hmem]
      omega
    · omega

/-! ## Lighter loads -/

/-- Among the lists of counted positions, one that costs the most. -/
def Deepest (weight : ℕ → ℕ) (P : List ℕ → Prop) (counted : List ℕ) : Prop :=
  P counted ∧ ∀ other, P other → cost weight other ≤ cost weight counted

theorem exists_deepest {weight : ℕ → ℕ} {P : List ℕ → Prop} {m : ℕ}
    (h : IsGreatest (cost weight '' {counted | P counted}) m) : ∃ counted, Deepest weight P counted := by
  obtain ⟨⟨counted, hc, hcost⟩, hle⟩ := h
  exact ⟨counted, hc, fun other ho => hcost ▸ hle ⟨other, ho, rfl⟩⟩

/-- Lighter loads leave the depth as it is exactly when some deepest path counts none of
those that became lighter. -/
theorem isGreatest_eq_iff {weight weight' : ℕ → ℕ} {P : List ℕ → Prop} {m m' : ℕ}
    (h : ∀ k, weight' k ≤ weight k) (hm : IsGreatest (cost weight '' {counted | P counted}) m)
    (hm' : IsGreatest (cost weight' '' {counted | P counted}) m') :
    m' = m ↔ ∃ counted, Deepest weight P counted ∧ ∀ k ∈ counted, weight' k = weight k := by
  obtain ⟨⟨c', hc', hcost'⟩, hle'⟩ := hm'
  obtain ⟨⟨c, hc, hcost⟩, hle⟩ := hm
  refine ⟨fun heq => ?_, fun ⟨d, ⟨hd, hdeep⟩, hsame⟩ => ?_⟩
  · have hmax : cost weight c' ≤ cost weight' c' := by
      rw [hcost', heq]
      exact hle ⟨c', hc', rfl⟩
    have hmin : cost weight' c' ≤ cost weight c' := cost_mono fun k _ => h k
    refine ⟨c', ⟨hc', fun other ho => ?_⟩, (cost_eq_iff h).mp (hmin.antisymm hmax)⟩
    calc cost weight other ≤ m := hle ⟨other, ho, rfl⟩
      _ = cost weight' c' := by rw [hcost', heq]
      _ ≤ cost weight c' := hmin
  · apply Nat.le_antisymm
    · rw [← hcost']
      exact (cost_mono fun k _ => h k).trans (hle ⟨c', hc', rfl⟩)
    · rw [← hcost]
      calc cost weight c ≤ cost weight d := hdeep c hc
        _ = cost weight' d := ((cost_eq_iff h).mpr hsame).symm
        _ ≤ m' := hle' ⟨d, hd, rfl⟩

/-! ## Fewer uses -/

/-- `x'` reads no more than `x`, and only locations that `R` holds of; of those it writes the
same, or none where `x` writes a location that it also reads. -/
structure Narrows (R : L → Prop) (x x' : Use L) : Prop where
  dst : x'.dst = x.dst ∨ (x'.dst = none ∧ ∃ r ∈ x.values, x.dst = some r) ∨
    (∀ r ∈ x.dst, ¬ R r) ∧ ∀ r ∈ x'.dst, ¬ R r
  addrs : x'.addrs ⊆ x.addrs
  values : x'.values ⊆ x.values
  read : ∀ r, r ∈ x'.addrs ∨ r ∈ x'.values → R r

section Fewer

variable {R : L → Prop} {x x' : Use L} {p p' : List (Use L)}

/-- What the narrower writes and may be read, the other writes too. -/
theorem Narrows.dst_of_dst (h : Narrows R x x') {r : L} (hr : R r) (hx' : x'.dst = some r) :
    x.dst = some r := by
  rcases h.dst with hd | ⟨hd, -⟩ | ⟨-, hd⟩
  · exact hd ▸ hx'
  · rw [hd] at hx'
    exact absurd hx' (by simp)
  · exact absurd hr (hd r hx')

/-- What only the other writes, it reads. -/
theorem Narrows.mem_values (h : Narrows R x x') {r : L} (hr : R r) (hx : x.dst = some r)
    (hx' : x'.dst ≠ some r) : r ∈ x.values := by
  rcases h.dst with hd | ⟨-, s, hs, hds⟩ | ⟨hd, -⟩
  · exact absurd (hd.trans hx) hx'
  · exact Option.some.inj (hx.symm.trans hds) ▸ hs
  · exact absurd hr (hd r hx)

/-- A path to a write that holds in the narrower program is one to a write that holds in
the other: where that has further writes, they hand the value on. -/
theorem Path.reaches_widen (h : List.Forall₂ (Narrows R) p p') {g j : ℕ} {r : L} (hR : R r)
    {counted : List ℕ} (hg : Reaches (writes p') g r j) (hpath : Path p g counted) :
    ∃ g', Reaches (writes p) g' r j ∧ Path p g' counted := by
  induction j with
  | zero => exact absurd hg not_reaches_zero
  | succ j ih =>
    rcases reaches_succ_iff.mp hg with ⟨rfl, hw⟩ | ⟨hw, hg⟩
    · obtain ⟨x', hx', hdst⟩ := Option.bind_eq_some_iff.mp hw
      obtain ⟨x, hx, hxx⟩ := h.exists_left hx'
      have hwrites : writes p g = some r := (writes_eq hx).trans (hxx.dst_of_dst hR hdst)
      exact ⟨g, reaches_succ_iff.mpr (Or.inl ⟨rfl, hwrites⟩), hpath⟩
    · obtain ⟨g', hg', hpath'⟩ := ih hg
      by_cases hwj : writes p j = some r
      · obtain ⟨x, hx, hdst⟩ := Option.bind_eq_some_iff.mp hwj
        have hlt : j < p'.length := by
          rw [← h.length_eq]
          exact (List.getElem?_eq_some_iff.mp hx).1
        have hx' := List.getElem?_eq_getElem hlt
        obtain ⟨y, hy, hyx⟩ := h.exists_left hx'
        obtain rfl := Option.some.inj (hx.symm.trans hy)
        have hnot : (p'[j]).dst ≠ some r := fun hd => hw ((writes_eq hx').trans hd)
        exact ⟨j, reaches_succ_iff.mpr (Or.inl ⟨rfl, hwj⟩),
          hpath'.value hg' hx (hyx.mem_values hR hdst hnot)⟩
      · exact ⟨g', reaches_succ_iff.mpr (Or.inr ⟨hwj, hg'⟩), hpath'⟩

/-- The narrower program has no other paths. -/
theorem Path.widen (h : List.Forall₂ (Narrows R) p p') {j : ℕ} {counted : List ℕ}
    (hpath : Path p' j counted) : Path p j counted := by
  induction hpath with
  | start => exact Path.start
  | addr hg hr hx' hmem ih =>
    obtain ⟨x, hx, hxx⟩ := h.exists_left hx'
    obtain ⟨g', hg', hpath'⟩ := ih.reaches_widen h (hxx.read _ (Or.inl hmem)) hr
    exact hpath'.addr hg' hx (hxx.addrs hmem)
  | value hg hr hx' hmem ih =>
    obtain ⟨x, hx, hxx⟩ := h.exists_left hx'
    obtain ⟨g', hg', hpath'⟩ := ih.reaches_widen h (hxx.read _ (Or.inr hmem)) hr
    exact hpath'.value hg' hx (hxx.values hmem)

/-- The same weights on fewer paths: the depth stays exactly when a deepest path does. -/
theorem isGreatest_subset_eq_iff {weight : ℕ → ℕ} {P P' : List ℕ → Prop} {m m' : ℕ}
    (h : ∀ counted, P' counted → P counted) (hm : IsGreatest (cost weight '' {counted | P counted}) m)
    (hm' : IsGreatest (cost weight '' {counted | P' counted}) m') :
    m' = m ↔ ∃ counted, Deepest weight P counted ∧ P' counted := by
  obtain ⟨⟨c', hc', hcost'⟩, hle'⟩ := hm'
  refine ⟨fun heq => ⟨c', ⟨h c' hc', fun other ho => ?_⟩, hc'⟩, fun ⟨d, ⟨_, hdeep⟩, hd'⟩ => ?_⟩
  · rw [hcost', heq]
    exact hm.2 ⟨other, ho, rfl⟩
  · apply Nat.le_antisymm
    · exact hcost' ▸ hm.2 ⟨c', h c' hc', rfl⟩
    · obtain ⟨⟨c, hc, hcost⟩, -⟩ := hm
      exact hcost ▸ (hdeep c hc).trans (hle' ⟨d, hd', rfl⟩)

end Fewer

end Depth
