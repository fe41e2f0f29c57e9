import Mathlib.Data.List.Basic
import Mathlib.Data.List.Nodup
import Mathlib.Tactic.Common

/-! Dictionaries as association lists, and grouping a list under keys. -/

/-- Entries in the order their keys were first inserted. -/
abbrev Dict (κ ν : Type*) := List (κ × ν)

namespace Dict

variable {κ ν α : Type*} [DecidableEq κ]

def get? (d : Dict κ ν) (k : κ) : Option ν := (d.find? fun e => e.1 = k).map (·.2)

/-- `d[k] = v`. -/
def set (d : Dict κ ν) (k : κ) (v : ν) : Dict κ ν :=
  match d with
  | [] => [(k, v)]
  | (k', v') :: d => if k' = k then (k, v) :: d else (k', v') :: set d k v

/-- `d.setdefault(k, []).append(v)`. -/
def push (d : Dict κ (List α)) (k : κ) (v : α) : Dict κ (List α) :=
  d.set k ((d.get? k).getD [] ++ [v])

/-- `d.setdefault(k, v)`. -/
def setDefault (d : Dict κ ν) (k : κ) (v : ν) : Dict κ ν := if (d.get? k).isSome then d else d.set k v

/-- What is filed under a key, if anything. -/
def entries (d : Dict κ (List α)) (k : κ) : List α := (d.get? k).getD []

@[simp] theorem get?_nil (k : κ) : get? ([] : Dict κ ν) k = none := rfl

theorem get?_cons (k k' : κ) (v : ν) (d : Dict κ ν) :
    get? ((k', v) :: d) k = if k' = k then some v else d.get? k := by
  rw [get?, List.find?_cons]
  by_cases h : k' = k <;> simp [h, get?]

theorem get?_set (d : Dict κ ν) (k k' : κ) (v : ν) :
    (d.set k v).get? k' = if k = k' then some v else d.get? k' := by
  induction d with
  | nil => simp [set, get?_cons]
  | cons e d ih =>
    obtain ⟨a, w⟩ := e
    rw [set]
    by_cases ha : a = k
    · rw [if_pos ha, get?_cons, get?_cons, ha]
      split_ifs <;> rfl
    · rw [if_neg ha, get?_cons, get?_cons, ih]
      by_cases hk : k = k'
      · have hak : a ≠ k' := fun h => ha (h.trans hk.symm)
        simp only [hk, hak, if_true, if_false]
      · simp only [hk, if_false]

theorem get?_setDefault (d : Dict κ ν) (k k' : κ) (v : ν) :
    (d.setDefault k v).get? k' = (d.get? k' <|> if k = k' then some v else none) := by
  rw [setDefault]
  by_cases hk : k = k'
  · subst hk
    rcases hd : d.get? k with - | w
    · simp [get?_set]
    · simp [hd]
  · split_ifs
    · simp
    · simp [get?_set, hk]

/-- First come, first served: what a list of entries leaves is what it holds first. -/
theorem get?_foldl_setDefault (es d : Dict κ ν) (k : κ) :
    (es.foldl (fun d e => d.setDefault e.1 e.2) d).get? k = (d.get? k <|> get? es k) := by
  induction es generalizing d with
  | nil => simp
  | cons e es ih =>
    obtain ⟨a, w⟩ := e
    rw [List.foldl_cons, ih, get?_setDefault, get?_cons]
    rcases d.get? k with - | v
    · by_cases ha : a = k
      · simp [ha]
      · simp [ha]
    · simp

theorem get?_eq_none_iff {d : Dict κ ν} {k : κ} : d.get? k = none ↔ ∀ v, (k, v) ∉ d := by
  induction d with
  | nil => simp
  | cons e d ih =>
    obtain ⟨a, w⟩ := e
    rw [get?_cons]
    by_cases ha : a = k
    · rw [if_pos ha]
      exact ⟨fun h => absurd h (by simp), fun h => absurd List.mem_cons_self (ha ▸ h w)⟩
    · have hne : k ≠ a := fun h => ha h.symm
      simp [ha, hne, ih]

theorem mem_of_get? {d : Dict κ ν} {k : κ} {v : ν} (h : d.get? k = some v) : (k, v) ∈ d := by
  rw [get?, Option.map_eq_some_iff] at h
  obtain ⟨e, he, hv⟩ := h
  have hk := List.find?_some he
  obtain ⟨a, w⟩ := e
  obtain rfl : a = k := by simpa using hk
  exact hv ▸ List.mem_of_find?_eq_some he

/-- No key with two values. -/
def Single (d : Dict κ ν) : Prop := ∀ k v v', (k, v) ∈ d → (k, v') ∈ d → v = v'

theorem Single.get?_eq_some_iff {d : Dict κ ν} (h : Single d) {k : κ} {v : ν} :
    d.get? k = some v ↔ (k, v) ∈ d := by
  refine ⟨mem_of_get?, fun hv => ?_⟩
  rcases hd : d.get? k with - | w
  · exact absurd hv (get?_eq_none_iff.mp hd v)
  · rw [h k w v (mem_of_get? hd) hv]

omit [DecidableEq κ] in
theorem Single.of_nodup {d : Dict κ ν} (h : (d.map Prod.fst).Nodup) : Single d := by
  intro k v v' hv hv'
  have heq := List.inj_on_of_nodup_map h hv hv' rfl
  exact congrArg Prod.snd heq

/-- Without two values for one key, the order of the entries does not show. -/
theorem Single.get?_perm {d d' : Dict κ ν} (h : Single d) (hd : d.Perm d') (k : κ) :
    d.get? k = d'.get? k := by
  have h' : Single d' := fun k v v' hv hv' => h k v v' (hd.mem_iff.mpr hv) (hd.mem_iff.mpr hv')
  apply Option.ext
  intro v
  rw [h.get?_eq_some_iff, h'.get?_eq_some_iff, hd.mem_iff]

/-- A table of the first `n` positions. -/
theorem get?_filterMap_range (n : ℕ) (f : ℕ → Option ν) (i : ℕ) :
    get? ((List.range n).filterMap fun i => (f i).map fun v => (i, v)) i =
      if i < n then f i else none := by
  induction n with
  | zero => simp
  | succ n ih =>
    have hlast : get? ((f n).map fun v => (n, v)).toList i = if n = i then f i else none := by
      by_cases hn : n = i
      · subst hn
        cases f n <;> simp [get?_cons]
      · cases f n <;> simp [get?_cons, hn]
    have happend : ∀ d e : Dict ℕ ν, get? (d ++ e) i = (get? d i <|> get? e i) := by
      intro d e
      rw [get?, get?, get?, List.find?_append]
      cases d.find? fun e => decide (e.1 = i) <;> simp
    rw [List.range_succ, List.filterMap_append, happend, ih]
    have hone : [n].filterMap (fun i => (f i).map fun v => (i, v)) =
        ((f n).map fun v => (n, v)).toList := by
      cases h : f n <;> simp [h]
    rw [hone, hlast]
    by_cases hlt : i < n
    · have hne : n ≠ i := by omega
      have hlt' : i < n + 1 := by omega
      simp [hlt, hne, hlt']
    · by_cases hn : n = i
      · simp [hn]
      · have hlt' : ¬ i < n + 1 := by omega
        simp [hlt, hn, hlt']

section Set

variable (d : Dict κ ν) (k : κ)

/-- The last value set is the one that stays. -/
@[simp] theorem set_set (v w : ν) : (d.set k v).set k w = d.set k w := by
  induction d with
  | nil => simp [set]
  | cons e d ih =>
    obtain ⟨a, u⟩ := e
    by_cases ha : a = k
    · simp [set, ha]
    · simp [set, ha, ih]

theorem map_fst_set (v : ν) :
    (d.set k v).map Prod.fst = if k ∈ d.map Prod.fst then d.map Prod.fst else d.map Prod.fst ++ [k] := by
  induction d with
  | nil => simp [set]
  | cons e d ih =>
    obtain ⟨a, u⟩ := e
    rw [set]
    by_cases ha : a = k
    · simp [ha]
    · have hk : ¬ k = a := fun h => ha h.symm
      rw [if_neg ha, List.map_cons, List.map_cons, ih]
      simp only [List.mem_cons, hk, false_or]
      split_ifs <;> rfl

theorem nodup_set {d : Dict κ ν} (h : (d.map Prod.fst).Nodup) (k : κ) (v : ν) :
    ((d.set k v).map Prod.fst).Nodup := by
  rw [map_fst_set]
  split_ifs with hk
  · exact h
  · exact List.nodup_append.mpr ⟨h, List.nodup_singleton k, fun a ha b hb => by
      rw [List.mem_singleton.mp hb]
      exact fun hab => hk (hab ▸ ha)⟩

theorem mem_set {d : Dict κ ν} {k : κ} {v : ν} {e : κ × ν} (h : e ∈ d.set k v) :
    e = (k, v) ∨ e ∈ d := by
  induction d with
  | nil => exact Or.inl (List.mem_singleton.mp h)
  | cons a d ih =>
    rw [set] at h
    split_ifs at h with ha
    · exact (List.mem_cons.mp h).imp_right fun hd => List.mem_cons_of_mem a hd
    · rcases List.mem_cons.mp h with rfl | h
      · exact Or.inr List.mem_cons_self
      · exact (ih h).imp_right fun hd => List.mem_cons_of_mem a hd

/-- Setting a key that is not there appends it. -/
theorem set_of_not_mem {d : Dict κ ν} {k : κ} (h : k ∉ d.map Prod.fst) (v : ν) :
    d.set k v = d ++ [(k, v)] := by
  induction d with
  | nil => rfl
  | cons e d ih =>
    obtain ⟨a, u⟩ := e
    rw [List.map_cons, List.mem_cons, not_or] at h
    rw [set, if_neg (Ne.symm h.1), ih h.2, List.cons_append]

theorem get?_append (d e : Dict κ ν) (k : κ) : get? (d ++ e) k = (get? d k <|> get? e k) := by
  rw [get?, get?, get?, List.find?_append]
  cases d.find? fun e => decide (e.1 = k) <;> simp

theorem get?_append_of_not_mem {d : Dict κ ν} {k : κ} (h : k ∉ d.map Prod.fst) (e : Dict κ ν) :
    get? (d ++ e) k = e.get? k := by
  induction d with
  | nil => rfl
  | cons a d ih =>
    rw [List.map_cons, List.mem_cons, not_or] at h
    rw [List.cons_append, get?_cons, if_neg fun hk => h.1 hk.symm, ih h.2]

theorem set_append_of_not_mem {d : Dict κ ν} {k : κ} (h : k ∉ d.map Prod.fst) (e : Dict κ ν) (v : ν) :
    set (d ++ e) k v = d ++ e.set k v := by
  induction d with
  | nil => rfl
  | cons a d ih =>
    rw [List.map_cons, List.mem_cons, not_or] at h
    rw [List.cons_append, set, if_neg fun hk => h.1 hk.symm, ih h.2, List.cons_append]

/-- What is kept by its key. -/
theorem get?_filter (p : κ → Bool) (d : Dict κ ν) (k : κ) :
    get? (d.filter fun e => p e.1) k = if p k then d.get? k else none := by
  induction d with
  | nil => simp
  | cons e d ih =>
    obtain ⟨a, v⟩ := e
    rw [List.filter_cons, get?_cons]
    by_cases ha : a = k
    · subst ha
      rw [if_pos rfl]
      split_ifs with hp
      · rw [get?_cons, if_pos rfl]
      · rw [ih, if_neg hp]
    · rw [if_neg ha, ← ih]
      split_ifs with hp
      · rw [get?_cons, if_neg ha]
      · rfl

/-- Looking up in a table made from distinct names. -/
theorem get?_map {β : Type*} {f : β → κ} (hf : Function.Injective f) (g : β → ν) {xs : List β} {x : β}
    (hx : x ∈ xs) : get? (xs.map fun y => (f y, g y)) (f x) = some (g x) := by
  induction xs with
  | nil => exact absurd hx List.not_mem_nil
  | cons y xs ih =>
    rw [List.map_cons, get?_cons]
    split_ifs with h
    · rw [hf h]
    · refine ih ((List.mem_cons.mp hx).resolve_left fun hxy => h ?_)
      rw [hxy]

/-- Set one after another, the last value of a key is the one found. -/
theorem get?_foldl_set (es : Dict κ ν) :
    (es.foldl (fun d e => d.set e.1 e.2) d).get? k =
      ((es.reverse.find? fun e => e.1 = k).map (·.2) <|> d.get? k) := by
  induction es generalizing d with
  | nil => simp
  | cons e es ih =>
    rw [List.foldl_cons, ih, get?_set, List.reverse_cons, List.find?_append]
    generalize es.reverse.find? (fun e => decide (e.1 = k)) = last
    rcases last with - | f
    · by_cases he : e.1 = k <;> simp [he]
    · simp

/-- A dictionary is what its own entries leave, set one after another. -/
theorem foldl_set_of_nodup {es d : Dict κ ν} (h : ((d ++ es).map Prod.fst).Nodup) :
    es.foldl (fun d e => d.set e.1 e.2) d = d ++ es := by
  induction es generalizing d with
  | nil => simp
  | cons e es ih =>
    have hk : e.1 ∉ d.map Prod.fst := by
      rw [List.map_append, List.map_cons] at h
      intro hmem
      exact (List.nodup_append.mp h).2.2 _ hmem _ List.mem_cons_self rfl
    rw [List.foldl_cons, set_of_not_mem hk, ih (by simpa using h), List.append_assoc]
    rfl

end Set

theorem push_set (d : Dict κ (List α)) (k : κ) (vs : List α) (v : α) :
    (d.set k vs).push k v = d.set k (vs ++ [v]) := by
  rw [push, get?_set, if_pos rfl, set_set]
  rfl

theorem get?_push (d : Dict κ (List α)) (k k' : κ) (v : α) :
    (d.push k v).get? k' = if k = k' then some (d.entries k ++ [v]) else d.get? k' :=
  get?_set d k k' _

theorem entries_push (d : Dict κ (List α)) (k k' : κ) (v : α) :
    (d.push k v).entries k' = d.entries k' ++ if k = k' then [v] else [] := by
  rw [entries, get?_push]
  by_cases h : k = k'
  · rw [if_pos h, if_pos h, h]
    rfl
  · rw [if_neg h, if_neg h, List.append_nil]
    rfl

/-- No key is filed with nothing under it. -/
def Filled (d : Dict κ (List α)) : Prop := ∀ k vs, d.get? k = some vs → vs ≠ []

theorem Filled.nil : Filled ([] : Dict κ (List α)) := by
  intro k vs h
  simp at h

theorem Filled.push {d : Dict κ (List α)} (h : Filled d) (k : κ) (v : α) :
    Filled (d.push k v) := by
  intro k' vs hvs
  rw [get?_push] at hvs
  by_cases hk : k = k'
  · rw [if_pos hk, Option.some.injEq] at hvs
    rw [← hvs]
    simp
  · rw [if_neg hk] at hvs
    exact h k' vs hvs

/-- A key is present exactly when something is filed under it. -/
theorem Filled.get?_eq_some_iff {d : Dict κ (List α)} (h : Filled d) {k : κ} {vs : List α} :
    d.get? k = some vs ↔ vs ≠ [] ∧ d.entries k = vs := by
  refine ⟨fun hvs => ⟨h k vs hvs, by rw [entries, hvs]; rfl⟩, fun ⟨hne, hvs⟩ => ?_⟩
  rcases hd : d.get? k with - | ws
  · rw [entries, hd] at hvs
    exact absurd hvs.symm hne
  · rw [entries, hd] at hvs
    exact congrArg some hvs

theorem Filled.get?_ne_none_iff {d : Dict κ (List α)} (h : Filled d) {k : κ} :
    d.get? k ≠ none ↔ d.entries k ≠ [] := by
  rw [entries]
  rcases hd : d.get? k with - | vs
  · simp
  · simpa using h k vs hd

end Dict
