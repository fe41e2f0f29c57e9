import Mathlib
import OpenMethodBench.Spec.Consistent

/-! After `consistent` every read has a name, the same for every read of a field, whatever
the order of the cells. -/

namespace OMB

/-- The name `consistent` finds for a field. -/
def nameFor (known : Dict GlobalRef Text) (f : GlobalRef) : Text :=
  (known.get? f).getD (if family f.1 = .staticVptr then "static_vptr".toList else globalName f.1)

/-- The names of a window after the second pass. -/
def NamedWindow.renamed (known : Dict GlobalRef Text) (c : NamedWindow) : NamedWindow :=
  { c with named := (c.reads.foldl (nameRead known) (c.named, [])).1 }

/-! ## One window -/

section Window

variable (known : Dict GlobalRef Text)

/-- One read: named already, or given the name of its field. -/
theorem nameRead_eq (s : Dict ℕ Text × List Text) (r : ℕ × GlobalRef) :
    ∃ u, nameRead known s r =
      if (s.1.get? r.1).isSome then s else (s.1.set r.1 (nameFor known r.2), u) := by
  unfold nameRead nameFor
  split_ifs
  · exact ⟨[], rfl⟩
  · cases known.get? r.2 with
    | some name => exact ⟨_, rfl⟩
    | none => exact ⟨_, rfl⟩
  · cases known.get? r.2 with
    | some name => exact ⟨_, rfl⟩
    | none => exact ⟨_, rfl⟩

theorem get?_nameRead (s : Dict ℕ Text × List Text) (r : ℕ × GlobalRef) (i : ℕ) :
    (nameRead known s r).1.get? i =
      (s.1.get? i <|> if r.1 = i then some (nameFor known r.2) else none) := by
  obtain ⟨u, hu⟩ := nameRead_eq known s r
  rw [hu]
  by_cases hi : r.1 = i
  · subst hi
    rcases hs : s.1.get? r.1 with - | name
    · simp [Dict.get?_set]
    · simp [hs]
  · split_ifs
    · simp
    · simp [Dict.get?_set, hi]

/-- What has a name keeps it, every other read gets that of its field. -/
theorem get?_foldl_nameRead (reads : Dict ℕ GlobalRef) (s : Dict ℕ Text × List Text) (i : ℕ) :
    (reads.foldl (nameRead known) s).1.get? i =
      (s.1.get? i <|> (reads.get? i).map (nameFor known)) := by
  induction reads generalizing s with
  | nil => simp
  | cons r reads ih =>
    obtain ⟨j, f⟩ := r
    rw [List.foldl_cons, ih, get?_nameRead, Dict.get?_cons]
    rcases s.1.get? i with - | name
    · by_cases hj : j = i
      · simp [hj]
      · simp [hj]
    · simp

/-- The warning has no say in the names. -/
theorem foldl_nameRead_fst (reads : Dict ℕ GlobalRef) (named : Dict ℕ Text) (u u' : List Text) :
    (reads.foldl (nameRead known) (named, u)).1 = (reads.foldl (nameRead known) (named, u')).1 := by
  induction reads generalizing named u u' with
  | nil => rfl
  | cons r reads ih =>
    obtain ⟨w, hu⟩ := nameRead_eq known (named, u) r
    obtain ⟨w', hu'⟩ := nameRead_eq known (named, u') r
    rw [List.foldl_cons, List.foldl_cons, hu, hu']
    split_ifs
    · exact ih named u u'
    · exact ih _ w w'

/-- Where every read has a name, nothing happens. -/
theorem foldl_nameRead_named {reads : Dict ℕ GlobalRef} {s : Dict ℕ Text × List Text}
    (h : ∀ r ∈ reads, (s.1.get? r.1).isSome) : reads.foldl (nameRead known) s = s := by
  induction reads with
  | nil => rfl
  | cons r reads ih =>
    rw [List.foldl_cons, nameRead, if_pos (h r List.mem_cons_self)]
    exact ih fun r' hr' => h r' (List.mem_cons_of_mem r hr')

end Window

/-! ## The second pass -/

section Cells

variable {κ : Type*} (known : Dict GlobalRef Text)

theorem nameCells_fst (cells : Dict κ NamedWindow) (u : List Text) :
    (nameCells known cells u).1 = cells.map fun e => (e.1, e.2.renamed known) := by
  induction cells generalizing u with
  | nil => rfl
  | cons e cells ih =>
    obtain ⟨k, c⟩ := e
    rw [nameCells, List.map_cons, ih, NamedWindow.renamed, foldl_nameRead_fst known c.reads c.named u []]

theorem nameCells_named {cells : Dict κ NamedWindow} {u : List Text}
    (h : ∀ e ∈ cells, ∀ r ∈ e.2.reads, (e.2.named.get? r.1).isSome) :
    nameCells known cells u = (cells, u) := by
  induction cells generalizing u with
  | nil => rfl
  | cons e cells ih =>
    obtain ⟨k, c⟩ := e
    rw [nameCells, foldl_nameRead_named known (h (k, c) List.mem_cons_self),
      ih fun e he => h e (List.mem_cons_of_mem _ he)]

end Cells

/-! ## The first pass -/

section Names

variable {κ : Type*}

theorem get?_knownNames (cells : Dict κ NamedWindow) (f : GlobalRef) :
    (knownNames cells).get? f = Dict.get? (cells.flatMap fun e => e.2.given) f := by
  rw [knownNames, Dict.get?_foldl_setDefault, Dict.get?_nil]
  rfl

theorem mem_given {c : NamedWindow} {f : GlobalRef} {name : Text} :
    (f, name) ∈ c.given ↔ ∃ i, (i, f) ∈ c.reads ∧ c.named.get? i = some name := by
  rw [NamedWindow.given, List.mem_filterMap]
  constructor
  · intro ⟨⟨i, g⟩, hr, hname⟩
    obtain ⟨n, hn, heq⟩ := Option.map_eq_some_iff.mp hname
    obtain ⟨rfl, rfl⟩ := Prod.mk.inj heq
    exact ⟨i, hr, hn⟩
  · intro ⟨i, hr, hname⟩
    exact ⟨(i, f), hr, by rw [hname]; rfl⟩

/-- `roles` gave no field two different names. -/
def OneName (cells : Dict κ NamedWindow) : Prop :=
  ∀ e ∈ cells, ∀ e' ∈ cells, ∀ i i' f name name', (i, f) ∈ e.2.reads → (i', f) ∈ e'.2.reads →
    e.2.named.get? i = some name → e'.2.named.get? i' = some name' → name = name'

variable {cells : Dict κ NamedWindow}

theorem OneName.single (h : OneName cells) : Dict.Single (cells.flatMap fun e => e.2.given) := by
  intro f name name' hname hname'
  obtain ⟨e, he, hgiven⟩ := List.mem_flatMap.mp hname
  obtain ⟨e', he', hgiven'⟩ := List.mem_flatMap.mp hname'
  obtain ⟨i, hi, hnamed⟩ := mem_given.mp hgiven
  obtain ⟨i', hi', hnamed'⟩ := mem_given.mp hgiven'
  exact h e he e' he' i i' f name name' hi hi' hnamed hnamed'

/-- A name `roles` gave is the one `consistent` finds. -/
theorem OneName.nameFor_eq (h : OneName cells) {e : κ × NamedWindow} (he : e ∈ cells) {i : ℕ}
    {f : GlobalRef} (hi : (i, f) ∈ e.2.reads) {name : Text} (hname : e.2.named.get? i = some name) :
    nameFor (knownNames cells) f = name := by
  have hknown : (knownNames cells).get? f = some name := by
    rw [get?_knownNames, h.single.get?_eq_some_iff]
    exact List.mem_flatMap.mpr ⟨e, he, mem_given.mpr ⟨i, hi, hname⟩⟩
  rw [nameFor, hknown, Option.getD_some]

/-- Every read ends with the name of its field. -/
theorem OneName.get?_renamed (h : OneName cells) {e : κ × NamedWindow} (he : e ∈ cells) {i : ℕ}
    {f : GlobalRef} (hi : (i, f) ∈ e.2.reads) :
    (e.2.renamed (knownNames cells)).named.get? i = some (nameFor (knownNames cells) f) := by
  have hread : e.2.reads.get? i = some f := (Dict.Single.of_nodup e.2.nodup).get?_eq_some_iff.mpr hi
  rw [NamedWindow.renamed, get?_foldl_nameRead, hread]
  rcases hnamed : e.2.named.get? i with - | name
  · rfl
  · rw [h.nameFor_eq he hi hnamed]
    rfl

theorem renamed_congr {known known' : Dict GlobalRef Text} (h : ∀ f, known'.get? f = known.get? f)
    (c : NamedWindow) : c.renamed known' = c.renamed known := by
  have hstep : nameRead known' = nameRead known := by
    funext s r
    rw [nameRead, nameRead, h]
  rw [NamedWindow.renamed, NamedWindow.renamed, hstep]

theorem consistent_fst (cells : Dict κ NamedWindow) (build : Text) :
    (consistent cells build).1 = cells.map fun e => (e.1, e.2.renamed (knownNames cells)) :=
  nameCells_fst (knownNames cells) cells []

/-- What `consistent` leaves of a cell: the names it had, and one for every read. -/
structure Completes (e e' : κ × NamedWindow) : Prop where
  label : e'.1 = e.1
  win : e'.2.win = e.2.win
  reads : e'.2.reads = e.2.reads
  keeps : ∀ i name, e.2.named.get? i = some name → e'.2.named.get? i = some name
  all : ∀ i f, (i, f) ∈ e'.2.reads → ∃ name, e'.2.named.get? i = some name

theorem OneName.completes (h : OneName cells) {e : κ × NamedWindow} (he : e ∈ cells) :
    Completes e (e.1, e.2.renamed (knownNames cells)) where
  label := rfl
  win := rfl
  reads := rfl
  keeps i name hname := by
    rw [NamedWindow.renamed, get?_foldl_nameRead, hname]
    rfl
  all i f hi := ⟨_, h.get?_renamed he hi⟩

end Names

/-- One field, one name: every read of every cell gets a name, those it had stay, two reads
of a field have the same name in any two cells, a second run changes nothing, and the order
of the cells is of no consequence. -/
theorem one_field_one_name {κ : Type*} {cells : Dict κ NamedWindow} (h : OneName cells)
    (build : Text) :
    List.Forall₂ Completes cells (consistent cells build).1 ∧
      (∀ e ∈ (consistent cells build).1, ∀ e' ∈ (consistent cells build).1, ∀ i i' f,
        (i, f) ∈ e.2.reads → (i', f) ∈ e'.2.reads →
          e.2.named.get? i = e'.2.named.get? i') ∧
      consistent (consistent cells build).1 build = ((consistent cells build).1, none) ∧
      ∀ cells' : Dict κ NamedWindow, cells.Perm cells' →
        (consistent cells build).1.Perm (consistent cells' build).1 := by
  have hnamed : ∀ e ∈ (consistent cells build).1, ∀ i f, (i, f) ∈ e.2.reads →
      e.2.named.get? i = some (nameFor (knownNames cells) f) := by
    intro e he i f hi
    rw [consistent_fst] at he
    obtain ⟨c, hc, rfl⟩ := List.mem_map.mp he
    exact h.get?_renamed hc hi
  refine ⟨?_, ?_, ?_, ?_⟩
  · rw [consistent_fst, List.forall₂_map_right_iff, List.forall₂_same]
    exact fun e he => h.completes he
  · intro e he e' he' i i' f hi hi'
    rw [hnamed e he i f hi, hnamed e' he' i' f hi']
  · have hall : ∀ e ∈ (consistent cells build).1, ∀ r ∈ e.2.reads,
        (e.2.named.get? r.1).isSome := by
      intro e he r hr
      rw [hnamed e he r.1 r.2 hr]
      rfl
    rw [consistent, nameCells_named _ hall]
    rfl
  · intro cells' hperm
    have hknown : ∀ f, (knownNames cells').get? f = (knownNames cells).get? f := by
      intro f
      rw [get?_knownNames, get?_knownNames]
      exact (h.single.get?_perm (hperm.flatMap_right fun e => e.2.given) f).symm
    have hmap : (fun e : κ × NamedWindow => (e.1, e.2.renamed (knownNames cells'))) =
        fun e => (e.1, e.2.renamed (knownNames cells)) := by
      funext e
      rw [renamed_congr hknown]
    rw [consistent_fst, consistent_fst, hmap]
    exact hperm.map _

/-- Two cells: the slot of one is named, and names that of the other. -/
theorem one_field_one_name_slot :
    let cells : Dict ℕ NamedWindow :=
      [(0, ⟨[], [(4, ("m::fn".toList, 8))], [], by decide⟩),
        (1, ⟨[], [(2, ("m::fn".toList, 8)), (3, ("rtl::st".toList, 0))],
          [(2, "slot".toList)], by decide⟩)]
    List.Forall₂ Completes cells (consistent cells "gcc".toList).1 ∧
      (∀ e ∈ (consistent cells "gcc".toList).1, ∀ e' ∈ (consistent cells "gcc".toList).1,
        ∀ i i' f, (i, f) ∈ e.2.reads → (i', f) ∈ e'.2.reads →
          e.2.named.get? i = e'.2.named.get? i') ∧
      consistent (consistent cells "gcc".toList).1 "gcc".toList =
        ((consistent cells "gcc".toList).1, none) ∧
      ∀ cells' : Dict ℕ NamedWindow, cells.Perm cells' →
        (consistent cells "gcc".toList).1.Perm (consistent cells' "gcc".toList).1 := by
  refine one_field_one_name ?_ "gcc".toList
  have hone : ∀ e ∈ [((0 : ℕ), (⟨[], [(4, ("m::fn".toList, 8))], [], by decide⟩ : NamedWindow)),
      (1, ⟨[], [(2, ("m::fn".toList, 8)), (3, ("rtl::st".toList, 0))],
        [(2, "slot".toList)], by decide⟩)], ∀ i name, e.2.named.get? i = some name →
          name = "slot".toList := by
    intro e he i name hname
    have hmem := Dict.mem_of_get? hname
    rcases List.mem_cons.mp he with rfl | he
    · exact absurd hmem List.not_mem_nil
    · rw [List.mem_singleton.mp he] at hmem
      exact congrArg Prod.snd (List.mem_singleton.mp hmem)
  intro e he e' he' i i' f name name' _ _ hname hname'
  rw [hone e he i name hname, hone e' he' i' name' hname']

end OMB
