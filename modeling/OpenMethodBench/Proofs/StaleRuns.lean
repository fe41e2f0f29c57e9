import OpenMethodBench.Lib.Steps
import OpenMethodBench.Spec.Matrix

/-! What `rm -rf "$OUTDIR"/run*` leaves of the runs that are there before it, wherever it is left. -/

namespace OMB

open Steps

variable {space : Char → Bool} {conf : Text} {bench : Bench} {out t : OutDir}

theorem orEnd_eq_some_iff {ok : Bool} : orEnd ok out = some t ↔ ok = true ∧ t = out := by
  rw [orEnd]
  split_ifs with h
  · rw [Option.some_inj, eq_comm]
    simp [h]
  · simp [h]

/-- Everything that matches can be removed. -/
def Removable (disk : Storage) (out : OutDir) : Prop :=
  ∀ e ∈ out, isRunName e.1 = true → disk.rmdirs e.1 = true ∧ ∀ f ∈ e.2, disk.unlinks e.1 f.1 = true

/-- All of the runs are runs from before, with some of the files that these had. -/
def Remnant (out t : OutDir) : Prop :=
  ∀ x ∈ t, isRunName x.1 = true → ∃ e ∈ out, e.1 = x.1 ∧ x.2.Sublist e.2

/-- Between the first removal and the last. -/
structure Removing (out t : OutDir) : Prop where
  others_eq : others t = others out
  remnant : Remnant out t

theorem removing_refl (out : OutDir) : Removing out out :=
  ⟨rfl, fun x hx _ => ⟨x, hx, rfl, List.Sublist.refl _⟩⟩

theorem mem_removals {a : MatrixStep} (h : a ∈ removals out) :
    (∃ name file, isRunName name = true ∧ a = .unlink name file) ∨
      ∃ name, isRunName name = true ∧ a = .rmdir name := by
  obtain ⟨e, he, ha⟩ := List.mem_flatMap.mp h
  have hrun : isRunName e.1 = true := by simpa using List.of_mem_filter he
  rcases List.mem_append.mp ha with ha | ha
  · obtain ⟨f, -, rfl⟩ := List.mem_map.mp ha
    exact Or.inl ⟨e.1, f.1, hrun, rfl⟩
  · exact Or.inr ⟨e.1, hrun, List.mem_singleton.mp ha⟩

theorem unlink_eq_some {s : OutDir} {name file : Text}
    (h : matrixStep space conf bench s (.unlink name file) = some t) :
    t = if bench.disk.unlinks name file then
      s.map fun e => if e.1 = name then (e.1, e.2.filter fun f => f.1 != file) else e else s :=
  (Option.some.inj h).symm

theorem rmdir_eq_some {s : OutDir} {name : Text}
    (h : matrixStep space conf bench s (.rmdir name) = some t) :
    t = if bench.disk.rmdirs name then s.filter fun e => !(e.1 == name && e.2.isEmpty) else s :=
  (Option.some.inj h).symm

/-- What a removal leaves is what was there, with some of its files. -/
theorem mem_of_unlink {s : OutDir} {name file : Text} {x : Text × Dict Text Text}
    (h : matrixStep space conf bench s (.unlink name file) = some t) (hx : x ∈ t) :
    ∃ y ∈ s, y.1 = x.1 ∧ x.2.Sublist y.2 ∧
      (bench.disk.unlinks name file = true → x.1 = name → ∀ f ∈ x.2, f.1 ≠ file) := by
  rw [unlink_eq_some h] at hx
  split_ifs at hx with hcan
  · obtain ⟨y, hy, rfl⟩ := List.mem_map.mp hx
    by_cases hname : y.1 = name
    · rw [if_pos hname]
      exact ⟨y, hy, rfl, List.filter_sublist, fun _ _ f hf => by simpa using List.of_mem_filter hf⟩
    · rw [if_neg hname]
      exact ⟨y, hy, rfl, List.Sublist.refl _, fun _ h => absurd h hname⟩
  · exact ⟨x, hx, rfl, List.Sublist.refl _, fun h => absurd h hcan⟩

theorem mem_of_rmdir {s : OutDir} {name : Text} {x : Text × Dict Text Text}
    (h : matrixStep space conf bench s (.rmdir name) = some t) (hx : x ∈ t) :
    x ∈ s ∧ (bench.disk.rmdirs name = true → x.1 = name → x.2 ≠ []) := by
  rw [rmdir_eq_some h] at hx
  split_ifs at hx with hcan
  · have hkept := List.of_mem_filter hx
    exact ⟨List.mem_of_mem_filter hx, fun _ hname hnil => by simp [hname, hnil] at hkept⟩
  · exact ⟨hx, fun h => absurd h hcan⟩

theorem others_unlink {s : OutDir} {name file : Text} (hrun : isRunName name = true)
    (h : matrixStep space conf bench s (.unlink name file) = some t) : others t = others s := by
  rw [unlink_eq_some h]
  split_ifs with hcan
  · rw [others, List.filter_map]
    have hname : (fun e : Text × Dict Text Text => !isRunName e.1) ∘ (fun e : Text × Dict Text Text =>
        if e.1 = name then (e.1, e.2.filter fun f => f.1 != file) else e) =
        fun e => !isRunName e.1 := by
      funext e
      dsimp only [Function.comp_apply]
      split_ifs <;> rfl
    rw [hname]
    refine (List.map_congr_left fun e he => ?_).trans (List.map_id _)
    have hother := List.of_mem_filter (p := fun e : Text × Dict Text Text => !isRunName e.1) he
    rw [if_neg fun heq => by simp [heq, hrun] at hother, id]
  · rfl

theorem others_rmdir {s : OutDir} {name : Text} (hrun : isRunName name = true)
    (h : matrixStep space conf bench s (.rmdir name) = some t) : others t = others s := by
  rw [rmdir_eq_some h]
  split_ifs with hcan
  · rw [others, others, List.filter_filter]
    refine List.filter_congr fun e _ => ?_
    by_cases hname : e.1 = name
    · simp [hname, hrun]
    · simp [hname]
  · rfl

/-- The invariant of `rm`. -/
theorem Removing.step {s : OutDir} (h : Removing out s) {a : MatrixStep} (ha : a ∈ removals out)
    (hstep : matrixStep space conf bench s a = some t) : Removing out t := by
  rcases mem_removals ha with ⟨name, file, hrun, rfl⟩ | ⟨name, hrun, rfl⟩
  · refine ⟨(others_unlink hrun hstep).trans h.others_eq, fun x hx hxrun => ?_⟩
    obtain ⟨y, hy, hname, hsub, -⟩ := mem_of_unlink hstep hx
    obtain ⟨e, he, hfrom, hfiles⟩ := h.remnant y hy (hname ▸ hxrun)
    exact ⟨e, he, hfrom.trans hname, hsub.trans hfiles⟩
  · refine ⟨(others_rmdir hrun hstep).trans h.others_eq, fun x hx hxrun => ?_⟩
    exact h.remnant x (mem_of_rmdir hstep hx).1 hxrun

theorem removals_leave (h : Leaves (matrixStep space conf bench) out (removals out) t) :
    Removing out t :=
  h.invariant (fun _ ha _ _ hstep hs => hs.step ha hstep) (removing_refl out)

/-- What cannot be removed stays. -/
theorem removals_keep_file {e f : Text} (hf : bench.disk.unlinks e f = false)
    (h : Leaves (matrixStep space conf bench) out (removals out) t)
    (hs : ∃ x ∈ out, x.1 = e ∧ ∃ g ∈ x.2, g.1 = f) : ∃ x ∈ t, x.1 = e ∧ ∃ g ∈ x.2, g.1 = f := by
  refine h.invariant (P := fun s => ∃ x ∈ s, x.1 = e ∧ ∃ g ∈ x.2, g.1 = f)
    (fun a ha s t hstep hs => ?_) hs
  obtain ⟨x, hx, hname, g, hg, hfile⟩ := hs
  rcases mem_removals ha with ⟨name, file, -, rfl⟩ | ⟨name, -, rfl⟩
  · rw [unlink_eq_some hstep]
    split_ifs with hcan
    · refine ⟨_, List.mem_map_of_mem hx, ?_⟩
      by_cases hsame : x.1 = name
      · have hne : g.1 ≠ file := by
          rintro rfl
          rw [← hsame, hname, hfile, hf] at hcan
          exact Bool.false_ne_true hcan
        rw [if_pos hsame]
        exact ⟨hname, g, List.mem_filter.mpr ⟨hg, by simpa using hne⟩, hfile⟩
      · rw [if_neg hsame]
        exact ⟨hname, g, hg, hfile⟩
    · exact ⟨x, hx, hname, g, hg, hfile⟩
  · refine ⟨x, ?_, hname, g, hg, hfile⟩
    rw [rmdir_eq_some hstep]
    split_ifs
    · exact List.mem_filter.mpr ⟨hx, by simp [List.ne_nil_of_mem hg]⟩
    · exact hx

theorem removals_keep_entry {e : Text} (he : bench.disk.rmdirs e = false)
    (h : Leaves (matrixStep space conf bench) out (removals out) t) (hs : e ∈ out.map Prod.fst) :
    e ∈ t.map Prod.fst := by
  refine h.invariant (P := fun s => e ∈ s.map Prod.fst) (fun a ha s t hstep hs => ?_) hs
  obtain ⟨x, hx, rfl⟩ := List.mem_map.mp hs
  rcases mem_removals ha with ⟨name, file, -, rfl⟩ | ⟨name, -, rfl⟩
  · rw [unlink_eq_some hstep]
    split_ifs
    · refine List.mem_map.mpr ⟨_, List.mem_map_of_mem hx, ?_⟩
      split_ifs <;> rfl
    · exact hs
  · rw [rmdir_eq_some hstep]
    split_ifs with hcan
    · have hne : x.1 ≠ name := by
        rintro hsame
        rw [← hsame, he] at hcan
        exact Bool.false_ne_true hcan
      exact List.mem_map_of_mem (List.mem_filter.mpr ⟨hx, by simp [hne]⟩)
    · exact hs

/-- The files that can be removed are. -/
theorem unlinks_run {name : Text} {fs : Dict Text Text} {s : OutDir}
    (hcan : ∀ f ∈ fs, bench.disk.unlinks name f.1 = true)
    (h : run (matrixStep space conf bench) s (fs.map fun f => .unlink name f.1) = some t) :
    ∀ x ∈ t, ∃ y ∈ s, y.1 = x.1 ∧ x.2.Sublist y.2 ∧ (x.1 = name → ∀ g ∈ x.2, g.1 ∉ fs.map Prod.fst) := by
  induction fs generalizing s with
  | nil =>
    obtain rfl := Option.some.inj h
    exact fun x hx => ⟨x, hx, rfl, List.Sublist.refl _, fun _ _ _ => List.not_mem_nil⟩
  | cons f fs ih =>
    obtain ⟨m, hm, h⟩ := run_cons_iff.mp h
    intro x hx
    obtain ⟨y, hy, hname, hsub, hgone⟩ := ih (fun g hg => hcan g (List.mem_cons_of_mem f hg)) h x hx
    obtain ⟨z, hz, hname', hsub', hgone'⟩ := mem_of_unlink hm hy
    refine ⟨z, hz, hname'.trans hname, hsub.trans hsub', fun hx' g hg => ?_⟩
    rw [List.map_cons, List.mem_cons, not_or]
    have hfirst := hgone' (hcan f List.mem_cons_self) (hname.trans hx') g (hsub.subset hg)
    exact ⟨hfirst, hgone hx' g hg⟩

/-- And so is an entry, with all of its files. -/
theorem removeSteps_run {e : Text × Dict Text Text} {s : OutDir} (hrmdir : bench.disk.rmdirs e.1 = true)
    (hcan : ∀ f ∈ e.2, bench.disk.unlinks e.1 f.1 = true)
    (h : run (matrixStep space conf bench) s (removeSteps e) = some t) :
    ∀ x ∈ t, ∃ y ∈ s, y.1 = x.1 ∧ x.2.Sublist y.2 ∧
      (x.1 = e.1 → ¬ y.2.map Prod.fst ⊆ e.2.map Prod.fst) := by
  obtain ⟨m, hm, h⟩ := run_append_iff.mp h
  obtain ⟨u, hu, h⟩ := run_cons_iff.mp h
  obtain rfl := Option.some.inj h
  intro x hx
  obtain ⟨hxm, hnonempty⟩ := mem_of_rmdir hu hx
  obtain ⟨y, hy, hname, hsub, hgone⟩ := unlinks_run hcan hm x hxm
  refine ⟨y, hy, hname, hsub, fun hsame hfiles => hnonempty hrmdir hsame ?_⟩
  refine List.eq_nil_iff_forall_not_mem.mpr fun g hg => hgone hsame g hg ?_
  exact hfiles (List.mem_map_of_mem (hsub.subset hg))

theorem removals_run {es s : OutDir}
    (hcan : ∀ e ∈ es, bench.disk.rmdirs e.1 = true ∧ ∀ f ∈ e.2, bench.disk.unlinks e.1 f.1 = true)
    (hcover : ∀ x ∈ s, isRunName x.1 = true → ∃ e ∈ es, x.1 = e.1 ∧ x.2.map Prod.fst ⊆ e.2.map Prod.fst)
    (h : run (matrixStep space conf bench) s (es.flatMap removeSteps) = some t) :
    ∀ x ∈ t, isRunName x.1 = false := by
  induction es generalizing s with
  | nil =>
    obtain rfl := Option.some.inj h
    intro x hx
    by_contra hrun
    obtain ⟨e, he, -⟩ := hcover x hx (by simpa using hrun)
    exact List.not_mem_nil he
  | cons e es ih =>
    rw [List.flatMap_cons] at h
    obtain ⟨m, hm, h⟩ := run_append_iff.mp h
    refine ih (fun e' he' => hcan e' (List.mem_cons_of_mem e he')) (fun x hx hrun => ?_) h
    obtain ⟨hrmdir, hunlinks⟩ := hcan e List.mem_cons_self
    obtain ⟨y, hy, hname, hsub, hleft⟩ := removeSteps_run hrmdir hunlinks hm x hx
    obtain ⟨e', he', hyname, hyfiles⟩ := hcover y hy (hname ▸ hrun)
    rcases List.mem_cons.mp he' with rfl | he'
    · exact absurd hyfiles (hleft (hname.symm.trans hyname))
    · exact ⟨e', he', hname.symm.trans hyname, List.Subset.trans (hsub.map Prod.fst).subset hyfiles⟩

theorem others_eq_self {s : OutDir} (h : ∀ x ∈ s, isRunName x.1 = false) : others s = s :=
  List.filter_eq_self.mpr fun x hx => by simp [h x hx]

theorem cleared_eq_some_iff {s : OutDir} : matrixStep space conf bench s .cleared = some t ↔
    (∀ x ∈ s, isRunName x.1 = false) ∧ t = s := by
  rw [matrixStep, orEnd_eq_some_iff, List.all_eq_true]
  simp only [Bool.not_eq_true']

theorem exists_removals_run (s : OutDir) :
    ∃ m, run (matrixStep space conf bench) s (removals out) = some m := by
  refine exists_run fun a ha s => ?_
  rcases mem_removals ha with ⟨name, file, -, rfl⟩ | ⟨name, -, rfl⟩
  · exact ⟨_, rfl⟩
  · exact ⟨_, rfl⟩

/-- `rm` ends well exactly when it can remove everything, and it has then. -/
theorem clearSteps_run_iff : run (matrixStep space conf bench) out (clearSteps out) = some t ↔
    Removable bench.disk out ∧ t = others out := by
  obtain ⟨m, hm⟩ : ∃ m, run (matrixStep space conf bench) out (removals out) = some m :=
    exists_removals_run out
  have hleaves := leaves_of_run hm
  have hothers := (removals_leave hleaves).others_eq
  rw [clearSteps, run_append_iff]
  constructor
  · rintro ⟨m', hm', h⟩
    obtain rfl := Option.some.inj (hm'.symm.trans hm)
    obtain ⟨u, hu, hend⟩ := run_cons_iff.mp h
    obtain ⟨hnone, rfl⟩ := cleared_eq_some_iff.mp hu
    obtain rfl := Option.some.inj hend
    refine ⟨fun e he hrun => ?_, by rw [← hothers, others_eq_self hnone]⟩
    have hgone : ∀ x ∈ u, x.1 ≠ e.1 := fun x hx hname => by simp [← hname, hnone x hx] at hrun
    constructor
    · by_contra hno
      have hkept := removals_keep_entry (eq_false_of_ne_true hno) hleaves (List.mem_map_of_mem he)
      obtain ⟨x, hx, hname⟩ := List.mem_map.mp hkept
      exact hgone x hx hname
    · intro f hf
      by_contra hno
      obtain ⟨x, hx, hname, -⟩ := removals_keep_file (eq_false_of_ne_true hno) hleaves
        ⟨e, he, rfl, f, hf, rfl⟩
      exact hgone x hx hname
  · rintro ⟨hcan, rfl⟩
    have hnone : ∀ x ∈ m, isRunName x.1 = false := by
      refine removals_run (fun e he => ?_) (fun x hx hrun => ?_) hm
      · exact hcan e (List.mem_of_mem_filter he) (by simpa using List.of_mem_filter he)
      · exact ⟨x, List.mem_filter.mpr ⟨hx, hrun⟩, rfl, List.Subset.refl _⟩
    refine ⟨m, hm, run_cons_iff.mpr ⟨m, cleared_eq_some_iff.mpr ⟨hnone, rfl⟩, ?_⟩⟩
    rw [run_nil, ← hothers, others_eq_self hnone]

theorem clearSteps_leaves (h : Leaves (matrixStep space conf bench) out (clearSteps out) t) :
    Removing out t := by
  rcases leaves_append_iff.mp h with h | ⟨m, hm, h⟩
  · exact removals_leave h
  · have htest : ∀ a ∈ [MatrixStep.cleared], ∀ u, matrixStep space conf bench m a = some u ↔
        (∀ x ∈ m, isRunName x.1 = false) ∧ u = m := by
      intro a ha u
      rw [List.mem_singleton.mp ha]
      exact cleared_eq_some_iff
    rw [leaves_tests htest h]
    exact removals_leave (leaves_of_run hm)

end OMB
