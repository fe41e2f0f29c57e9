import Mathlib
import OpenMethodBench.Lib.Outcome
import OpenMethodBench.Proofs.PairedDraws
import OpenMethodBench.Spec.Session
import OpenMethodBench.Spec.Variants

/-! What the figures of a session are differences and quotients of: each row finds the rows of
its own mode that it is meant to be compared with. -/

namespace OMB

/-! ## What a variant is compared with -/

namespace Variant

/-- What reaches the same receivers without dispatching on them; a plain call for what reaches
none. -/
def reach (V : Variant) : Variant :=
  if V.touchesReceiver then
    match V.hier, V.arity with
    | .main, 2 => touch2
    | .main, _ => touch1
    | .inplace r, 2 => ipTouch2 r
    | .inplace r, _ => ipTouch1 r
  else direct

/-- The virtual call of the same arity, body and hierarchy. -/
def virtualCall (V : Variant) : Variant :=
  match V.hier, V.arity, V.body == "use".toList with
  | .main, 2, false => vf2
  | .main, 2, true => vfu2
  | .main, _, false => vf1
  | .main, _, true => vfu1
  | .inplace r, 2, false => ipVf2 r
  | .inplace r, 2, true => ipVfu2 r
  | .inplace r, _, false => ipVf1 r
  | .inplace r, _, true => ipVfu1 r

/-- A variant that is compared with others. -/
def isDispatch (V : Variant) : Bool := V.group != "baseline".toList

/-- What its row is filed under. -/
def key (V : Variant) (mode : CacheMode) : Key :=
  ⟨mode.name, V.hier.name, V.body, V.group, V.name, V.arity⟩

end Variant

theorem runVariants_nodup : runVariants.Nodup := by
  decide +kernel

/-- The variants by the keys of their rows. -/
theorem runVariants_keys (mode : CacheMode) :
    runVariants.map (fun V => V.key mode) = runOrder mode.name := by
  cases mode <;> decide +kernel

theorem runVariants_keys_nodup (mode : CacheMode) : (runVariants.map fun V => V.key mode).Nodup := by
  cases mode <;> decide +kernel

theorem find?_probe : runVariants.find? (fun V => V.group == "baseline".toList &&
    V.name == "probe".toList) = some .probe := by
  decide +kernel

theorem find?_direct : runVariants.find? (fun V => V.group == "baseline".toList &&
    V.name == "direct".toList) = some .direct := by
  decide +kernel

theorem find?_reach : ∀ V ∈ runVariants, V.touchesReceiver = true → V.arity ≠ 0 ∧
    runVariants.find? (fun U => U.group == "baseline".toList && (U.arity : ℤ) == (V.arity : ℤ) &&
      U.hier.name == V.hier.name) = some V.reach := by
  decide +kernel

theorem find?_virtualCall : ∀ V ∈ runVariants, V.isDispatch = true → V.arity ≠ 0 ∧
    runVariants.find? (fun U => U.group == "yardstick".toList && (U.arity : ℤ) == (V.arity : ℤ) &&
      U.hier.name == V.hier.name && U.body == V.body) = some V.virtualCall := by
  decide +kernel

/-! ## The rows of a session -/

/-- The rows of a session that found these statistics. -/
def rowsWith {K : Type*} (modes : List CacheMode) (st : Variant → CacheMode → Stats K) : List (Row K) :=
  modes.flatMap fun mode => runVariants.map fun V => V.row mode (st V mode)

theorem rowsWith_eq_map {K : Type*} (modes : List CacheMode) (st : Variant → CacheMode → Stats K) :
    rowsWith modes st = (sessionPlan modes).map fun Vm => Vm.1.row Vm.2 (st Vm.1 Vm.2) := by
  rw [rowsWith, sessionPlan, List.map_flatMap]
  simp only [List.map_map, Function.comp_def]

theorem mem_sessionPlan {modes : List CacheMode} {V : Variant} {mode : CacheMode} :
    (V, mode) ∈ sessionPlan modes ↔ mode ∈ modes ∧ V ∈ runVariants := by
  simp [sessionPlan]

theorem sessionPlan_nodup {modes : List CacheMode} (h : modes.Nodup) : (sessionPlan modes).Nodup := by
  refine List.nodup_flatMap.mpr ⟨fun mode _ => ?_, ?_⟩
  · exact runVariants_nodup.map fun V W h => congrArg Prod.fst h
  · refine h.imp fun {m m'} hne => ?_
    intro x hx hx'
    obtain ⟨V, -, rfl⟩ := List.mem_map.mp hx
    obtain ⟨W, -, heq⟩ := List.mem_map.mp hx'
    exact hne (congrArg Prod.snd heq).symm

theorem find?_flatMap_of_tag {α β : Type*} {f : α → List β} {p : β → Bool} {x₀ : α} {xs : List α}
    (hx : x₀ ∈ xs) (h : ∀ x, ∀ y ∈ f x, p y = true → x = x₀) :
    (xs.flatMap f).find? p = (f x₀).find? p := by
  have hother : ∀ x, x ≠ x₀ → (f x).find? p = none := fun x hne =>
    List.find?_eq_none.mpr fun y hy hp => hne (h x y hy hp)
  induction xs with
  | nil => exact absurd hx List.not_mem_nil
  | cons x xs ih =>
    rw [List.flatMap_cons, List.find?_append]
    by_cases heq : x = x₀
    · subst heq
      rcases hfind : (f x).find? p with - | y
      · rw [Option.none_or]
        by_cases hmem : x ∈ xs
        · rw [ih hmem, hfind]
        · refine List.find?_eq_none.mpr fun y hy hp => ?_
          obtain ⟨z, hz, hyz⟩ := List.mem_flatMap.mp hy
          exact hmem (h z y hyz hp ▸ hz)
      · rw [Option.some_or]
    · rw [hother x heq, Option.none_or, ih ((List.mem_cons.mp hx).resolve_left fun he => heq he.symm)]

section Rows

variable {K : Type*} {modes : List CacheMode} {st : Variant → CacheMode → Stats K} {mode : CacheMode}

/-- A search for a row of a mode ends at the variant it is told by. -/
theorem find?_rowsWith (hmode : mode ∈ modes) {p : Row K → Bool} {q : Variant → Bool} {V : Variant}
    (hp : ∀ U m, p (U.row m (st U m)) = (m == mode && q U)) (hq : runVariants.find? q = some V) :
    (rowsWith modes st).find? p = some (V.row mode (st V mode)) := by
  have htag : ∀ m, ∀ r ∈ runVariants.map fun U => U.row m (st U m), p r = true → m = mode := by
    intro m r hr hpr
    obtain ⟨U, -, rfl⟩ := List.mem_map.mp hr
    rw [hp, Bool.and_eq_true, beq_iff_eq] at hpr
    exact hpr.1
  have hself : (p ∘ fun U => U.row mode (st U mode)) = q := funext fun U => by
    rw [Function.comp_apply, hp]
    simp
  rw [rowsWith, find?_flatMap_of_tag hmode htag, List.find?_map, hself, hq, Option.map_some]

theorem namedBaseline_rowsWith (hmode : mode ∈ modes) {name : Text} {V : Variant}
    (hfind : runVariants.find? (fun U => U.group == "baseline".toList && U.name == name) = some V) :
    namedBaseline (rowsWith modes st) mode name = some (st V mode) := by
  rw [namedBaseline, find?_rowsWith hmode (fun U m => ?_) hfind]
  · rfl
  · simp only [Variant.row, Bool.and_assoc, Bool.and_left_comm]

section Compared

variable (hmode : mode ∈ modes) {V : Variant} (hV : V ∈ runVariants)
include hmode hV

theorem objBaseline_rowsWith (htouch : V.touchesReceiver = true) :
    objBaseline (rowsWith modes st) mode V.arity V.hier.name = some (st V.reach mode) := by
  rw [objBaseline, find?_rowsWith hmode (fun U m => ?_) (find?_reach V hV htouch).2]
  · rfl
  · simp only [Variant.row, Bool.and_assoc, Bool.and_left_comm]

theorem yardstick_rowsWith (hdispatch : V.isDispatch = true) :
    yardstick (rowsWith modes st) (V.row mode (st V mode)) =
      some (V.virtualCall.row mode (st V.virtualCall mode)) := by
  refine find?_rowsWith hmode (fun U m => ?_) (find?_virtualCall V hV hdispatch).2
  simp only [Variant.row, Bool.and_assoc, Bool.and_left_comm]

end Compared

section Figures

variable [Field K] [LinearOrder K] (sqrt : K → K)

/-- A cost over the virtual call's, where that is one. -/
def quotient (cost base : K) : K := if 0 < base then cost / base else 0

/-- The figures of a variant, by the rows of its mode: the call less the empty window, the call
less reaching its receivers, and both over those of the virtual call. -/
def figuresOf (st : Variant → Stats K) (V : Variant) : Figures K :=
  let net := fun U : Variant => differ sqrt (st U) (st .probe)
  let disp := fun U : Variant => differ sqrt (st U) (st U.reach)
  { net := (net V).1
    netSe := (net V).2
    disp := (disp V).1
    dispSe := (disp V).2
    xNet := if V.isDispatch then quotient (net V).1 (net V.virtualCall).1 else 0
    xDisp := if V.isDispatch then quotient (disp V).1 (disp V.virtualCall).1 else 0 }

variable (hmode : mode ∈ modes) {V : Variant} (hV : V ∈ runVariants)
include hmode

omit [LinearOrder K] in
theorem netOf_rowsWith : netOf sqrt (rowsWith modes st) (V.row mode (st V mode)) =
    differ sqrt (st V mode) (st .probe mode) := by
  have hprobe : baseline (rowsWith modes st) (V.row mode (st V mode)).mode = some (st .probe mode) :=
    namedBaseline_rowsWith hmode find?_probe
  rw [netOf, hprobe]
  rfl

include hV

omit [LinearOrder K] in
theorem dispOf_rowsWith : dispOf sqrt (rowsWith modes st) (V.row mode (st V mode)) =
    differ sqrt (st V mode) (st V.reach mode) := by
  cases htouch : V.touchesReceiver with
  | false =>
    have hdirect : namedBaseline (rowsWith modes st) (V.row mode (st V mode)).mode "direct".toList =
        some (st .direct mode) := namedBaseline_rowsWith hmode find?_direct
    have hreach : V.reach = .direct := by rw [Variant.reach, htouch]; rfl
    have hrow : (V.row mode (st V mode)).touchesReceiver = false := htouch
    rw [dispOf, hrow, hdirect, hreach]
    rfl
  | true =>
    have hobj : objBaseline (rowsWith modes st) (V.row mode (st V mode)).mode
        (V.row mode (st V mode)).arity (V.row mode (st V mode)).hier = some (st V.reach mode) :=
      objBaseline_rowsWith hmode hV htouch
    have hrow : (V.row mode (st V mode)).touchesReceiver = true := htouch
    have harity : ((V.row mode (st V mode)).arity == 0) = false := by
      rw [beq_eq_false_iff_ne]
      exact Int.ofNat_ne_zero.mpr (find?_reach V hV htouch).1
    rw [dispOf, hrow, hobj]
    simp only [harity, Bool.not_true, Bool.false_eq_true, if_false]
    rfl

theorem ratioOf_rowsWith (useDisp : Bool) :
    ratioOf sqrt (rowsWith modes st) (V.row mode (st V mode)) useDisp =
      if V.isDispatch then
        quotient
          (if useDisp then (differ sqrt (st V mode) (st V.reach mode)).1
            else (differ sqrt (st V mode) (st .probe mode)).1)
          (if useDisp then (differ sqrt (st V.virtualCall mode) (st V.virtualCall.reach mode)).1
            else (differ sqrt (st V.virtualCall mode) (st .probe mode)).1)
      else 0 := by
  cases hdispatch : V.isDispatch with
  | false =>
    have hbaseline : (V.group == "baseline".toList) = true := by
      simpa [Variant.isDispatch] using hdispatch
    have hgroup : ((V.row mode (st V mode)).group == "baseline".toList) = true := hbaseline
    rw [ratioOf, hgroup, Bool.or_true]
    rfl
  | true =>
    have hbaseline : (V.group == "baseline".toList) = false := by
      simpa [Variant.isDispatch] using hdispatch
    have hgroup : ((V.row mode (st V mode)).group == "baseline".toList) = false := hbaseline
    have harity : ((V.row mode (st V mode)).arity == 0) = false := by
      rw [beq_eq_false_iff_ne]
      exact Int.ofNat_ne_zero.mpr (find?_virtualCall V hV hdispatch).1
    have hcall : V.virtualCall ∈ runVariants := List.mem_of_find?_eq_some (find?_virtualCall V hV hdispatch).2
    rw [ratioOf, hgroup, harity, yardstick_rowsWith hmode hV hdispatch]
    simp only [dispOf_rowsWith sqrt hmode hV, dispOf_rowsWith sqrt hmode hcall,
      netOf_rowsWith sqrt hmode, Bool.or_false, Bool.false_eq_true, if_false, if_true, quotient]

theorem figures_rowsWith : figures sqrt (rowsWith modes st) (V.row mode (st V mode)) =
    figuresOf sqrt (fun U => st U mode) V := by
  simp only [figures, figuresOf, netOf_rowsWith sqrt hmode, dispOf_rowsWith sqrt hmode hV,
    ratioOf_rowsWith sqrt hmode hV, Bool.false_eq_true, if_false, if_true]

end Figures

end Rows

/-! ## A session -/

theorem summarize_exists {D : Type} (d : Doubles D) (w : ℕ) (samples : List ℕ) :
    ∃ s, summarize d w samples = some s := by
  rw [summarize]
  split_ifs with hempty
  · exact ⟨_, rfl⟩
  have hpos : 0 < (sorted samples).length := by
    rw [sorted, List.length_mergeSort]
    exact List.length_pos_of_ne_nil (by simpa using hempty)
  have hmedian : medianIndex (sorted samples).length < (sorted samples).length := Nat.div_lt_self hpos Nat.one_lt_two
  have hp90 : p90Index w (sorted samples).length < (sorted samples).length := by
    have hmod := Nat.mod_le ((sorted samples).length * 90) (2 ^ w)
    rw [p90Index]
    omega
  simp only [List.getElem?_eq_getElem hpos, List.getElem?_eq_getElem hmedian,
    List.getElem?_eq_getElem hp90]
  exact ⟨_, rfl⟩

section Session

variable {S H : Type} {n : ℕ} [NeZero n] {Φ : VirtualPtr (Fin n)} (g : Rng S) (rig : Rig Φ H)

theorem session_plan (cfg : Config) (plan : List (Variant × CacheMode)) (e : Stand S n Φ) (h : H) :
    (session g rig cfg plan e h).map (fun rec => (rec.variant, rec.mode)) = plan := by
  induction plan generalizing e h with
  | nil => rfl
  | cons Vm plan ih =>
    obtain ⟨V, mode⟩ := Vm
    rw [session, List.map_cons, ih]

/-- What each of some distinct things has come to, as a function of the thing. -/
theorem exists_choice {α β γ : Type*} [DecidableEq α] {F : α → β → γ} {xs : List α} {ys : List γ}
    (hxs : xs.Nodup) (h : List.Forall₂ (fun x y => ∃ b, y = F x b) xs ys) (b₀ : α → β) :
    ∃ f : α → β, ys = xs.map fun x => F x (f x) := by
  induction h with
  | nil => exact ⟨b₀, rfl⟩
  | @cons x y xs ys hxy _ ih =>
    obtain ⟨hx, hxs⟩ := List.nodup_cons.mp hxs
    obtain ⟨f, hf⟩ := ih hxs
    obtain ⟨b, rfl⟩ := hxy
    refine ⟨Function.update f x b, ?_⟩
    rw [List.map_cons, Function.update_self, hf]
    congr 1
    refine List.map_congr_left fun z hz => ?_
    have hne : z ≠ x := fun hzx => hx (hzx ▸ hz)
    rw [Function.update_of_ne hne]

theorem modes_nodup (cfg : Config) : cfg.modes.Nodup := by
  rw [Config.modes]
  cases cfg.warm <;> cases cfg.clflush <;> cases cfg.sweep <;> decide

variable {K : Type} (d : Doubles K) (w : ℕ)

/-- A session gets to its end, and its rows are those of its plan. -/
theorem sessionRows_spec (cfg : Config) (e : Stand S n Φ) (h : H) :
    ∃ st, sessionRows d w g rig cfg e h = some (rowsWith cfg.modes st) ∧
      ∀ rec ∈ session g rig cfg (sessionPlan cfg.modes) e h,
        (summarize d w (rec.reps.map Rep.cycles)).map Summary.toStats =
          some (st rec.variant rec.mode) := by
  have hsummary : ∀ rec : RunRecord Φ, ∃ s, summarize d w (rec.reps.map Rep.cycles) = some s :=
    fun rec => summarize_exists d w _
  choose stat hstat using hsummary
  have hrow : RunRecord.row d w =
      fun rec : RunRecord Φ => some (rec.variant.row rec.mode (stat rec).toStats) :=
    funext fun rec => by rw [RunRecord.row, hstat, Option.map_some]
  have hplan := session_plan g rig cfg (sessionPlan cfg.modes) e h
  have hfrom : List.Forall₂ (fun Vm r => ∃ st, r = Variant.row Vm.1 Vm.2 st) (sessionPlan cfg.modes)
      ((session g rig cfg (sessionPlan cfg.modes) e h).map fun rec =>
        rec.variant.row rec.mode (stat rec).toStats) := by
    rw [← hplan, List.forall₂_map_left_iff, List.forall₂_map_right_iff, hplan]
    exact List.forall₂_same.mpr fun rec _ => ⟨_, rfl⟩
  obtain ⟨f, hf⟩ := exists_choice (sessionPlan_nodup (modes_nodup cfg)) hfrom fun _ =>
    ⟨0, 0, 0, d.ofNat 0, d.ofNat 0, d.ofNat 0⟩
  refine ⟨fun V mode => f (V, mode), ?_, fun rec hrec => ?_⟩
  · rw [sessionRows, hrow]
    refine (List.mapM_pure).trans ?_
    rw [hf, rowsWith_eq_map]
    rfl
  · have heach := hf.trans (congrArg (List.map fun Vm => Variant.row Vm.1 Vm.2 (f Vm)) hplan.symm)
    rw [List.map_map] at heach
    have hsame := congrArg Row.st (List.map_inj_left.mp heach rec hrec)
    rw [hstat, Option.map_some]
    exact congrArg some hsame

end Session

/-- Every figure of every row of a session is a difference from the rows of its own mode that the
row is meant to be compared with, and a quotient by the virtual call of its own mode, hierarchy,
arity and body; no row falls back on what `report` does where one is missing. -/
theorem session_figures {K S H : Type} [Field K] [LinearOrder K] (sqrt : K → K) (w : ℕ) {n : ℕ}
    [NeZero n] {Φ : VirtualPtr (Fin n)} (g : Rng S) (rig : Rig Φ H) (cfg : Config)
    (e : Stand S n Φ) (h : H) :
    ∃ rows st, sessionRows (exact sqrt) w g rig cfg e h = some rows ∧
      rows = rowsWith cfg.modes st ∧
      (∀ rec ∈ session g rig cfg (sessionPlan cfg.modes) e h,
        (summarize (exact sqrt) w (rec.reps.map Rep.cycles)).map Summary.toStats =
          some (st rec.variant rec.mode)) ∧
      ∀ mode ∈ cfg.modes, ∀ V ∈ runVariants,
        figures sqrt rows (V.row mode (st V mode)) = figuresOf sqrt (fun U => st U mode) V := by
  obtain ⟨st, hrows, hst⟩ := sessionRows_spec g rig (exact sqrt) w cfg e h
  exact ⟨_, st, hrows, rfl, hst, fun mode hmode V hV => figures_rowsWith sqrt hmode hV⟩

theorem session_figures_three :
    let cfg : Config := { reps := 2, objects := 3 }
    let e := Stand.build countingRng cfg (plainPtr (Fin 3))
    ∃ rows st, sessionRows (exact Rat.sqrt) 64 countingRng (countingRig 3) cfg e 0 = some rows ∧
      rows = rowsWith cfg.modes st ∧
      (∀ rec ∈ session countingRng (countingRig 3) cfg (sessionPlan cfg.modes) e 0,
        (summarize (exact Rat.sqrt) 64 (rec.reps.map Rep.cycles)).map Summary.toStats =
          some (st rec.variant rec.mode)) ∧
      ∀ mode ∈ cfg.modes, ∀ V ∈ runVariants,
        figures Rat.sqrt rows (V.row mode (st V mode)) =
          figuresOf Rat.sqrt (fun U => st U mode) V := by
  intro cfg e
  have hcfg : NeZero 3 := ⟨by decide⟩
  exact session_figures Rat.sqrt 64 countingRng (countingRig 3) cfg e 0

end OMB
