import Mathlib.Analysis.Real.Sqrt
import Mathlib.Tactic.Linarith
import OpenMethodBench.Spec.Report

/-! A slower clock or a costlier apparatus in one cache mode changes no ratio, and
scales the differences of that mode alone. -/

namespace OMB

/-! ## Rescaled rows -/

def Stats.rescale (a k : ℝ) (x : Stats ℝ) : Stats ℝ :=
  { x with mean := a * x.mean + k, se := a * x.se }

/-- The row as measured with scale `a` and offset `k` in its mode. -/
def Row.rescale (a k : CacheMode → ℝ) (r : Row ℝ) : Row ℝ :=
  { r with st := r.st.rescale (a r.mode) (k r.mode) }

/-- Figures in units `a` times smaller. -/
def Figures.scale (a : ℝ) (f : Figures ℝ) : Figures ℝ :=
  { f with net := a * f.net, netSe := a * f.netSe, disp := a * f.disp, dispSe := a * f.dispSe }

/-! ## Lookups stay in their mode -/

theorem namedBaseline_in_mode {r : Row ℝ} {m : CacheMode} {name : Text}
    (h : (r.group == "baseline".toList && r.mode == m && r.name == name) = true) : r.mode = m := by
  simp only [Bool.and_eq_true, beq_iff_eq] at h
  exact h.1.2

theorem objBaseline_in_mode {r : Row ℝ} {m : CacheMode} {arity : ℤ} {hier : Text}
    (h : (r.group == "baseline".toList && r.mode == m && r.arity == arity && r.hier == hier) =
      true) : r.mode = m := by
  simp only [Bool.and_eq_true, beq_iff_eq] at h
  exact h.1.1.2

theorem yardstick_in_mode {r y : Row ℝ} (h : (y.group == "yardstick".toList && y.mode == r.mode &&
    y.arity == r.arity && y.hier == r.hier && y.body == r.body) = true) : y.mode = r.mode := by
  simp only [Bool.and_eq_true, beq_iff_eq] at h
  exact h.1.1.1.2

theorem mode_of_yardstick {rows : List (Row ℝ)} {r y : Row ℝ} (h : yardstick rows r = some y) :
    y.mode = r.mode := by
  have hfound := List.find?_some h
  exact yardstick_in_mode hfound

/-! ## Rescaling -/

noncomputable section

section Rescale

variable (a k : CacheMode → ℝ) (ha : ∀ m, 0 < a m) (rows : List (Row ℝ))

/-- A lookup that does not read the statistics finds the same row. -/
theorem find?_rescale {p : Row ℝ → Bool} (hp : ∀ r, p (r.rescale a k) = p r) :
    (rows.map (Row.rescale a k)).find? p = (rows.find? p).map (Row.rescale a k) := by
  rw [List.find?_map]
  congr 2
  exact funext hp

theorem map_st_rescale {p : Row ℝ → Bool} (hp : ∀ r, p (r.rescale a k) = p r)
    {m : CacheMode} (hmode : ∀ r, p r = true → r.mode = m) :
    ((rows.map (Row.rescale a k)).find? p).map (·.st) =
      ((rows.find? p).map (·.st)).map (Stats.rescale (a m) (k m)) := by
  rw [find?_rescale a k rows hp]
  rcases h : rows.find? p with - | r
  · rfl
  · obtain rfl := hmode r (List.find?_some h)
    rfl

theorem namedBaseline_rescale (m : CacheMode) (name : Text) :
    namedBaseline (rows.map (Row.rescale a k)) m name =
      (namedBaseline rows m name).map (Stats.rescale (a m) (k m)) :=
  map_st_rescale a k rows (fun _ => rfl) fun _ => namedBaseline_in_mode

theorem objBaseline_rescale (m : CacheMode) (arity : ℤ) (hier : Text) :
    objBaseline (rows.map (Row.rescale a k)) m arity hier =
      (objBaseline rows m arity hier).map (Stats.rescale (a m) (k m)) :=
  map_st_rescale a k rows (fun _ => rfl) fun _ => objBaseline_in_mode

theorem yardstick_rescale (r : Row ℝ) :
    yardstick (rows.map (Row.rescale a k)) (r.rescale a k) =
      (yardstick rows r).map (Row.rescale a k) :=
  find?_rescale a k rows fun _ => rfl

include ha

/-- Offsets cancel in a difference, and the uncertainty scales with it. -/
theorem differ_rescale (m : CacheMode) (x y : Stats ℝ) :
    differ Real.sqrt (x.rescale (a m) (k m)) (y.rescale (a m) (k m)) =
      (a m * (differ Real.sqrt x y).1, a m * (differ Real.sqrt x y).2) := by
  have hsquares : a m * x.se * (a m * x.se) + a m * y.se * (a m * y.se) =
      a m * a m * (x.se * x.se + y.se * y.se) := by ring
  have hsqrt : Real.sqrt (a m * a m * (x.se * x.se + y.se * y.se)) =
      a m * Real.sqrt (x.se * x.se + y.se * y.se) := by
    rw [Real.sqrt_mul (mul_self_nonneg (a m)), Real.sqrt_mul_self (ha m).le]
  simp only [differ, Stats.rescale, hsquares, hsqrt, Prod.mk.injEq, and_true]
  ring

theorem netOf_rescale (r : Row ℝ) (hprobe : baseline rows r.mode ≠ none) :
    netOf Real.sqrt (rows.map (Row.rescale a k)) (r.rescale a k) =
      (a r.mode * (netOf Real.sqrt rows r).1, a r.mode * (netOf Real.sqrt rows r).2) := by
  obtain ⟨b, hb⟩ := Option.ne_none_iff_exists'.mp hprobe
  have hb' : baseline (rows.map (Row.rescale a k)) r.mode =
      some (b.rescale (a r.mode) (k r.mode)) := by
    rw [baseline, namedBaseline_rescale, ← baseline, hb]
    rfl
  have hmode : (r.rescale a k).mode = r.mode := rfl
  rw [netOf, netOf, hmode, hb, hb']
  exact differ_rescale a k ha r.mode r.st b

theorem dispOf_rescale (r : Row ℝ) (hprobe : baseline rows r.mode ≠ none) :
    dispOf Real.sqrt (rows.map (Row.rescale a k)) (r.rescale a k) =
      (a r.mode * (dispOf Real.sqrt rows r).1, a r.mode * (dispOf Real.sqrt rows r).2) := by
  have hfields : (r.rescale a k).mode = r.mode ∧ (r.rescale a k).arity = r.arity ∧
      (r.rescale a k).hier = r.hier ∧ (r.rescale a k).touchesReceiver = r.touchesReceiver :=
    ⟨rfl, rfl, rfl, rfl⟩
  obtain ⟨hmode, harity, hhier, htouch⟩ := hfields
  rw [dispOf, dispOf, hmode, harity, hhier, htouch, namedBaseline_rescale, objBaseline_rescale]
  by_cases ht : r.touchesReceiver = true
  · simp only [ht, Bool.not_true, Bool.false_eq_true, if_false]
    rcases objBaseline rows r.mode r.arity r.hier with - | b
    · simp
    · simp only [Option.map_some]
      split_ifs
      · simp
      · exact differ_rescale a k ha r.mode r.st b
  · simp only [ht, Bool.not_false, if_true]
    rcases namedBaseline rows r.mode "direct".toList with - | d
    · exact netOf_rescale a k ha rows r hprobe
    · exact differ_rescale a k ha r.mode r.st d

theorem ratioOf_rescale (r : Row ℝ) (hprobe : baseline rows r.mode ≠ none) (useDisp : Bool) :
    ratioOf Real.sqrt (rows.map (Row.rescale a k)) (r.rescale a k) useDisp =
      ratioOf Real.sqrt rows r useDisp := by
  have hfields : (r.rescale a k).arity = r.arity ∧ (r.rescale a k).group = r.group := ⟨rfl, rfl⟩
  rw [ratioOf, ratioOf, hfields.1, hfields.2, yardstick_rescale]
  rcases hy : yardstick rows r with - | y
  · rfl
  · -- the yardstick is of the row's mode, so both lengths carry the same scale
    have hmode : y.mode = r.mode := mode_of_yardstick hy
    have hprobe' : baseline rows y.mode ≠ none := by rwa [hmode]
    have hguard : ∀ x : ℝ, 0 < a r.mode * x ↔ 0 < x := fun x => mul_pos_iff_of_pos_left (ha r.mode)
    have hcancel : ∀ x z : ℝ, a r.mode * x / (a r.mode * z) = x / z := fun x z =>
      mul_div_mul_left x z (ha r.mode).ne'
    simp only [Option.map_some, netOf_rescale a k ha rows y hprobe',
      dispOf_rescale a k ha rows y hprobe', netOf_rescale a k ha rows r hprobe,
      dispOf_rescale a k ha rows r hprobe, hmode]
    cases useDisp <;> simp only [Bool.false_eq_true, if_true, if_false, hguard, hcancel]

theorem figures_rescale (r : Row ℝ) (hprobe : baseline rows r.mode ≠ none) :
    figures Real.sqrt (rows.map (Row.rescale a k)) (r.rescale a k) =
      (figures Real.sqrt rows r).scale (a r.mode) := by
  simp only [figures, Figures.scale, netOf_rescale a k ha rows r hprobe,
    dispOf_rescale a k ha rows r hprobe, ratioOf_rescale a k ha rows r hprobe]

end Rescale

/-! ## Rows of one mode -/

section OneMode

variable (rows : List (Row ℝ)) (m : CacheMode)

/-- A lookup for rows of mode `m` does not see the others. -/
theorem find?_mode {p : Row ℝ → Bool} (hmode : ∀ r, p r = true → r.mode = m) :
    (rows.filter fun r => r.mode == m).find? p = rows.find? p := by
  rw [List.find?_filter]
  congr 1
  funext r
  by_cases hp : p r = true
  · simp [hp, hmode r hp]
  · simp [hp]

theorem namedBaseline_mode (name : Text) :
    namedBaseline (rows.filter fun r => r.mode == m) m name = namedBaseline rows m name := by
  rw [namedBaseline, find?_mode, ← namedBaseline]
  exact fun _ => namedBaseline_in_mode

theorem objBaseline_mode (arity : ℤ) (hier : Text) :
    objBaseline (rows.filter fun r => r.mode == m) m arity hier = objBaseline rows m arity hier := by
  rw [objBaseline, find?_mode, ← objBaseline]
  exact fun _ => objBaseline_in_mode

theorem yardstick_mode {r : Row ℝ} (hr : r.mode = m) :
    yardstick (rows.filter fun r => r.mode == m) r = yardstick rows r :=
  find?_mode rows m fun _ hy => (yardstick_in_mode hy).trans hr

theorem netOf_mode {r : Row ℝ} (hr : r.mode = m) :
    netOf Real.sqrt (rows.filter fun r => r.mode == m) r = netOf Real.sqrt rows r := by
  rw [netOf, netOf, hr, baseline, baseline, namedBaseline_mode]

theorem dispOf_mode {r : Row ℝ} (hr : r.mode = m) :
    dispOf Real.sqrt (rows.filter fun r => r.mode == m) r = dispOf Real.sqrt rows r := by
  rw [dispOf, dispOf, netOf_mode rows m hr, hr, namedBaseline_mode, objBaseline_mode]

theorem ratioOf_mode {r : Row ℝ} (hr : r.mode = m) (useDisp : Bool) :
    ratioOf Real.sqrt (rows.filter fun r => r.mode == m) r useDisp =
      ratioOf Real.sqrt rows r useDisp := by
  rw [ratioOf, ratioOf, yardstick_mode rows m hr]
  rcases hy : yardstick rows r with - | y
  · rfl
  · have hmode : y.mode = m := (mode_of_yardstick hy).trans hr
    simp only [netOf_mode rows m hmode, netOf_mode rows m hr, dispOf_mode rows m hmode,
      dispOf_mode rows m hr]

theorem figures_mode {r : Row ℝ} (hr : r.mode = m) :
    figures Real.sqrt (rows.filter fun r => r.mode == m) r = figures Real.sqrt rows r := by
  simp only [figures, netOf_mode rows m hr, dispOf_mode rows m hr, ratioOf_mode rows m hr]

end OneMode

/-- Every mode that was measured has its empty window. -/
def HasProbes (rows : List (Row ℝ)) : Prop :=
  ∀ r ∈ rows, ∃ b ∈ rows, b.group = "baseline".toList ∧ b.mode = r.mode ∧ b.name = "probe".toList

theorem HasProbes.baseline_ne_none {rows : List (Row ℝ)} (h : HasProbes rows) {r : Row ℝ}
    (hr : r ∈ rows) : baseline rows r.mode ≠ none := by
  obtain ⟨b, hb, hgroup, hmode, hname⟩ := h r hr
  intro hnone
  rw [baseline, namedBaseline, Option.map_eq_none_iff, List.find?_eq_none] at hnone
  exact hnone b hb (by simp [hgroup, hmode, hname])

/-- Rescaling each mode scales its differences and leaves every ratio, and no figure
depends on the rows of another mode. -/
theorem report_affine (rows : List (Row ℝ)) (hprobes : HasProbes rows)
    (a k : CacheMode → ℝ) (ha : ∀ m, 0 < a m) :
    (∀ r ∈ rows, figures Real.sqrt (rows.map (Row.rescale a k)) (r.rescale a k) =
        (figures Real.sqrt rows r).scale (a r.mode)) ∧
      ∀ m, ∀ r ∈ rows, r.mode = m →
        figures Real.sqrt (rows.filter fun r => r.mode == m) r = figures Real.sqrt rows r :=
  ⟨fun r hr => figures_rescale a k ha rows r (hprobes.baseline_ne_none hr),
    fun m _ _ hmode => figures_mode rows m hmode⟩

/-- A const-body row of the main hierarchy, measured in flushed caches. -/
def flushedRow (name group : String) (arity : ℤ) (mean : ℝ) : Row ℝ where
  name := name.toList
  group := group.toList
  hier := "main".toList
  arity := arity
  touchesReceiver := true
  body := "const".toList
  mode := .clflush
  st := { min := 0, median := 0, p90 := 0, mean := mean, stddev := 1, se := 1 }

/-- Half the clock and five cycles more of apparatus leave the yardstick's figures. -/
theorem report_affine_half_clock :
    let rows := [flushedRow "probe" "baseline" 0 20, flushedRow "vf" "yardstick" 1 120]
    figures Real.sqrt (rows.map (Row.rescale (fun _ => 2) (fun _ => 5)))
        ((flushedRow "vf" "yardstick" 1 120).rescale (fun _ => 2) (fun _ => 5)) =
      (figures Real.sqrt rows (flushedRow "vf" "yardstick" 1 120)).scale 2 := by
  intro rows
  have hprobes : HasProbes rows := by
    intro r hr
    refine ⟨flushedRow "probe" "baseline" 0 20, List.mem_cons_self, rfl, ?_, rfl⟩
    rcases List.mem_cons.mp hr with rfl | hr
    · rfl
    · rw [List.mem_singleton.mp hr]
      rfl
  exact (report_affine rows hprobes (fun _ => 2) (fun _ => 5) (by norm_num)).1 _ (by simp [rows])

end

end OMB
