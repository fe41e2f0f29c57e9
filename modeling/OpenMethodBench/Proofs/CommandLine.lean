import Mathlib
import OpenMethodBench.Spec.CommandLine

/-! What the command line sets: the arguments as a list of options and values, and when
what `parse` accepts is what they say. -/

namespace OMB

open Strto

/-! ## The arguments, as the usage line has them -/

/-- The options whose value is a `size_t`. -/
inductive Sized | reps | objects | sweepMb
  deriving DecidableEq, Repr

namespace Sized

def option : Sized → Text
  | reps => "--reps".toList
  | objects => "--objects".toList
  | sweepMb => "--sweep-mb".toList

def get : Sized → Config → ℕ
  | reps => Config.reps
  | objects => Config.objects
  | sweepMb => Config.sweepMb

end Sized

def valueOptions : List Text :=
  ["--reps", "--objects", "--sweep-mb", "--cpu", "--seed", "--mode"].map String.toList

def switches : List Text := ["--csv", "--verify"].map String.toList

def modes : List Text := ["warm", "clflush", "sweep", "all"].map String.toList

/-- May the option have this value? -/
def mayTake (arg v : Text) : Bool := arg != "--mode".toList || modes.contains v

/-- Known options, each with its value. -/
def wellFormed : List Text → Bool
  | [] => true
  | [arg] => switches.contains arg
  | arg :: v :: rest =>
    if valueOptions.contains arg then mayTake arg v && wellFormed rest
    else switches.contains arg && wellFormed (v :: rest)

/-- The last value given for an option. -/
def lastGiven (name : Text) : List Text → Option Text
  | [] => none
  | [_] => none
  | arg :: v :: rest =>
    if valueOptions.contains arg then
      lastGiven name rest <|> if arg = name then some v else none
    else lastGiven name (v :: rest)

/-- Is a cache mode on? -/
def Config.anyMode (cfg : Config) : Bool := cfg.warm || cfg.clflush || cfg.sweep

/-! ## One argument -/

section Request

variable {w : ℕ}

/-- What an option with its value leaves of the configuration. -/
structure Sets (w : ℕ) (arg v : Text) (cfg cfg' : Config) : Prop where
  sized : ∀ o : Sized, o.get cfg' = if arg = o.option then toSize w v else o.get cfg
  cpu : cfg'.cpu = if arg = "--cpu".toList then atoi w v else cfg.cpu
  mode : cfg.anyMode = true → cfg'.anyMode = true

theorem setMode_spec (m : Text) (cfg : Config) :
    if modes.contains m then
      ∃ cfg', setMode m cfg = .ok cfg' ∧ Sets w "--mode".toList m cfg cfg'
    else ∃ e, setMode m cfg = .error e := by
  unfold setMode
  have hsized : ∀ cfg' : Config, cfg'.reps = cfg.reps → cfg'.objects = cfg.objects →
      cfg'.sweepMb = cfg.sweepMb → cfg'.cpu = cfg.cpu → cfg'.anyMode = true →
        Sets w "--mode".toList m cfg cfg' := by
    intro cfg' hreps hobjects hsweep hcpu hmode
    refine ⟨fun o => ?_, by rw [if_neg (by decide), hcpu], fun _ => hmode⟩
    cases o with
    | reps => rw [if_neg (by decide)]; exact hreps
    | objects => rw [if_neg (by decide)]; exact hobjects
    | sweepMb => rw [if_neg (by decide)]; exact hsweep
  by_cases hmodes : modes.contains m = true
  · rw [if_pos hmodes]
    have hm : m = "warm".toList ∨ m = "clflush".toList ∨ m = "sweep".toList ∨ m = "all".toList := by
      simpa [modes] using hmodes
    rcases hm with rfl | rfl | rfl | rfl
    · exact ⟨_, rfl, hsized _ rfl rfl rfl rfl rfl⟩
    · exact ⟨_, rfl, hsized _ rfl rfl rfl rfl rfl⟩
    · exact ⟨_, rfl, hsized _ rfl rfl rfl rfl rfl⟩
    · exact ⟨_, rfl, hsized _ rfl rfl rfl rfl rfl⟩
  · rw [if_neg hmodes]
    simp only [modes, List.map_cons, List.map_nil, List.contains_cons, List.contains_nil,
      Bool.or_false, Bool.not_eq_true, Bool.or_eq_false_iff] at hmodes
    obtain ⟨hwarm, hflush, hsweep, hall⟩ := hmodes
    simp only [hwarm, hflush, hsweep, hall, Bool.false_eq_true, if_false]
    exact ⟨_, rfl⟩

/-- An option with a value. -/
theorem request_value {arg : Text} (h : valueOptions.contains arg = true) :
    ∃ set, request w arg = .value set ∧ ∀ v cfg,
      if mayTake arg v then ∃ cfg', set v cfg = .ok cfg' ∧ Sets w arg v cfg cfg'
      else ∃ e, set v cfg = .error e := by
  have harg : arg = "--reps".toList ∨ arg = "--objects".toList ∨ arg = "--sweep-mb".toList ∨
      arg = "--cpu".toList ∨ arg = "--seed".toList ∨ arg = "--mode".toList := by
    simpa [valueOptions] using h
  rcases harg with rfl | rfl | rfl | rfl | rfl | rfl
  · refine ⟨_, rfl, fun v cfg => ⟨_, rfl, fun o => ?_, rfl, id⟩⟩
    cases o <;> rfl
  · refine ⟨_, rfl, fun v cfg => ⟨_, rfl, fun o => ?_, rfl, id⟩⟩
    cases o <;> rfl
  · refine ⟨_, rfl, fun v cfg => ⟨_, rfl, fun o => ?_, rfl, id⟩⟩
    cases o <;> rfl
  · refine ⟨_, rfl, fun v cfg => ⟨_, rfl, fun o => ?_, rfl, id⟩⟩
    cases o <;> rfl
  · refine ⟨_, rfl, fun v cfg => ⟨_, rfl, fun o => ?_, rfl, id⟩⟩
    cases o <;> rfl
  · refine ⟨setMode, rfl, fun v cfg => ?_⟩
    rw [show mayTake "--mode".toList v = modes.contains v from rfl]
    exact setMode_spec v cfg

/-- A switch sets none of these. -/
theorem request_switch {arg : Text} (h : switches.contains arg = true) :
    ∃ set, request w arg = .switch set ∧ ∀ cfg : Config,
      (∀ o : Sized, o.get (set cfg) = o.get cfg) ∧ (set cfg).cpu = cfg.cpu ∧
        (set cfg).anyMode = cfg.anyMode := by
  have harg : arg = "--csv".toList ∨ arg = "--verify".toList := by simpa [switches] using h
  rcases harg with rfl | rfl
  · refine ⟨_, rfl, fun cfg => ⟨fun o => ?_, rfl, rfl⟩⟩
    cases o <;> rfl
  · refine ⟨_, rfl, fun cfg => ⟨fun o => ?_, rfl, rfl⟩⟩
    cases o <;> rfl

/-- Any other argument ends the run. -/
theorem request_stop {arg : Text} (hvalue : valueOptions.contains arg = false)
    (hswitch : switches.contains arg = false) : ∃ e, request w arg = .stop e := by
  simp only [valueOptions, switches, List.map_cons, List.map_nil, List.contains_cons,
    List.contains_nil, Bool.or_false, Bool.or_eq_false_iff] at hvalue hswitch
  obtain ⟨hreps, hobjects, hsweep, hcpu, hseed, hmode⟩ := hvalue
  obtain ⟨hcsv, hverify⟩ := hswitch
  simp only [request, hreps, hobjects, hsweep, hcpu, hseed, hmode, hcsv, hverify, Bool.false_eq_true,
    if_false]
  split_ifs
  · exact ⟨_, rfl⟩
  · exact ⟨_, rfl⟩

end Request

/-! ## All of them -/

/-- What a run over well-formed arguments leaves of the configuration. -/
structure Configures (w : ℕ) (args : List Text) (cfg cfg' : Config) : Prop where
  sized : ∀ o : Sized, o.get cfg' = ((lastGiven o.option args).map (toSize w)).getD (o.get cfg)
  cpu : cfg'.cpu = ((lastGiven "--cpu".toList args).map (atoi w)).getD cfg.cpu
  mode : cfg.anyMode = true → cfg'.anyMode = true

section Loop

variable {w : ℕ} {argv : List Text}

theorem Configures.value {arg v : Text} {rest : List Text} {cfg cfg₁ cfg' : Config}
    (harg : valueOptions.contains arg = true) (hset : Sets w arg v cfg cfg₁)
    (h : Configures w rest cfg₁ cfg') : Configures w (arg :: v :: rest) cfg cfg' := by
  have hlast : ∀ name, lastGiven name (arg :: v :: rest) =
      (lastGiven name rest <|> if arg = name then some v else none) := fun name => by
    rw [lastGiven, if_pos harg]
  refine ⟨fun o => ?_, ?_, fun hmode => h.mode (hset.mode hmode)⟩
  · rw [h.sized o, hset.sized o, hlast]
    rcases lastGiven o.option rest with - | u
    · split_ifs <;> rfl
    · rfl
  · rw [h.cpu, hset.cpu, hlast]
    rcases lastGiven "--cpu".toList rest with - | u
    · split_ifs <;> rfl
    · rfl

theorem Configures.switch {arg : Text} {rest : List Text} {cfg cfg₁ cfg' : Config}
    (harg : valueOptions.contains arg = false)
    (hset : (∀ o : Sized, o.get cfg₁ = o.get cfg) ∧ cfg₁.cpu = cfg.cpu ∧ cfg₁.anyMode = cfg.anyMode)
    (h : Configures w rest cfg₁ cfg') : Configures w (arg :: rest) cfg cfg' := by
  obtain ⟨hsized, hcpu, hmode⟩ := hset
  have hlast : ∀ name, lastGiven name (arg :: rest) = lastGiven name rest := by
    intro name
    cases rest with
    | nil => rfl
    | cons v rest => rw [lastGiven, if_neg (by simp only [harg, Bool.false_eq_true, not_false_eq_true])]
  refine ⟨fun o => ?_, ?_, fun hany => h.mode (hmode ▸ hany)⟩
  · rw [h.sized o, hsized o, hlast]
  · rw [h.cpu, hcpu, hlast]

theorem drop_eq_cons {i : ℕ} {arg : Text} {rest : List Text} (h : argv.drop i = arg :: rest) :
    i < argv.length ∧ argv[i]? = some arg ∧ argv.drop (i + 1) = rest := by
  have hlt : i < argv.length := by
    by_contra hge
    rw [List.drop_eq_nil_of_le (by omega)] at h
    exact absurd h (by simp)
  refine ⟨hlt, ?_, ?_⟩
  · rw [← List.head?_drop, h]
    rfl
  · rw [← List.drop_drop, h]
    rfl

/-- How a run from the `i`-th argument ends. -/
def Ends (w : ℕ) (argv : List Text) (i : ℕ) (cfg : Config) (args : List Text) : Prop :=
  if wellFormed args then
    ∃ cfg', Configures w args cfg cfg' ∧ parseFrom w argv i cfg = some (cfg'.checked w)
  else ∃ e, parseFrom w argv i cfg = some (.error e)

theorem parseFrom_switch {i : ℕ} {cfg : Config} {arg : Text} {rest : List Text}
    (h : argv.drop i = arg :: rest) (harg : switches.contains arg = true)
    (hvalue : valueOptions.contains arg = false)
    (ih : ∀ cfg, Ends w argv (i + 1) cfg rest) : Ends w argv i cfg (arg :: rest) := by
  obtain ⟨hlt, hget, hdrop⟩ := drop_eq_cons h
  obtain ⟨set, hrequest, hset⟩ := request_switch (w := w) harg
  have hstep : parseFrom w argv i cfg = parseFrom w argv (i + 1) (set cfg) := by
    conv_lhs => rw [parseFrom]
    rw [if_pos hlt, hget, Option.bind_eq_bind, Option.bind_some, hrequest]
  have hwell : wellFormed (arg :: rest) = wellFormed rest := by
    cases rest with
    | nil => exact harg
    | cons v rest => rw [wellFormed, hvalue, harg]; rfl
  have hrest := ih (set cfg)
  unfold Ends at hrest ⊢
  rw [hwell, hstep]
  split_ifs at hrest ⊢
  · obtain ⟨cfg', hfollows, hrun⟩ := hrest
    exact ⟨cfg', hfollows.switch hvalue (hset cfg), hrun⟩
  · exact hrest

theorem parseFrom_value {i : ℕ} {cfg : Config} {arg v : Text} {rest : List Text}
    (h : argv.drop i = arg :: v :: rest) (harg : valueOptions.contains arg = true)
    (ih : ∀ cfg, Ends w argv (i + 2) cfg rest) : Ends w argv i cfg (arg :: v :: rest) := by
  obtain ⟨hlt, hget, hdrop⟩ := drop_eq_cons h
  obtain ⟨hlt', hget', -⟩ := drop_eq_cons hdrop
  obtain ⟨set, hrequest, hset⟩ := request_value (w := w) harg
  have hwell : wellFormed (arg :: v :: rest) = (mayTake arg v && wellFormed rest) := by
    rw [wellFormed, if_pos harg]
  have hlast : ¬i + 1 ≥ argv.length := by omega
  obtain ⟨hok, herror⟩ : (∀ cfg₁, set v cfg = .ok cfg₁ →
      parseFrom w argv i cfg = parseFrom w argv (i + 2) cfg₁) ∧
        ∀ e, set v cfg = .error e → parseFrom w argv i cfg = some (.error e) := by
    constructor
    all_goals
      intro r hr
      conv_lhs => rw [parseFrom]
      rw [if_pos hlt, hget, Option.bind_eq_bind, Option.bind_some, hrequest]
      dsimp only
      rw [if_neg hlast, hget', Option.bind_some, hr]
  have hspec := hset v cfg
  unfold Ends
  rw [hwell]
  cases hmay : mayTake arg v with
  | true =>
    rw [hmay, if_pos rfl] at hspec
    obtain ⟨cfg₁, heq, hsets⟩ := hspec
    have hrest := ih cfg₁
    unfold Ends at hrest
    rw [hok _ heq, Bool.true_and]
    split_ifs at hrest ⊢
    · obtain ⟨cfg', hfollows, hrun⟩ := hrest
      exact ⟨cfg', hfollows.value harg hsets, hrun⟩
    · exact hrest
  | false =>
    rw [hmay, if_neg (by decide)] at hspec
    obtain ⟨e, heq⟩ := hspec
    exact ⟨e, herror e heq⟩

theorem not_switch_of_value {arg : Text} (h : valueOptions.contains arg = true) :
    switches.contains arg = false := by
  have harg : arg = "--reps".toList ∨ arg = "--objects".toList ∨ arg = "--sweep-mb".toList ∨
      arg = "--cpu".toList ∨ arg = "--seed".toList ∨ arg = "--mode".toList := by
    simpa [valueOptions] using h
  rcases harg with rfl | rfl | rfl | rfl | rfl | rfl <;> rfl

/-- An argument that is no option. -/
theorem parseFrom_stop {i : ℕ} {cfg : Config} {arg : Text} {rest : List Text}
    (h : argv.drop i = arg :: rest) (hvalue : valueOptions.contains arg = false)
    (hswitch : switches.contains arg = false) : Ends w argv i cfg (arg :: rest) := by
  obtain ⟨hlt, hget, -⟩ := drop_eq_cons h
  obtain ⟨e, hrequest⟩ := request_stop (w := w) hvalue hswitch
  have hwell : wellFormed (arg :: rest) = false := by
    cases rest with
    | nil => rw [wellFormed, hswitch]
    | cons v rest => rw [wellFormed, hvalue, hswitch]; rfl
  unfold Ends
  rw [hwell, if_neg (by decide), parseFrom, if_pos hlt, hget, Option.bind_eq_bind, Option.bind_some,
    hrequest]
  exact ⟨e, rfl⟩

theorem parseFrom_ends (args : List Text) : ∀ (i : ℕ) (cfg : Config), argv.drop i = args →
    Ends w argv i cfg args := by
  induction args using wellFormed.induct with
  | case1 =>
    intro i cfg h
    have hend : ¬i < argv.length := by
      have := List.drop_eq_nil_iff.mp h
      omega
    refine ⟨cfg, ⟨fun o => rfl, rfl, id⟩, ?_⟩
    rw [parseFrom, if_neg hend]
  | case2 arg =>
    intro i cfg h
    obtain ⟨hlt, hget, hdrop⟩ := drop_eq_cons h
    have hlast : argv.length ≤ i + 1 := List.drop_eq_nil_iff.mp hdrop
    cases hvalue : valueOptions.contains arg with
    | true =>
      obtain ⟨set, hrequest, -⟩ := request_value (w := w) hvalue
      unfold Ends
      rw [wellFormed, not_switch_of_value hvalue, if_neg (by decide), parseFrom, if_pos hlt, hget,
        Option.bind_eq_bind, Option.bind_some, hrequest]
      dsimp only
      rw [if_pos hlast]
      exact ⟨_, rfl⟩
    | false =>
      cases hswitch : switches.contains arg with
      | true =>
        refine parseFrom_switch h hswitch hvalue fun cfg => ?_
        refine ⟨cfg, ⟨fun o => rfl, rfl, id⟩, ?_⟩
        rw [parseFrom, if_neg (by omega)]
      | false => exact parseFrom_stop h hvalue hswitch
  | case3 arg v rest hvalue ih =>
    intro i cfg h
    obtain ⟨-, -, hdrop⟩ := drop_eq_cons h
    obtain ⟨-, -, hdrop'⟩ := drop_eq_cons hdrop
    exact parseFrom_value h hvalue fun cfg => ih (i + 2) cfg hdrop'
  | case4 arg v rest hvalue ih =>
    intro i cfg h
    obtain ⟨-, -, hdrop⟩ := drop_eq_cons h
    rw [Bool.not_eq_true] at hvalue
    cases hswitch : switches.contains arg with
    | true => exact parseFrom_switch h hswitch hvalue fun cfg => ih (i + 1) cfg hdrop
    | false => exact parseFrom_stop h hvalue hswitch

end Loop

/-! ## What is accepted -/

/-- `parse` accepts what is in range, as it is. -/
theorem checked_eq_ok_iff {w : ℕ} {cfg c : Config} :
    cfg.checked w = .ok c ↔ c = cfg ∧ cfg.inRange w = true := by
  unfold Config.checked Config.inRange
  split_ifs with hcount hsweep hcpu
  · simp [hcount]
  · simp [hsweep]
  · simp [hcpu]
  · rw [Bool.not_eq_true] at hcount hsweep
    rw [hcount, hsweep, decide_eq_false hcpu]
    simp [eq_comm]

theorem inRange_iff {w : ℕ} {cfg : Config} :
    cfg.inRange w = true ↔ (∀ o : Sized, o.get cfg ≠ 0) ∧
      cfg.sweepMb ≤ (2 ^ w - 1) / (1024 * 1024) ∧ 0 ≤ cfg.cpu := by
  have hall : (∀ o : Sized, o.get cfg ≠ 0) ↔
      cfg.reps ≠ 0 ∧ cfg.objects ≠ 0 ∧ cfg.sweepMb ≠ 0 := by
    refine ⟨fun h => ⟨h .reps, h .objects, h .sweepMb⟩, fun ⟨hreps, hobjects, hsweep⟩ o => ?_⟩
    cases o with
    | reps => exact hreps
    | objects => exact hobjects
    | sweepMb => exact hsweep
  rw [hall, Config.inRange]
  simp only [Bool.and_eq_true, Bool.not_eq_true', Bool.or_eq_false_iff, beq_eq_false_iff_ne,
    decide_eq_false_iff_not, not_lt, gt_iff_lt]
  tauto

/-- The most an option may ask for: a vector of 8-byte elements, or the type itself. -/
def Sized.limit (w : ℕ) : Sized → ℕ
  | reps => vectorMax w
  | objects => vectorMax w
  | sweepMb => 2 ^ w - 1

/-- The value `parse` reads for an option. -/
def Sized.read (w : ℕ) (o : Sized) (args : List Text) : ℕ :=
  ((lastGiven o.option args).map (toSize w)).getD (o.get {})

/-- A reason to reject the arguments: they are malformed, the processor is negative, a count
reads as zero, or the sweep is too large. -/
def Refused (w : ℕ) (args : List Text) : Prop :=
  wellFormed args = false ∨ ((lastGiven "--cpu".toList args).map (atoi w)).getD 2 < 0 ∨
    (∃ o : Sized, o.read w args = 0) ∨ (2 ^ w - 1) / (1024 * 1024) < Sized.sweepMb.read w args

/-- The configuration is what the arguments say, and fits the machine. -/
structure Honoured (w : ℕ) (args : List Text) (cfg : Config) : Prop where
  absent : ∀ o : Sized, lastGiven o.option args = none → o.get cfg = o.get {}
  given : ∀ (o : Sized) (v : Text), lastGiven o.option args = some v → Denotes v (o.get cfg)
  reps_pos : 1 ≤ cfg.reps
  objects_pos : 1 ≤ cfg.objects
  sweep : cfg.sweepMb * 2 ^ 20 < 2 ^ w
  reps_fit : cfg.reps ≤ vectorMax w
  objects_fit : cfg.objects ≤ vectorMax w
  cpu : 0 ≤ cfg.cpu
  mode : cfg.anyMode = true

section Accept

variable {w : ℕ} {args : List Text} {cfg : Config}

theorem Configures.read_eq (h : Configures w args {} cfg) (o : Sized) : o.read w args = o.get cfg :=
  (h.sized o).symm

/-- Nothing speaks against the arguments: then `parse` accepts them, and only then. -/
theorem Configures.inRange_iff (h : Configures w args {} cfg) (hwell : wellFormed args = true) :
    cfg.inRange w = true ↔ ¬Refused w args := by
  have hsweep : Sized.sweepMb.read w args = cfg.sweepMb := h.read_eq .sweepMb
  have hcpu : ((lastGiven "--cpu".toList args).map (atoi w)).getD 2 = cfg.cpu := h.cpu.symm
  rw [OMB.inRange_iff, Refused, hwell, hsweep, hcpu]
  simp only [h.read_eq]
  push Not
  constructor
  · intro ⟨hpos, hle, hnonneg⟩
    exact ⟨by decide, hnonneg, hpos, hle⟩
  · intro ⟨_, hnonneg, hpos, hle⟩
    exact ⟨hpos, hle, hnonneg⟩

theorem toSize_eq {v : Text} {n : ℕ} (hw : w ≤ 64) (h : Denotes v n) (hn : n < 2 ^ w) :
    toSize w v = n := by
  have hle : 2 ^ w ≤ 2 ^ 64 := Nat.pow_le_pow_right (by decide) hw
  rw [toSize, strtoull, h.unsigned_eq (by omega), Nat.mod_eq_of_lt hn]

theorem Sized.limit_lt (hw : w = 32 ∨ w = 64) (o : Sized) : o.limit w < 2 ^ w := by
  rcases hw with rfl | rfl
  · cases o <;> decide
  · cases o <;> decide

theorem Sized.default_le_limit (hw : w = 32 ∨ w = 64) (o : Sized) : o.get {} ≤ o.limit w := by
  rcases hw with rfl | rfl
  · cases o <;> decide
  · cases o <;> decide

/-- Numerals within the limits are honoured. -/
theorem Configures.honoured (hw : w = 32 ∨ w = 64) (h : Configures w args {} cfg)
    (hrange : cfg.inRange w = true)
    (hnum : ∀ (o : Sized) (v : Text), lastGiven o.option args = some v →
      ∃ n ≤ o.limit w, Denotes v n) : Honoured w args cfg := by
  obtain ⟨hpos, hsweep, hcpu⟩ := OMB.inRange_iff.mp hrange
  have hvalue : ∀ (o : Sized) (v : Text), lastGiven o.option args = some v →
      Denotes v (o.get cfg) ∧ o.get cfg ≤ o.limit w := by
    intro o v hv
    obtain ⟨n, hn, hdenotes⟩ := hnum o v hv
    have hget : o.get cfg = n := by
      rw [h.sized o, hv, Option.map_some, Option.getD_some]
      exact toSize_eq (by omega) hdenotes (hn.trans_lt (o.limit_lt hw))
    rw [hget]
    exact ⟨hdenotes, hn⟩
  have habsent : ∀ o : Sized, lastGiven o.option args = none → o.get cfg = o.get {} := by
    intro o hnone
    rw [h.sized o, hnone]
    rfl
  have hfit : ∀ o : Sized, o.get cfg ≤ o.limit w := by
    intro o
    rcases hlast : lastGiven o.option args with - | v
    · rw [habsent o hlast]
      exact o.default_le_limit hw
    · exact (hvalue o v hlast).2
  refine ⟨habsent, fun o v hv => (hvalue o v hv).1, ?_, ?_, ?_, hfit .reps, hfit .objects, hcpu,
    h.mode rfl⟩
  · exact Nat.one_le_iff_ne_zero.mpr (hpos .reps)
  · exact Nat.one_le_iff_ne_zero.mpr (hpos .objects)
  · have hpow : 0 < 2 ^ w := Nat.two_pow_pos w
    have hmul := Nat.mul_le_mul_right (1024 * 1024) hsweep
    have hdiv := Nat.div_mul_le_self (2 ^ w - 1) (1024 * 1024)
    omega

/-- What is honoured was a numeral within the limits. -/
theorem Honoured.numerals (h : Honoured w args cfg) (o : Sized) (v : Text)
    (hv : lastGiven o.option args = some v) : ∃ n ≤ o.limit w, Denotes v n := by
  refine ⟨o.get cfg, ?_, h.given o v hv⟩
  cases o with
  | reps => exact h.reps_fit
  | objects => exact h.objects_fit
  | sweepMb =>
    have hsweep := h.sweep
    change cfg.sweepMb ≤ 2 ^ w - 1
    omega

end Accept

/-- `parse` never reads `argv` past its end, and honours the arguments it accepts, exactly
when there is a reason to reject them or the last values given for the counts are numerals
within the limits. -/
theorem parse_honours_iff {w : ℕ} (hw : w = 32 ∨ w = 64) (argv : List Text) :
    (parse w argv ≠ none ∧ ∀ cfg, parse w argv = some (.ok cfg) → Honoured w (argv.drop 1) cfg) ↔
      Refused w (argv.drop 1) ∨
        ∀ (o : Sized) (v : Text), lastGiven o.option (argv.drop 1) = some v →
          ∃ n ≤ o.limit w, Denotes v n := by
  have hends : Ends w argv 1 {} (argv.drop 1) := parseFrom_ends (argv.drop 1) 1 {} rfl
  unfold Ends at hends
  rw [parse]
  cases hwell : wellFormed (argv.drop 1) with
  | false =>
    rw [hwell, if_neg (by decide)] at hends
    obtain ⟨e, he⟩ := hends
    rw [he]
    exact ⟨fun _ => Or.inl (Or.inl hwell), fun _ => ⟨by simp, fun cfg hcfg => by simp at hcfg⟩⟩
  | true =>
    rw [hwell, if_pos rfl] at hends
    obtain ⟨cfg, hfollows, hrun⟩ := hends
    have hrange := hfollows.inRange_iff hwell
    rw [hrun]
    constructor
    · intro ⟨_, hhonour⟩
      by_cases hrefused : Refused w (argv.drop 1)
      · exact Or.inl hrefused
      · have hok : cfg.checked w = .ok cfg := checked_eq_ok_iff.mpr ⟨rfl, hrange.mpr hrefused⟩
        exact Or.inr (hhonour cfg (congrArg some hok)).numerals
    · intro hcond
      refine ⟨by simp, fun c hc => ?_⟩
      obtain ⟨rfl, hin⟩ := checked_eq_ok_iff.mp (Option.some.inj hc)
      exact hfollows.honoured hw hin (hcond.resolve_left (hrange.mp hin))

/-- The command line of the scripts. -/
theorem parse_honours_matrix :
    let argv := ["benchmark", "--cpu", "2", "--reps", "6000", "--mode", "clflush", "--csv"].map
      String.toList
    (parse 64 argv ≠ none ∧
        ∀ cfg, parse 64 argv = some (.ok cfg) → Honoured 64 (argv.drop 1) cfg) ↔
      Refused 64 (argv.drop 1) ∨
        ∀ (o : Sized) (v : Text), lastGiven o.option (argv.drop 1) = some v →
          ∃ n ≤ o.limit 64, Denotes v n :=
  parse_honours_iff (Or.inr rfl) _

/-- `--reps -1` is accepted as the greatest `size_t`. -/
theorem parse_takes_negative :
    let argv := ["benchmark", "--reps", "-1"].map String.toList
    parse 64 argv = some (.ok { reps := 2 ^ 64 - 1 }) ∧
      ¬∀ cfg, parse 64 argv = some (.ok cfg) → Honoured 64 (argv.drop 1) cfg := by
  have hrun : parse 64 (["benchmark", "--reps", "-1"].map String.toList) =
      some (.ok { reps := 2 ^ 64 - 1 }) := by
    rw [parse, parseFrom, if_pos (by decide)]
    change parseFrom 64 _ 3 { reps := toSize 64 "-1".toList } = _
    rw [parseFrom, if_neg (by decide)]
    rfl
  refine ⟨hrun, fun h => ?_⟩
  have hdenotes := (h _ hrun).given .reps "-1".toList (by decide)
  exact absurd (congrArg Prod.fst hdenotes.subject_eq) (by decide)

end OMB
