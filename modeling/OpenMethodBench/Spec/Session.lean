import OpenMethodBench.Spec.CommandLine
import OpenMethodBench.Spec.Report
import OpenMethodBench.Spec.Run
import OpenMethodBench.Spec.Statistics
import OpenMethodBench.Spec.Verify

/-! `main_impl` of `main.cpp` once the gate is passed: the variants it measures, mode by mode,
and the rows that `report` is given. -/

namespace OMB

/-! ## The variants -/

/-- `G` of `OMB_RUN`. -/
def Registry.group : Registry → Text
  | .vector => "vptr_vector".toList
  | .map => "vptr_map".toList
  | .flat => "flat_map".toList
  | .indirect => "indirect".toList

/-- `G` and `H` of `OMB_RUN_INPLACE`. -/
def InplaceRegistry.group : InplaceRegistry → Text
  | .inplace => "inplace".toList
  | .inplaceIndirect => "inplace_ind".toList

def Hier.name : Hier → Text
  | .main => "main".toList
  | .inplace r => r.group

namespace Variant

/-- `V::touches_receiver`. -/
def touchesReceiver : Variant → Bool
  | probe | direct | omVp1 _ | omVp2 _ => false
  | _ => true

/-- `V::body`. -/
def body : Variant → Text
  | probe | direct | touch1 | touch2 | ipTouch1 _ | ipTouch2 _ => "-".toList
  | vfu1 | vfu2 | omRefu1 _ | omVpu1 _ | omRefu2 _ | omVpu2 _
  | ipVfu1 _ | ipVfu2 _ | ipRefu1 _ | ipRefu2 _ => "use".toList
  | _ => "const".toList

/-- `V::name`. -/
def name : Variant → Text
  | probe => "probe".toList
  | direct => "direct".toList
  | touch1 | ipTouch1 _ => "touch".toList
  | touch2 | ipTouch2 _ => "touch+touch".toList
  | vf1 | vfu1 | ipVf1 _ | ipVfu1 _ => "vf".toList
  | vf2 | vfu2 | ipVf2 _ | ipVfu2 _ => "vf+vf".toList
  | omVp1 _ | omVp2 _ | omVpu1 _ | omVpu2 _ => "om vptr".toList
  | _ => "om ref".toList

/-- `V::group`. -/
def group : Variant → Text
  | probe | direct | touch1 | touch2 | ipTouch1 _ | ipTouch2 _ => "baseline".toList
  | vf1 | vf2 | vfu1 | vfu2 | ipVf1 _ | ipVf2 _ | ipVfu1 _ | ipVfu2 _ => "yardstick".toList
  | omRef1 r | omVp1 r | omRef2 r | omVp2 r | omRefu1 r | omVpu1 r | omRefu2 r | omVpu2 r => r.group
  | ipRef1 r | ipRef2 r | ipRefu1 r | ipRefu2 r => r.group

/-- The row that `run<V>` returns. -/
def row {K : Type*} (V : Variant) (mode : CacheMode) (st : Stats K) : Row K where
  name := V.name
  group := V.group
  hier := V.hier.name
  arity := V.arity
  touchesReceiver := V.touchesReceiver
  body := V.body
  mode := mode
  st := st

end Variant

/-- `OMB_RUN`. -/
def runMacro (r : Registry) : List Variant := [.omVp1 r, .omRef1 r, .omVp2 r, .omRef2 r]

/-- `OMB_RUN_INPLACE`. -/
def runInplaceMacro (r : InplaceRegistry) : List Variant :=
  [.ipTouch1 r, .ipTouch2 r, .ipVf1 r, .ipVf2 r, .ipRef1 r, .ipRef2 r]

/-- `OMB_RUN_USE`. -/
def runUseMacro (r : Registry) : List Variant := [.omVpu1 r, .omRefu1 r, .omVpu2 r, .omRefu2 r]

/-- What `main_impl` runs in one mode, in order. -/
def runVariants : List Variant :=
  [.probe, .direct, .touch1, .touch2, .vf1, .vf2] ++
    runMacro .vector ++ runMacro .map ++ runMacro .flat ++ runMacro .indirect ++
    runInplaceMacro .inplace ++ runInplaceMacro .inplaceIndirect ++ [.vfu1, .vfu2] ++
    runUseMacro .vector ++ runUseMacro .map ++ runUseMacro .flat ++ runUseMacro .indirect ++
    [.ipVfu1 .inplace, .ipVfu2 .inplace, .ipVfu1 .inplaceIndirect, .ipVfu2 .inplaceIndirect,
      .ipRefu1 .inplace, .ipRefu2 .inplace, .ipRefu1 .inplaceIndirect, .ipRefu2 .inplaceIndirect]

/-! ## The session -/

/-- `modes`. -/
def Config.modes (cfg : Config) : List CacheMode :=
  (if cfg.warm then [.warm] else []) ++ (if cfg.clflush then [.clflush] else []) ++
    (if cfg.sweep then [.sweep] else [])

/-- The runs of a session in some modes, one after another. -/
def sessionPlan (modes : List CacheMode) : List (Variant × CacheMode) :=
  modes.flatMap fun mode => runVariants.map fun V => (V, mode)

section Rows

variable {K : Type} (d : Doubles K) (w : ℕ) {n : ℕ} {Φ : VirtualPtr (Fin n)}

/-- The row of a run; none where `summarize` reads past its samples. -/
def RunRecord.row (rec : RunRecord Φ) : Option (Row K) :=
  (summarize d w (rec.reps.map Rep.cycles)).map fun s => rec.variant.row rec.mode s.toStats

variable {S H : Type} [NeZero n] (g : Rng S) (rig : Rig Φ H)

/-- `rows`, after the loops over the modes. -/
def sessionRows (cfg : Config) (e : Stand S n Φ) (h : H) : Option (List (Row K)) :=
  (session g rig cfg (sessionPlan cfg.modes) e h).mapM (RunRecord.row d w)

end Rows

/-! ## The run -/

/-- How the program ends: its exit status, and what it has printed. -/
structure Exit where
  status : ℕ
  out : Text
  err : Text
  deriving DecidableEq, Repr

/-- One `MISMATCH` line. -/
def Mismatch.text (m : Mismatch) : Text :=
  "MISMATCH ".toList ++ m.what.toList ++ " at (".toList ++ Nat.toDigits 10 m.i ++ ",".toList ++
    Nat.toDigits 10 m.j ++ "): got ".toList ++ Numeral.intText m.got ++ ", want ".toList ++
    Numeral.intText m.want ++ ['\n']

/-- A build of the benchmark on a machine. -/
structure Program (K : Type) where
  /-- the bits of a pointer -/
  w : ℕ
  word : w = 32 ∨ w = 64
  compiler : CompilerId
  /-- `num_classes` -/
  numClasses : ℕ
  /-- the open-method paths -/
  paths : Paths
  /-- the states of the random generator -/
  S : Type
  g : Rng S
  Φ : ∀ n, VirtualPtr (Fin n)
  /-- the states of the machine -/
  H : Type
  rig : ∀ n, Rig (Φ n) H
  machine : H
  tscHz : K
  /-- `pin_to_cpu` succeeds -/
  pinned : ℤ → Bool
  /-- the table that `report` prints without `--csv` -/
  table : Config → List (Row K) → Text

section Main

variable {K : Type} [Field K] [LinearOrder K] (sqrt : K → K) (fmt : Printf K) (b : Program K)

/-- `verify`, on the environment of a configuration. -/
def Program.mismatches (cfg : Config) : List Mismatch :=
  OMB.mismatches b.paths (Env.build b.g b.numClasses cfg)

/-- `rows`; a configuration that is accepted has objects. -/
def Program.rows (cfg : Config) : Option (List (Row K)) :=
  if h : cfg.objects = 0 then none
  else
    have : NeZero cfg.objects := ⟨h⟩
    sessionRows (exact sqrt) b.w b.g (b.rig cfg.objects) cfg
      (Stand.build b.g cfg (b.Φ cfg.objects)) b.machine

/-- `report`. -/
def Program.report (cfg : Config) (rows : List (Row K)) : Text :=
  if cfg.csv then csvText sqrt fmt ⟨b.compiler, b.w, b.tscHz, rows⟩ else b.table cfg rows

/-- The warning where the program is not pinned. -/
def Program.warning (cfg : Config) : Text :=
  if b.pinned cfg.cpu then []
  else "warning: could not pin to cpu ".toList ++ Numeral.intText cfg.cpu ++ ['\n']

/-- `main_impl`; none where it reads out of range. -/
def Program.main (argv : List Text) : Option Exit :=
  match parse b.w argv with
  | none => none
  | some (.error message) => some ⟨2, message, []⟩
  | some (.ok cfg) =>
    if !(b.mismatches cfg).isEmpty then
      some ⟨1, (b.mismatches cfg).flatMap Mismatch.text,
        b.warning cfg ++ "verification FAILED\n".toList⟩
    else if cfg.verifyOnly then some ⟨0, "verification passed\n".toList, b.warning cfg⟩
    else (b.rows sqrt cfg).map fun rows => ⟨0, b.report sqrt fmt cfg rows, b.warning cfg⟩

end Main

end OMB
