import Mathlib.Algebra.Field.Defs
import Mathlib.Order.Defs.LinearOrder
import OpenMethodBench.Lib.Numeral

/-! `report` of `main.cpp`: the figures derived from the measured rows, and the CSV
text printed for them. Numbers stand for `double`s with exact arithmetic. -/

namespace OMB

inductive CacheMode | warm | clflush | sweep
  deriving DecidableEq, Repr

/-- `cache_mode_name`. -/
def CacheMode.name : CacheMode → Text
  | .warm => "warm".toList
  | .clflush => "clflush".toList
  | .sweep => "sweep".toList

structure Stats (K : Type*) where
  min : ℕ
  median : ℕ
  p90 : ℕ
  mean : K
  stddev : K
  se : K

structure Row (K : Type*) where
  name : Text
  group : Text
  hier : Text
  arity : ℤ
  touchesReceiver : Bool
  body : Text
  mode : CacheMode
  st : Stats K

section Figures

variable {K : Type*} [Field K] [LinearOrder K] (sqrt : K → K) (rows : List (Row K))

/-- `named_baseline`. -/
def namedBaseline (m : CacheMode) (name : Text) : Option (Stats K) :=
  (rows.find? fun r => r.group == "baseline".toList && r.mode == m && r.name == name).map (·.st)

/-- `baseline`: the empty window. -/
def baseline (m : CacheMode) : Option (Stats K) := namedBaseline rows m "probe".toList

/-- `obj_baseline`. -/
def objBaseline (m : CacheMode) (arity : ℤ) (hier : Text) : Option (Stats K) :=
  (rows.find? fun r =>
    r.group == "baseline".toList && r.mode == m && r.arity == arity && r.hier == hier).map (·.st)

/-- A difference of two independent means, with its uncertainty. -/
def differ (x y : Stats K) : K × K := (x.mean - y.mean, sqrt (x.se * x.se + y.se * y.se))

/-- `net_of`: the value, and what it leaves in `se`. -/
def netOf (r : Row K) : K × K :=
  match baseline rows r.mode with
  | none => (r.st.mean, r.st.se)
  | some b => differ sqrt r.st b

/-- `disp_of`. -/
def dispOf (r : Row K) : K × K :=
  if !r.touchesReceiver then
    match namedBaseline rows r.mode "direct".toList with
    | none => netOf sqrt rows r
    | some d => differ sqrt r.st d
  else
    match objBaseline rows r.mode r.arity r.hier with
    | none => (0, 0)
    | some b => if r.arity == 0 then (0, 0) else differ sqrt r.st b

/-- The row `ratio_of` divides by. -/
def yardstick (r : Row K) : Option (Row K) :=
  rows.find? fun y => y.group == "yardstick".toList && y.mode == r.mode && y.arity == r.arity &&
    y.hier == r.hier && y.body == r.body

/-- `ratio_of`. -/
def ratioOf (r : Row K) (useDisp : Bool) : K :=
  if r.arity == 0 || r.group == "baseline".toList then 0
  else match yardstick rows r with
    | none => 0
    | some y =>
      let base := if useDisp then (dispOf sqrt rows y).1 else (netOf sqrt rows y).1
      let val := if useDisp then (dispOf sqrt rows r).1 else (netOf sqrt rows r).1
      if 0 < base then val / base else 0

/-- What the CSV branch derives for one row. -/
structure Figures (K : Type*) where
  net : K
  netSe : K
  disp : K
  dispSe : K
  xNet : K
  xDisp : K

def figures (r : Row K) : Figures K where
  net := (netOf sqrt rows r).1
  netSe := (netOf sqrt rows r).2
  disp := (dispOf sqrt rows r).1
  dispSe := (dispOf sqrt rows r).2
  xNet := ratioOf sqrt rows r false
  xDisp := ratioOf sqrt rows r true

end Figures

/-! ## The CSV branch -/

/-- `compiler_id`. -/
inductive CompilerId
  | clang (major minor : ℕ)
  | gnu (major minor : ℕ)
  | unknown

def versionText (major minor : ℕ) : Text := Nat.toDigits 10 major ++ '.' :: Nat.toDigits 10 minor

def CompilerId.text : CompilerId → Text
  | .clang major minor => "clang++ ".toList ++ versionText major minor
  | .gnu major minor => "g++ ".toList ++ versionText major minor
  | .unknown => "unknown".toList

/-- A character a CSV field may hold without quoting. -/
def isFieldChar (c : Char) : Bool := c != ',' && c != '"' && c != '\r' && c != '\n'

theorem isFieldChar_of_digit {c : Char} (h : c.isDigit = true) : isFieldChar c = true := by
  simp only [isFieldChar, Bool.and_eq_true, bne_iff_ne]
  refine ⟨⟨⟨?_, ?_⟩, ?_⟩, ?_⟩ <;> rintro rfl <;> exact absurd h (by decide)

/-- `%.<digits>f`, which prints no delimiter. -/
structure Printf (K : Type*) where
  fixed : ℕ → K → Text
  fixed_chars : ∀ digits x, ∀ c ∈ fixed digits x, isFieldChar c = true

/-- Exact decimals. -/
def Printf.decimal : Printf ℚ where
  fixed := Numeral.fixed
  fixed_chars digits x c hc := by
    rcases Numeral.fixed_chars c hc with hc | rfl | rfl
    · exact isFieldChar_of_digit hc
    all_goals decide

/-- One run of the benchmark. -/
structure Pass (K : Type*) where
  compiler : CompilerId
  bitness : ℕ
  tscHz : K
  rows : List (Row K)

/-- The header literal of the CSV branch. -/
def csvHeader : Text :=
  "compiler,bits,mode,hier,body,group,dispatch,arity,min,median,p90,mean,".toList ++
    "stddev,se,net,".toList ++ "net_se,disp,disp_se,disp_ns,x_net,x_disp".toList

/-- The column names, in order. -/
def csvNames : List Text :=
  ["compiler", "bits", "mode", "hier", "body", "group", "dispatch", "arity", "min", "median",
    "p90", "mean", "stddev", "se", "net", "net_se", "disp", "disp_se", "disp_ns", "x_net",
    "x_disp"].map String.toList

theorem csvHeader_eq : csvHeader = Text.join ',' csvNames := by
  decide +kernel

section Csv

variable {K : Type*} [Field K] [LinearOrder K] (sqrt : K → K) (fmt : Printf K) (p : Pass K)

/-- Cycles in nanoseconds. -/
def nanoseconds (cycles tscHz : K) : K := cycles * 1000000000 / tscHz

/-- The arguments of the row's `printf`, each through its conversion. -/
def csvFields (r : Row K) : List Text :=
  let f := figures sqrt p.rows r
  [p.compiler.text, Nat.toDigits 10 p.bitness, r.mode.name, r.hier, r.body, r.group, r.name,
    Numeral.intText r.arity, Nat.toDigits 10 r.st.min, Nat.toDigits 10 r.st.median,
    Nat.toDigits 10 r.st.p90, fmt.fixed 2 r.st.mean, fmt.fixed 1 r.st.stddev,
    fmt.fixed 2 r.st.se, fmt.fixed 2 f.net, fmt.fixed 2 f.netSe, fmt.fixed 2 f.disp,
    fmt.fixed 2 f.dispSe, fmt.fixed 3 (nanoseconds f.disp p.tscHz), fmt.fixed 3 f.xNet,
    fmt.fixed 3 f.xDisp]

/-- What `report` prints with `--csv`: every line ends in a newline. -/
def csvText : Text :=
  csvHeader ++ '\n' :: p.rows.flatMap fun r => Text.join ',' (csvFields sqrt fmt p r) ++ ['\n']

end Csv

end OMB
