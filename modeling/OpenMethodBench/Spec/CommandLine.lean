import OpenMethodBench.Lib.Strto
import OpenMethodBench.Spec.Env
import OpenMethodBench.Spec.Statistics

/-! `parse` of `main.cpp` on a build with `w`-bit `size_t` and `long`. A run of it either
sets the configuration or prints a message. -/

namespace OMB

/-- The checks `parse` ends with. -/
def Config.checked (w : ℕ) (cfg : Config) : Except Text Config :=
  if cfg.objects == 0 || cfg.reps == 0 then
    .error "--objects and --reps must be at least 1\n".toList
  else if cfg.sweepMb == 0 || decide (cfg.sweepMb > (2 ^ w - 1) / (1024 * 1024)) then
    .error "--sweep-mb out of range for this build's size_t\n".toList
  else if cfg.cpu < 0 then .error "--cpu must be non-negative\n".toList
  else .ok cfg

/-- `cfg.reps = std::strtoull(v, nullptr, 10)`, and so on: the result converted to `size_t`. -/
def toSize (w : ℕ) (v : Text) : ℕ := Strto.strtoull v % 2 ^ w

def setMode (m : Text) (cfg : Config) : Except Text Config :=
  let off := { cfg with warm := false, clflush := false, sweep := false }
  if m == "warm".toList then .ok { off with warm := true }
  else if m == "clflush".toList then .ok { off with clflush := true }
  else if m == "sweep".toList then .ok { off with sweep := true }
  else if m == "all".toList then .ok { off with warm := true, clflush := true, sweep := true }
  else .error ("unknown mode: ".toList ++ m ++ ['\n'])

def usage : Text :=
  "usage: benchmark [--reps N] [--objects N] [--sweep-mb N]\n".toList ++
    "                 [--cpu N] [--seed N] [--mode warm|clflush|sweep|all]\n".toList ++
    "                 [--csv] [--verify]\n".toList

/-- What an argument asks for: a value to set something with, a switch, or the end. -/
inductive Request
  | value (set : Text → Config → Except Text Config)
  | switch (set : Config → Config)
  | stop (message : Text)

/-- The branches of the loop. -/
def request (w : ℕ) (arg : Text) : Request :=
  if arg == "--reps".toList then .value fun v cfg => .ok { cfg with reps := toSize w v }
  else if arg == "--objects".toList then .value fun v cfg => .ok { cfg with objects := toSize w v }
  else if arg == "--sweep-mb".toList then .value fun v cfg => .ok { cfg with sweepMb := toSize w v }
  else if arg == "--cpu".toList then .value fun v cfg => .ok { cfg with cpu := Strto.atoi w v }
  else if arg == "--seed".toList then
    .value fun v cfg => .ok { cfg with seed := Strto.strtoul w v % 2 ^ 32 }
  else if arg == "--csv".toList then .switch fun cfg => { cfg with csv := true }
  else if arg == "--verify".toList then .switch fun cfg => { cfg with verifyOnly := true }
  else if arg == "--mode".toList then .value setMode
  else if arg == "--help".toList || arg == "-h".toList then .stop usage
  else .stop ("unknown option: ".toList ++ arg ++ ['\n'])

/-- The loop over the arguments from the `i`-th, and the checks after it; none where it reads
`argv` at or past `argc`. -/
def parseFrom (w : ℕ) (argv : List Text) (i : ℕ) (cfg : Config) : Option (Except Text Config) :=
  if i < argv.length then do
    let arg ← argv[i]?
    match request w arg with
    | .value set =>
      if i + 1 ≥ argv.length then some (.error ("missing value for ".toList ++ arg ++ ['\n']))
      else do
        let v ← argv[i + 1]?
        match set v cfg with
        | .ok cfg => parseFrom w argv (i + 2) cfg
        | .error message => some (.error message)
    | .switch set => parseFrom w argv (i + 1) (set cfg)
    | .stop message => some (.error message)
  else some (cfg.checked w)
termination_by argv.length - i

/-- `parse`, on the defaults of `config`. -/
def parse (w : ℕ) (argv : List Text) : Option (Except Text Config) := parseFrom w argv 1 {}

end OMB
