import Mathlib
import OpenMethodBench.Spec.Matrix
import OpenMethodBench.Spec.Session

/-! What `matrix.sh` runs: the programs that `build.sh` leaves, each on the command lines that the
script has for it. -/

namespace OMB

/-- `bin/benchmark-$cc`. -/
def binary (cc : Text) : Text := "bin/benchmark-".toList ++ cc

/-- `"bin/benchmark-$cc" --verify`. -/
def verifyLine (cc : Text) : List Text := [binary cc, "--verify".toList]

/-- `"bin/benchmark-$cc" --cpu "$CPU" --reps "$REPS" --mode clflush --csv`. -/
def measureLine (cpu reps cc : Text) : List Text :=
  [binary cc, "--cpu".toList, cpu, "--reps".toList, reps, "--mode".toList, "clflush".toList,
    "--csv".toList]

/-- Compilers on a machine, and what the script is given. -/
structure Lab where
  /-- `CPU` -/
  cpu : Text
  /-- `REPS` -/
  reps : Text
  disk : Storage
  installed : Text → Bool
  builds : Text → Bool
  /-- what `build.sh` leaves -/
  program : Text → Program ℚ
  /-- the machine, as a pass finds it -/
  state : ℕ → ∀ cc, (program cc).H
  /-- what a pass takes for the rate of the counter -/
  tscHz : ℕ → Text → ℚ
  /-- `taskset -c "$CPU"` starts its program -/
  starts : Bool
  /-- the writes that output goes out in -/
  writes : Text → List Text
  writes_flatten : ∀ t, (writes t).flatten = t

namespace Lab

variable (lab : Lab) (sqrt : ℚ → ℚ)

/-- The program of a compiler, in a pass. -/
def inPass (k : ℕ) (cc : Text) : Program ℚ :=
  { lab.program cc with machine := lab.state k cc, tscHz := lab.tscHz k cc }

/-- What the gate is run as. -/
def verification (cc : Text) : Option Exit := (lab.program cc).main sqrt .decimal (verifyLine cc)

/-- What a pass runs, if `taskset` lets it. -/
def measurement (k : ℕ) (cc : Text) : Option Exit :=
  if lab.starts then (lab.inPass k cc).main sqrt .decimal (measureLine lab.cpu lab.reps cc) else none

/-- What a run of the script meets. -/
def bench : Bench where
  disk := lab.disk
  installed := lab.installed
  builds := lab.builds
  verifies cc := (lab.verification sqrt cc).any fun e => e.status == 0
  prints k cc := (lab.measurement sqrt k cc).elim [] fun e => lab.writes e.out
  measures k cc := (lab.measurement sqrt k cc).any fun e => e.status == 0

end Lab

end OMB
