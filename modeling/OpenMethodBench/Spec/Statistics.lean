import Mathlib.Data.List.Sort
import OpenMethodBench.Spec.Report

/-! `summarize` of `timing.hpp`: the statistics of the samples of one run, on a build whose
`size_t` has `w` bits. -/

namespace OMB

/-- The operations of `double` the statistics are computed with. -/
structure Doubles (D : Type*) where
  ofNat : ℕ → D
  add : D → D → D
  sub : D → D → D
  mul : D → D → D
  div : D → D → D
  sqrt : D → D

/-- `stats`. -/
structure Summary (D : Type*) extends Stats D where
  samples : ℕ

/-- `std::sort`. -/
def sorted (samples : List ℕ) : List ℕ := samples.mergeSort fun a b => decide (a ≤ b)

/-- `samples.size() / 2`. -/
def medianIndex (n : ℕ) : ℕ := n / 2

/-- `(samples.size() * 90) / 100`, the product in `size_t`. -/
def p90Index (w n : ℕ) : ℕ := n * 90 % 2 ^ w / 100

/-- `keep`: all but the top 5%. -/
def keepCount (n : ℕ) : ℕ := if n - n / 20 = 0 then n else n - n / 20

section Summarize

variable {D : Type} (d : Doubles D)

/-- `std::accumulate(begin, begin + keep, 0.0)`. -/
def totalOf (kept : List ℕ) : D := kept.foldl (fun t x => d.add t (d.ofNat x)) (d.ofNat 0)

/-- The trimmed mean. -/
def meanOf (kept : List ℕ) (keep : ℕ) : D := d.div (totalOf d kept) (d.ofNat keep)

/-- The sum of the squared differences from the mean. -/
def squaresOf (kept : List ℕ) (mean : D) : D :=
  kept.foldl (fun sq x =>
    let e := d.sub (d.ofNat x) mean
    d.add sq (d.mul e e)) (d.ofNat 0)

/-- `summarize`; none where an index is out of range. -/
def summarize (w : ℕ) (samples : List ℕ) : Option (Summary D) :=
  if samples.isEmpty then
    some ⟨⟨0, 0, 0, d.ofNat 0, d.ofNat 0, d.ofNat 0⟩, 0⟩
  else do
    let s := sorted samples
    let min ← s[0]?
    let median ← s[medianIndex s.length]?
    let p90 ← s[p90Index w s.length]?
    let keep := keepCount s.length
    let kept := s.take keep
    let mean := meanOf d kept keep
    let stddev := d.sqrt (d.div (squaresOf d kept mean) (d.ofNat keep))
    let se := d.div stddev (d.sqrt (d.ofNat keep))
    return ⟨⟨min, median, p90, mean, stddev, se⟩, s.length⟩

end Summarize

/-- Arithmetic without rounding. -/
def exact {K : Type*} [Field K] (sqrt : K → K) : Doubles K :=
  ⟨fun n => (n : K), (· + ·), (· - ·), (· * ·), (· / ·), sqrt⟩

/-- `std::vector<std::uint64_t>::max_size()`: `PTRDIFF_MAX` bytes. -/
def vectorMax (w : ℕ) : ℕ := (2 ^ (w - 1) - 1) / 8

end OMB
