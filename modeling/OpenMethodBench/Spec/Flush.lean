import Mathlib

/-! The `clflush` mode of the scrubber: which cache lines are flushed before a timed call.
Addresses are those of a build with `w`-bit pointers. -/

namespace OMB

/-- A pointer/size pair; the null pointer is 0. -/
structure Region where
  addr : ℕ
  size : ℕ
  deriving DecidableEq, Repr

/-- `for (auto line = begin; line < end; line += 64)`: the lines flushed, none where the
fuel does not last. -/
def flushLoop (w stop : ℕ) : ℕ → ℕ → Option (List ℕ)
  | 0, line => if line < stop then none else some []
  | fuel + 1, line =>
    if line < stop then (flushLoop w stop fuel ((line + 64) % 2 ^ w)).map (line :: ·) else some []

/-- `flush_range`. -/
def flushRange (w fuel : ℕ) (r : Region) : Option (List ℕ) :=
  if r.addr = 0 then some []
  else flushLoop w ((r.addr + r.size) % 2 ^ w) fuel (r.addr - r.addr % 64)

/-- `scrubber::apply` in `clflush` mode, before its fence. -/
def applyFlush (w fuel : ℕ) (regions : List Region) : Option (List ℕ) :=
  (regions.mapM (flushRange w fuel)).map List.flatten

/-- `object_regions`: the object, for a static type of `sizeB` bytes, and the v-table its
first word points to, from 16 bytes before the address point. -/
def objectRegions (w sizeB p vtbl : ℕ) : List Region :=
  [⟨p, if sizeB < 64 then 64 else sizeB⟩, ⟨(vtbl + 2 ^ w - 16) % 2 ^ w, 512 + 16⟩]

end OMB
