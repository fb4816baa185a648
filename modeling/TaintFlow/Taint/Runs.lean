/-!
# Runs of set flags

The taint of a register is a pattern of flags, one for each byte. Where tainted
bytes are to become address ranges, the pattern is cut into its maximal runs of
set flags. The runs are found from the highest offset downwards: a set flag
either carries on the lowest run that is there, or begins a new one.
-/

namespace TaintFlow

/-- The runs from an offset on, given the flag there and the runs above it. A run
is a pair of its first offset and the offset one past its last. -/
def carryRun : Bool × Nat → List (Nat × Nat) → List (Nat × Nat)
  | (false, _), above => above
  | (true, offset), [] => [(offset, offset + 1)]
  | (true, offset), (first, stop) :: above =>
    if first = offset + 1 then (offset, stop) :: above
    else (offset, offset + 1) :: (first, stop) :: above

/-- The maximal runs of set flags of a pattern, lowest first. -/
def runs (pattern : List Bool) : List (Nat × Nat) :=
  pattern.zipIdx.foldr carryRun []

end TaintFlow
