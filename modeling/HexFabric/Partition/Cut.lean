import HexFabric.Partition

/-! Cutting one vertex. A range of atoms that no live chip can take is cut in two at a multiple of
the granularity, and so on until each part fits or cannot be cut any further. -/

namespace HexFabric

namespace Vertex

def fitsSome (profiles : List Resources) (demand : Resources) : Bool :=
  profiles.any demand.fitsWithin

/-- Where a range that starts at `lo` is cut: half its granules, rounded down, go to the lower
part. -/
def midpoint (v : Vertex) (lo atoms : Nat) : Nat :=
  lo + max ((atoms + v.granularity - 1) / v.granularity / 2) 1 * v.granularity

/-- A range of more than one granule is cut inside. -/
theorem midpoint_bounds {v : Vertex} {lo hi : Nat} (hg : v.granularity ≠ 0)
    (h : v.granularity < hi - lo) :
    lo < v.midpoint lo (hi - lo) ∧ v.midpoint lo (hi - lo) < hi := by
  have hg' : 0 < v.granularity := Nat.pos_of_ne_zero hg
  have hunits : 1 ≤ (hi - lo + v.granularity - 1) / v.granularity / 2 := by
    rw [Nat.div_div_eq_div_mul, Nat.le_div_iff_mul_le (Nat.mul_pos hg' (by decide))]
    omega
  have hmul : (hi - lo + v.granularity - 1) / v.granularity / 2 * v.granularity * 2 ≤
      hi - lo + v.granularity - 1 := by
    rw [Nat.mul_right_comm]
    exact Nat.le_trans (Nat.mul_le_mul_right _ (Nat.div_mul_le_self _ 2)) (Nat.div_mul_le_self _ _)
  unfold midpoint
  rw [Nat.max_eq_left hunits]
  have := Nat.mul_le_mul_right v.granularity hunits
  omega

/-- Why the atoms of a range that cannot be cut fit nowhere. -/
def infeasible (v : Vertex) (profiles : List Resources) (atoms : Nat) (demand : Resources) :
    Error :=
  match demand.closestShortfall profiles with
  | some shortfall => .partitionInfeasible v.name atoms shortfall
  | none => .invalidMachine .noLiveChips

/-- Cuts the atoms from `lo` to `hi`. The ranges come in the order of their atoms. -/
def cut (v : Vertex) (profiles : List Resources) (lo hi : Nat) : Outcome (List (Nat × Nat)) := do
  let demand ← v.demand.share? lo hi v.extent
  if ¬v.maxSlice.any (· < hi - lo) ∧ fitsSome profiles demand then
    return [(lo, hi)]
  else if hi - lo ≤ v.granularity then
    fail (v.infeasible profiles (hi - lo) demand)
  else if v.granularity = 0 then
    throw (.defect .divisionByZero)
  else
    let mid := v.midpoint lo (hi - lo)
    let lower ← cut v profiles lo mid
    let upper ← cut v profiles mid hi
    return lower ++ upper
termination_by hi - lo
decreasing_by
  all_goals
    have := @midpoint_bounds v lo hi ‹_› (by omega)
    omega

end Vertex

end HexFabric
