import HexFabric.Partition

/-! A chip for every slice, and whether the machine can bear it. -/

namespace HexFabric

/-- The chip of every slice, by number. -/
structure Placement where
  chips : Array Chip
  deriving DecidableEq

namespace Placement

def chipOf (p : Placement) (s : Nat) : Checked Chip := fetch p.chips s

def chipsUsed (p : Placement) : Nat := (Ascending.ofList p.chips.toList).length

/-- Adds up by cell what the given slices demand of their chips, on top of `used`. There is no sum
if one of the chips is not live. -/
def usage (m : Machine) (part : Partitioning) :
    List (Chip × Nat) → Array Resources → Checked (Option (Array Resources))
  | [], used => .ok (some used)
  | (c, s) :: rest, used => do
    if m.Live c then
      let demand ← part.demandOf s
      usage m part rest (← adjust used (m.cell c) (·.add demand))
    else
      return none

/-- Every slice has a live chip, and no live chip bears more than it offers. -/
def isValid (p : Placement) (part : Partitioning) (m : Machine) : Checked Bool := do
  if p.chips.size ≠ part.slices.size then
    return false
  match ← usage m part p.chips.toList.zipIdx (Array.replicate m.cells .none) with
  | none => return false
  | some used => m.liveChips.allM fun c => do
    return (← fetch used (m.cell c)).fitsWithin (m.resourcesAt c)

end Placement

end HexFabric
