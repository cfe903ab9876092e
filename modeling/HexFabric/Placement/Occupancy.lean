import HexFabric.Placement

/-! The books of a placement in the making: where each slice is, who is on each chip, and what they
take of it. -/

namespace HexFabric

/-- A placement in the making on machine `m`. -/
structure Occupancy (m : Machine) where
  /-- What is taken of each chip, by cell. -/
  used : Array Resources
  /-- The slices on each chip, by cell, in the order in which they came. -/
  residents : Array (List Nat)
  /-- The chip of each slice, once it has one. -/
  chips : Array (Option Chip)

namespace Occupancy

variable {m : Machine}

/-- No slice placed, of `slices`. -/
def vacant (m : Machine) (slices : Nat) : Occupancy m where
  used := Array.replicate m.cells .none
  residents := Array.replicate m.cells []
  chips := Array.replicate slices none

def location (o : Occupancy m) (s : Nat) : Checked Chip := do
  match ← fetch o.chips s with
  | some c => return c
  | none => throw (.notPlaced s)

/-- The slices on a chip, in the order in which they came. -/
def residentsOf (o : Occupancy m) (c : Chip) : Checked (List Nat) := fetch o.residents (m.cell c)

/-- What is left of a chip; nothing of a dead one. -/
def remaining (o : Occupancy m) (c : Chip) : Checked Resources := do
  match m.capacity? c with
  | some capacity => return (← fetch o.used (m.cell c)).remainingOf capacity
  | none => return .none

/-- A chip is live and has room for a demand. -/
def fits (o : Occupancy m) (c : Chip) (demand : Resources) : Checked Bool := do
  if m.Live c then
    return demand.fitsWithin (← o.remaining c)
  else
    return false

/-- A chip is live and bears no more than it offers. -/
def withinCapacity (o : Occupancy m) (c : Chip) : Checked Bool := do
  match m.capacity? c with
  | some capacity => return (← fetch o.used (m.cell c)).fitsWithin capacity
  | none => return false

/-- Puts a slice that has no chip on chip `c`. -/
def assign (o : Occupancy m) (s : Nat) (c : Chip) (demand : Resources) :
    Checked (Occupancy m) := do
  let ⟨used, residents, chips⟩ := o
  if (← fetch chips s).isSome then
    throw (.placedTwice s)
  let used ← adjust used (m.cell c) (·.add demand)
  let residents ← adjust residents (m.cell c) (· ++ [s])
  let chips ← store chips s (some c)
  return ⟨used, residents, chips⟩

def unassign (o : Occupancy m) (s : Nat) (demand : Resources) : Checked (Occupancy m) := do
  let c ← o.location s
  let ⟨used, residents, chips⟩ := o
  let used ← store used (m.cell c) (← (← fetch used (m.cell c)).sub demand)
  let residents ← adjust residents (m.cell c) (·.filter (· ≠ s))
  let chips ← store chips s none
  return ⟨used, residents, chips⟩

def assignAll (part : Partitioning) : List (Chip × Nat) → Occupancy m → Checked (Occupancy m)
  | [], o => .ok o
  | (c, s) :: rest, o => do assignAll part rest (← o.assign s c (← part.demandOf s))

def ofPlacement (m : Machine) (part : Partitioning) (p : Placement) : Checked (Occupancy m) :=
  assignAll part p.chips.toList.zipIdx (vacant m p.chips.size)

/-- The placement, once every slice has a chip. -/
def toPlacement (o : Occupancy m) : Checked Placement := do
  let chips ← o.chips.toList.zipIdx.mapM fun e => match e.1 with
    | some c => (.ok c : Checked Chip)
    | none => .error (.notPlaced e.2)
  return ⟨chips.toArray⟩

end Occupancy

end HexFabric
