import HexFabric.Placement.Occupancy

/-! Placing slices one by one: pinned ones first, then the others by falling demand, each on the
first chip that has room for it. -/

namespace HexFabric

namespace Occupancy

variable {m : Machine}

/-- Why a slice fits none of the candidate chips. -/
def shortage (o : Occupancy m) (g : Graph) (part : Partitioning) (s : Nat)
    (candidates : List Chip) : Checked Error := do
  let slice ← fetch part.slices s
  match g.vertices[slice.vertex]? with
  | none => throw .indexOutOfRange
  | some vertex =>
    let left ← candidates.mapM o.remaining
    match slice.demand.closestShortfall left with
    | some shortfall => return .placementInfeasible s vertex.name shortfall
    | none => return .invalidMachine (.nowhereToPlace s vertex.name)

/-- The first of some chips that has room for a demand. -/
def firstRoom (o : Occupancy m) (demand : Resources) : List Chip → Checked (Option Chip)
  | [] => .ok none
  | c :: rest => do if ← o.fits c demand then return some c else o.firstRoom demand rest

/-- Puts a slice on the first of some chips that has room for it. -/
def place (o : Occupancy m) (g : Graph) (part : Partitioning) (candidates : List Chip) (s : Nat) :
    Outcome (Occupancy m) := do
  let demand ← part.demandOf s
  match ← (o.firstRoom demand candidates : Checked _) with
  | some c => (o.assign s c demand : Checked _)
  | none => fail (← (o.shortage g part s candidates : Checked _))

end Occupancy

namespace Graph

/-- The slices of pinned vertices, each with its chip. -/
def pinnedSlices (g : Graph) (part : Partitioning) : List (Nat × Chip) :=
  part.slices.toList.zipIdx.filterMap fun e => (g.location? e.1.vertex).map fun c => (e.2, c)

/-- The slices that may go anywhere. -/
def freeSlices (g : Graph) (part : Partitioning) : List (Slice × Nat) :=
  part.slices.toList.zipIdx.filter fun e => (g.location? e.1.vertex).isNone

/-- The slices that may go anywhere, by falling part of the largest chip that they take, on the
resource of which they take most; of several, by number. -/
def byDemand (g : Graph) (part : Partitioning) (largest : Resources) : List Nat :=
  let rated := (g.freeSlices part).map fun e => (e.2, (e.1.demand.worstRatio largest).2)
  (rated.mergeSort fun a b => ¬a.2 < b.2).map (·.1)

/-- Places pinned slices on their chips and every other slice on the first chip, in the order of
the scan, that has room for it. -/
def firstFit (g : Graph) (part : Partitioning) (m : Machine) : Outcome Placement := do
  let m := g.usable m
  let chips := m.liveChips
  let pinned ← (g.pinnedSlices part).foldlM (fun o e => o.place g part [e.2] e.1)
    (Occupancy.vacant m part.slices.size)
  let placed ← (g.byDemand part m.largestCapacities).foldlM (fun o s => o.place g part chips s)
    pinned
  placed.toPlacement

end Graph

end HexFabric
