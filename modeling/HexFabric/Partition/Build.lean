import HexFabric.Partition.Cut

/-! Partitioning a whole graph. -/

namespace HexFabric

namespace Partitioning

/-- The slices of vertex number `i` from its ranges of atoms. -/
def slicesOf (v : Vertex) (i : Nat) (ranges : List (Nat × Nat)) : Checked (List Slice) :=
  ranges.mapM fun r => do return ⟨i, r.1, r.2, ← v.demand.share? r.1 r.2 v.extent⟩

def addSlices (p : Partitioning) (new : List Slice) : Partitioning :=
  { p with
    slices := p.slices ++ new
    ranges := p.ranges.push (p.slices.size, p.slices.size + new.length) }

def slicesIn (p : Partitioning) (vertex : Nat) : Checked (List Nat) := do
  let (first, last) ← fetch p.ranges vertex
  return List.range' first (last - first)

/-- Adds the nets of flow number `i`: one from each slice of its source to all slices of its
sinks. -/
def addNets (p : Partitioning) (n : Net) (i : Nat) : Checked Partitioning := do
  let sinks := (InsertionSet.ofList (← n.sinks.mapM p.slicesIn).flatten).elems
  let sources ← p.slicesIn n.source
  let nets : List SlicedNet := sources.map fun s => ⟨s, sinks, n.weight, i⟩
  return { p with nets := p.nets ++ nets }

def empty : Partitioning := ⟨#[], #[], #[]⟩

end Partitioning

namespace Graph

/-- Cuts every vertex of a graph into slices that fit some live chip of the usable machine, and
expands the flows into nets between slices. -/
def partition (g : Graph) (m : Machine) : Outcome Partitioning := do
  g.validate m
  let profiles := (g.usable m).capacityProfiles
  if profiles = [] ∧ g.vertices ≠ [] then
    fail (.invalidMachine .noLiveChips)
  let sliced ← g.vertices.zipIdx.foldlM (fun p e => do
    let ranges ← e.1.cut profiles 0 e.1.extent
    return p.addSlices (← Partitioning.slicesOf e.1 e.2 ranges)) Partitioning.empty
  (g.nets.zipIdx.foldlM (fun p e => p.addNets e.1 e.2) sliced : Checked Partitioning)

end Graph

end HexFabric
