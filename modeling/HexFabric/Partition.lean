import HexFabric.Graph

/-! A graph cut into slices, each small enough for a chip, and the nets between slices. -/

namespace HexFabric

/-- A range of the atoms of a vertex. -/
structure Slice where
  vertex : Nat
  lo : Nat
  hi : Nat
  /-- The part of the demand of the vertex that is theirs. -/
  demand : Resources
  deriving DecidableEq

def Slice.atoms (s : Slice) : Nat := s.hi - s.lo

/-- A net from one slice of the source vertex of a flow to all slices of its sink vertices. -/
structure SlicedNet where
  source : Nat
  sinks : List Nat
  weight : Weight
  origin : Nat
  deriving DecidableEq

/-- A partitioned graph. Slices and nets are known by their numbers. -/
structure Partitioning where
  slices : Array Slice
  /-- For each vertex, its first slice and the slice after its last. -/
  ranges : Array (Nat × Nat)
  nets : Array SlicedNet

namespace SlicedNet

/-- The slices that a net joins, each once. -/
def terminals (n : SlicedNet) : List Nat := (InsertionSet.ofList (n.source :: n.sinks)).elems

end SlicedNet

namespace Partitioning

def demandOf (p : Partitioning) (s : Nat) : Checked Resources := do
  return (← fetch p.slices s).demand

/-- Notes net `i` at each of the given slices. -/
def noteNet (i : Nat) (terminals : List Nat) (table : Array (List Nat)) :
    Checked (Array (List Nat)) :=
  terminals.foldlM (fun t s => adjust t s fun nets => nets ++ [i]) table

/-- For each slice, the nets that it is a terminal of, ascending. -/
def sliceNets (p : Partitioning) : Checked (Array (List Nat)) :=
  p.nets.toList.zipIdx.foldlM (fun t e => noteNet e.2 e.1.terminals t)
    (Array.replicate p.slices.size [])

end Partitioning

end HexFabric
