import HexFabric.Placement
import HexFabric.Route.Growth

/-! Routing all nets of a placed graph. -/

namespace HexFabric

/-- A defect comes before any error; what is left is a result or an error. -/
def settled {α : Type} : Outcome α → Checked (Except Error α)
  | .ok a => .ok (.ok a)
  | .error (.error e) => .ok (.error e)
  | .error (.defect d) => .error d

namespace Graph

/-- Where packets for a slice are delivered. -/
def destination (g : Graph) (part : Partitioning) (p : Placement) (s : Nat) :
    Checked Destination := do
  let chip ← p.chipOf s
  let slice ← fetch part.slices s
  match g.endpoint? slice.vertex with
  | some link => return .device chip link
  | none => return .cores chip

/-- The destinations of a net, in the order of its sinks. -/
def destinations (g : Graph) (part : Partitioning) (p : Placement) (n : SlicedNet) :
    Checked (InsertionSet Destination) := do
  return .ofList (← n.sinks.mapM (g.destination part p))

def routeOne (g : Graph) (part : Partitioning) (p : Placement) (m : Machine) (n : SlicedNet)
    (i : Nat) : Outcome RoutingTree := do
  let source ← p.chipOf n.source
  m.routeNet i source (← (g.destinations part p n : Checked _))

/-- Routes every net. Of several errors it is the first; a defect in any net comes before them. -/
def route (g : Graph) (part : Partitioning) (p : Placement) (m : Machine) :
    Outcome (List RoutingTree) := do
  let results ← (part.nets.toList.zipIdx.mapM fun e => settled (g.routeOne part p m e.1 e.2) :
    Checked _)
  (results.mapM id : Except Error _)

end Graph

end HexFabric
