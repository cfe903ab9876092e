import HexFabric.Machine.Capacity

/-! The problem: units of computation, the flows between them, and what ties them to the machine. -/

namespace HexFabric

/-- A unit of computation. Its demand is that of all its atoms and is shared out when it is cut. -/
structure Vertex where
  name : String
  extent : Nat
  demand : Resources
  /-- Cuts are made at multiples of this many atoms. -/
  granularity : Nat := 1
  /-- The most atoms that a slice may have. -/
  maxSlice : Option Nat := none
  deriving DecidableEq

/-- A flow from one vertex to others. -/
structure Net where
  source : Nat
  sinks : List Nat
  weight : Weight := .one
  deriving DecidableEq

/-- Resources withheld from one chip, or from every chip. -/
structure Reservation where
  resources : Resources
  location : Option Chip
  deriving DecidableEq

/-- A problem. Vertices are known by their number. -/
structure Graph where
  vertices : List Vertex
  nets : List Net
  locations : InsertionMap Nat Chip
  /-- The link of its chip on which packets for a vertex leave, if it stands for a device there. -/
  endpoints : InsertionMap Nat Link
  reservations : List Reservation

namespace Graph

def empty : Graph := ⟨[], [], .empty, .empty, []⟩

/-- Adds a vertex; its number is that of the vertices before it. -/
def addVertex (g : Graph) (v : Vertex) : Graph := { g with vertices := g.vertices ++ [v] }

def addNet (g : Graph) (n : Net) : Graph := { g with nets := g.nets ++ [n] }

def locate (g : Graph) (v : Nat) (c : Chip) : Graph :=
  { g with locations := g.locations.insert v c }

/-- Lets packets for a vertex leave on a link of its chip. -/
def endpoint (g : Graph) (v : Nat) (l : Link) : Graph :=
  { g with endpoints := g.endpoints.insert v l }

def reserve (g : Graph) (r : Reservation) : Graph :=
  { g with reservations := g.reservations ++ [r] }

def location? (g : Graph) (v : Nat) : Option Chip := g.locations.get? v

def endpoint? (g : Graph) (v : Nat) : Option Link := g.endpoints.get? v

/-- The machine less what is reserved. -/
def usable (g : Graph) (m : Machine) : Machine :=
  g.reservations.foldl (fun m r => m.reserve r.resources r.location) m

/-! ### Faults -/

def vertexFault? (v : Vertex) : Option GraphFault :=
  if v.extent = 0 then some (.zeroExtent v.name)
  else if v.granularity = 0 then some (.zeroGranularity v.name)
  else if v.maxSlice.any (· < v.granularity) then some (.maxSliceBelowGranularity v.name)
  else none

/-- What is wrong with flow number `i`. -/
def netFault? (g : Graph) (n : Net) (i : Nat) : Option GraphFault :=
  if ¬(n.source < g.vertices.length ∧ ∀ s ∈ n.sinks, s < g.vertices.length) then
    some (.unknownVertexInNet i)
  else if n.sinks = [] then some (.noSinks i)
  else if n.weight.isPositive then none
  else some (.badWeight i n.weight)

/-- What is wrong with pinning vertex `v` to chip `c`. -/
def locationFault? (g : Graph) (m : Machine) (v : Nat) (c : Chip) : Option GraphFault :=
  match g.vertices[v]? with
  | none => some (.unknownVertexLocated v)
  | some vertex => if m.Live c then none else some (.pinnedToMissingChip vertex.name c)

def reservationFault? (m : Machine) (r : Reservation) : Option GraphFault :=
  match r.location with
  | none => none
  | some c => if m.Live c then none else some (.reservedOnMissingChip c)

/-- The first thing wrong with a graph that is to be mapped onto `m`: vertices, then flows, pins,
endpoints and reservations, each in the order in which they were made. -/
def fault? (g : Graph) (m : Machine) : Option GraphFault :=
  ((((g.vertices.findSome? vertexFault?).or
    (g.nets.zipIdx.findSome? fun e => g.netFault? e.1 e.2)).or
    (g.locations.entries.findSome? fun e => g.locationFault? m e.1 e.2)).or
    ((g.endpoints.keys.find? fun v => g.vertices.length ≤ v).map .unknownVertexAtEndpoint)).or
    (g.reservations.findSome? (reservationFault? m))

def validate (g : Graph) (m : Machine) : Except Error Unit :=
  match g.fault? m with
  | none => .ok ()
  | some fault => .error (.invalidGraph fault)

end Graph

end HexFabric
