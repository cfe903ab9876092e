import HexFabric.InsertionSet
import HexFabric.Route.Search
import HexFabric.Route.Tree

/-! Routing one net: the ways that a search has found back from the destinations make a tree. -/

namespace HexFabric

/-- One hop of a way: to `chip`, from `origin` over its link `link`. -/
structure Hop where
  chip : Chip
  origin : Chip
  link : Link

structure Growth where
  nodes : Array RouteNode
  /-- The node of each chip, by cell, if it has one. -/
  nodeOf : Array (Option Nat)

namespace Growth

def root (g : Grid) (source : Chip) : Checked Growth := do
  return ⟨#[.leaf source none],
    ← store (Array.replicate g.cells none) (g.cell source) (some 0)⟩

/-- The hops that lead from the tree to a chip, in front of those in `way`. The search has come to
every chip from one that it saw before, so there are no more hops than `fuel`, the number of
chips. -/
def trace (g : Grid) (marks : Array Mark) (t : Growth) :
    Nat → Chip → List Hop → Checked (List Hop)
  | 0, chip, _ => .error (.parentless chip)
  | fuel + 1, chip, way => do
    match ← fetch t.nodeOf (g.cell chip) with
    | some _ => return way
    | none =>
      match ← fetch marks (g.cell chip) with
      | .via origin link => trace g marks t fuel origin (⟨chip, origin, link⟩ :: way)
      | _ => throw (.parentless chip)

/-- The number of the node of a chip in the tree. -/
def nodeAt (g : Grid) (t : Growth) (c : Chip) : Checked Nat := do
  match ← fetch t.nodeOf (g.cell c) with
  | some i => return i
  | none => throw .indexOutOfRange

/-- Adds the chip to which one hop leads from the tree. -/
def extend (g : Grid) (t : Growth) (hop : Hop) : Checked Growth := do
  let parent ← t.nodeAt g hop.origin
  let ⟨nodes, nodeOf⟩ := t
  let id := nodes.size
  let nodes ← adjust (nodes.push (.leaf hop.chip (some hop.link.opposite))) parent
    (·.addChild hop.link id)
  return ⟨nodes, ← store nodeOf (g.cell hop.chip) (some id)⟩

def reach (g : Grid) (marks : Array Mark) (t : Growth) (chip : Chip) : Checked Growth := do
  (← t.trace g marks (g.size + 1) chip []).foldlM (extend g) t

/-- Notes a delivery at the node of its chip. -/
def deliver (g : Grid) (t : Growth) (d : Destination) : Checked Growth := do
  let i ← t.nodeAt g d.chip
  let ⟨nodes, nodeOf⟩ := t
  return ⟨← adjust nodes i (·.deliver d), nodeOf⟩

end Growth

namespace Machine

/-- Routes a net from its source chip to its destinations over shortest ways. Of several shortest
ways to a chip it takes the one that breadth-first search finds first, with links in the order of
their numbers. -/
def routeNet (m : Machine) (net : Nat) (source : Chip) (destinations : InsertionSet Destination) :
    Outcome RoutingTree := do
  let sinks := (InsertionSet.ofList (destinations.elems.map (·.chip))).elems
  let search ← Search.fromSource m source sinks
  match ← (search.firstUnseen m sinks : Checked _) with
  | some sink => fail (.unroutable net source sink)
  | none =>
    let grown ← (sinks.foldlM (Growth.reach m.toGrid search.marks) (← Growth.root m.toGrid source) :
      Checked Growth)
    let done ← (destinations.elems.foldlM (Growth.deliver m.toGrid) grown : Checked Growth)
    return ⟨net, done.nodes.map (·.tidy)⟩

end Machine

end HexFabric
