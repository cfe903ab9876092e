import HexFabric.Chip
import HexFabric.Defect

/-! Routing trees: the way of a packet from its source chip to all its destinations. -/

namespace HexFabric

inductive Destination where
  | cores (chip : Chip)
  /-- A device on a link of a chip. -/
  | device (chip : Chip) (link : Link)
  deriving DecidableEq

/-- The chip to which packets for a destination go. -/
def Destination.chip : Destination → Chip
  | cores c => c
  | device c _ => c

structure RouteNode where
  chip : Chip
  /-- The link of this chip on which the packet comes in; none at the source. -/
  arrivedOn : Option Link
  /-- The links on which it goes on, by number, each with the node it leads to. -/
  children : List (Link × Nat)
  /-- The packet is delivered to the cores of this chip. -/
  isLocal : Bool
  /-- The links of devices to which it is delivered, by number. -/
  exits : List Link
  deriving DecidableEq

/-- The routing tree of a net. Its first node is the source chip, and a child comes after its
parent. -/
structure RoutingTree where
  net : Nat
  nodes : Array RouteNode
  deriving DecidableEq

namespace RouteNode

/-- The node of a chip before anything is known to go on from it. -/
def leaf (c : Chip) (arrivedOn : Option Link) : RouteNode := ⟨c, arrivedOn, [], false, []⟩

def addChild (n : RouteNode) (l : Link) (child : Nat) : RouteNode :=
  { n with children := n.children ++ [(l, child)] }

def deliver (n : RouteNode) : Destination → RouteNode
  | .cores _ => { n with isLocal := true }
  | .device _ l => { n with exits := n.exits ++ [l] }

/-- `a` comes no later than `b` among the children of a node. -/
def childLe (a b : Link × Nat) : Bool := a.1 < b.1 ∨ a.1 = b.1 ∧ a.2 ≤ b.2

/-- Brings children and exits into order, and lists each exit once. -/
def tidy (n : RouteNode) : RouteNode :=
  { n with children := n.children.mergeSort childLe, exits := Ascending.ofList n.exits }

end RouteNode

namespace RoutingTree

/-- The number of links that a packet takes. -/
def hops (t : RoutingTree) : Nat := t.nodes.toList.foldr (fun n rest => n.children.length + rest) 0

/-- Notes that the children of a node are one hop further than the node. -/
def deepen (depth : Nat) (children : List (Link × Nat)) (depths : Array Nat) :
    Checked (Array Nat) :=
  children.foldlM (fun depths child => store depths child.2 (depth + 1)) depths

def depths (t : RoutingTree) : Checked (Array Nat) :=
  t.nodes.toList.zipIdx.foldlM (fun depths e => do
    deepen (← fetch depths e.2) e.1.children depths) (Array.replicate t.nodes.size 0)

/-- The chips to whose cores packets are delivered, in the order of nodes. -/
def sinkChips (t : RoutingTree) : List Chip :=
  (t.nodes.toList.filter (·.isLocal)).map (·.chip)

end RoutingTree

end HexFabric
