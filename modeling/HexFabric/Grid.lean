import HexFabric.Hex

/-! The ideal grid: all chips and links there, and its edges joined or not. -/

namespace HexFabric

inductive Topology where
  /-- Coordinates go round. -/
  | torus
  /-- Links over an edge do not exist. -/
  | mesh
  deriving DecidableEq

structure Grid where
  width : Nat
  height : Nat
  topology : Topology
  deriving DecidableEq

namespace Grid

/-- A chip has a place on the grid. -/
def Has (g : Grid) (c : Chip) : Prop := c.x < g.width ∧ c.y < g.height

instance (g : Grid) (c : Chip) : Decidable (g.Has c) :=
  inferInstanceAs (Decidable (c.x < g.width ∧ c.y < g.height))

/-- All chips, in the order of the scan. -/
def chips (g : Grid) : List Chip :=
  (List.range g.width).flatMap fun x => (List.range g.height).map fun y => ⟨x, y⟩

/-- The number of chips. -/
def size (g : Grid) : Nat := g.width * g.height

/-- How many cells are kept for the chips. The number is a 32-bit word, so that it goes round where
there are too many chips for one. -/
def cells (g : Grid) : Nat := g.size % UInt32.size

/-- The cell of a chip, by columns, as a 32-bit word. Chips have different cells, and all of them are
kept, as long as the number of chips is a word as well. -/
def cell (g : Grid) (c : Chip) : Nat := (c.x * g.height + c.y) % UInt32.size

/-- The chip that is `d` away from `c`; there is none over the edge of a mesh. On a torus both
sides must have a length. -/
def shift (g : Grid) (c : Chip) (d : Offset) : Option Chip :=
  let x := c.x + d.dx
  let y := c.y + d.dy
  match g.topology with
  | .torus => some ⟨(x % g.width).toNat, (y % g.height).toNat⟩
  | .mesh =>
    if 0 ≤ x ∧ x < g.width ∧ 0 ≤ y ∧ y < g.height then some ⟨x.toNat, y.toNat⟩ else none

/-- The chip at the far end of a link. -/
def neighbour (g : Grid) (c : Chip) (l : Link) : Option Chip := g.shift c l.step

/-- `neighbour`, on a grid that may have no chips. -/
def neighbour? (g : Grid) (c : Chip) (l : Link) : Checked (Option Chip) :=
  if g.topology = .torus ∧ (g.width = 0 ∨ g.height = 0) then .error .divisionByZero
  else .ok (g.neighbour c l)

/-- The number of hops from `a` to `b`, as a 32-bit word. -/
def distance (g : Grid) (a b : Chip) : Nat :=
  let hops := match g.topology with
    | .torus => Hex.torusLength (.ofChip a) (.ofChip b) g.width g.height
    | .mesh => Hex.meshLength (.ofChip a) (.ofChip b)
  (BitVec.ofNat 32 hops.toNat).toNat

end Grid

end HexFabric
