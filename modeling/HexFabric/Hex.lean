import HexFabric.Defect

/-! Vectors and distances on the hexagonal grid. The links give three axes: x, y, and a third along
which one hop takes one from both x and y. So the vectors that lead to one place differ by multiples
of (1, 1, 1), and the shortest of them have two components at most, of opposite signs. -/

namespace HexFabric

structure Hex where
  x : Int
  y : Int
  z : Int
  deriving DecidableEq

namespace Hex

def ofChip (c : Chip) : Hex := ⟨c.x, c.y, 0⟩

instance : Sub Hex := ⟨fun a b => ⟨a.x - b.x, a.y - b.y, a.z - b.z⟩⟩

/-- The vector with median zero that leads to the same place as `v`. -/
def minimise (v : Hex) : Hex :=
  let m := max (min v.x v.y) (min (max v.x v.y) v.z)
  ⟨v.x - m, v.y - m, v.z - m⟩

/-- The range of the components, which is the number of hops of the shortest way there. -/
def spread (v : Hex) : Int := max (max v.x v.y) v.z - min (min v.x v.y) v.z

/-! ### Without wrap-around links -/

/-- The number of hops from `a` to `b` on a grid without edges. -/
def meshLength (a b : Hex) : Int := (b - a).spread

/-- A shortest vector from `a` to `b` on a grid without edges. -/
def meshPath (a b : Hex) : Hex := (b - a).minimise

/-! ### With wrap-around links -/

/-- How far `b` is to the east of `a`, once round a ring of `width` at most. -/
def eastward (a b : Hex) (width : Int) : Int := ((b.x - b.z) - (a.x - a.z)) % width

/-- How far `b` is to the north of `a`, once round a ring of `height` at most. -/
def northward (a b : Hex) (height : Int) : Int := ((b.y - b.z) - (a.y - a.z)) % height

/-- The number of hops from `a` to `b` on a torus: the best of going round neither edge, one of
them, or both. -/
def torusLength (a b : Hex) (width height : Int) : Int :=
  let x := eastward a b width
  let y := northward a b height
  min (min (max x y) (width - x + y)) (min (x + height - y) (max (width - x) (height - y)))

/-- The earlier of two ways, unless the later one takes fewer hops. -/
def shorter (p q : Int × Hex) : Int × Hex := if q.1 < p.1 then q else p

/-- A shortest vector from `a` to `b` on a torus. Of several equally short ways it takes the first
of: round neither edge, round x, round y, round both. -/
def torusPath (a b : Hex) (width height : Int) : Hex :=
  let x := eastward a b width
  let y := northward a b height
  let direct := (max x y, ⟨x, y, 0⟩)
  let roundX := (width - x + y, ⟨x - width, y, 0⟩)
  let roundY := (x + height - y, ⟨x, y - height, 0⟩)
  let roundBoth := (max (width - x) (height - y), ⟨x - width, y - height, 0⟩)
  (shorter (shorter (shorter direct roundX) roundY) roundBoth).2.minimise

/-- `f`, unless a ring has no length. -/
def onTorus {α : Type} (width height : Int) (f : α) : Checked α :=
  if width = 0 ∨ height = 0 then .error .divisionByZero else .ok f

def torusLength? (a b : Hex) (width height : Int) : Checked Int :=
  onTorus width height (torusLength a b width height)

def torusPath? (a b : Hex) (width height : Int) : Checked Hex :=
  onTorus width height (torusPath a b width height)

end Hex

end HexFabric
