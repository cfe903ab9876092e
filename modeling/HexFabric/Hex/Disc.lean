import HexFabric.Hex

/-! The places within so many hops of one place, ring by ring. -/

namespace HexFabric.Hex

/-- The six sides of the ring of radius `r`: where each starts, and the step along it. -/
def sides (r : Nat) : List (Offset × Offset) :=
  let r : Int := r
  [(⟨0, -r⟩, ⟨1, 1⟩), (⟨r, 0⟩, ⟨0, 1⟩), (⟨r, r⟩, ⟨-1, 0⟩), (⟨0, r⟩, ⟨-1, -1⟩), (⟨-r, 0⟩, ⟨0, -1⟩),
    (⟨-r, -r⟩, ⟨1, 0⟩)]

/-- The first `n` places of a side. -/
def side (n : Nat) (start step : Offset) : List Offset :=
  (List.range n).map fun i : Nat => ⟨start.dx + i * step.dx, start.dy + i * step.dy⟩

/-- The places at exactly `r` hops, for a positive `r`, anticlockwise from the one below. -/
def ring (r : Nat) : List Offset := (sides r).flatMap fun s => side r s.1 s.2

/-- The places within `radius` hops, ring by ring from the middle. -/
def disc (radius : Nat) : List Offset :=
  ⟨0, 0⟩ :: (List.range radius).flatMap fun r => ring (r + 1)

/-- The number of places within `radius` hops. -/
def discSize (radius : Nat) : Nat := 1 + 3 * radius * (radius + 1)

/-- There are addresses for all places within `radius` hops, of two words each. -/
def HasRoom (radius : Nat) : Prop := 16 * discSize radius < UInt64.size / 2

instance (radius : Nat) : Decidable (HasRoom radius) :=
  inferInstanceAs (Decidable (16 * discSize radius < UInt64.size / 2))

/-- `disc`, as an array for which room is made at first. -/
def discArray (radius : Nat) : Checked (Array Offset) :=
  if HasRoom radius then .ok (disc radius).toArray else .error .tooLarge

end HexFabric.Hex
