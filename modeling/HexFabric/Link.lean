/-! The six links that leave a chip, and the step across the grid that each of them takes. -/

namespace HexFabric

structure Offset where
  dx : Int
  dy : Int
  deriving DecidableEq

/-- A link leaving a chip. Links are numbered anticlockwise from east, so the opposite of a link is
the one three numbers further round. -/
inductive Link where
  | east
  | northEast
  | north
  | west
  | southWest
  | south
  deriving DecidableEq

namespace Link

def all : List Link := [east, northEast, north, west, southWest, south]

def index : Link → Nat
  | east => 0
  | northEast => 1
  | north => 2
  | west => 3
  | southWest => 4
  | south => 5

/-- The link with number `n`, counted round and round. -/
def ofIndex (n : Nat) : Link :=
  match n % 6 with
  | 0 => east
  | 1 => northEast
  | 2 => north
  | 3 => west
  | 4 => southWest
  | _ => south

/-- The link by which a packet that leaves on `l` arrives at the far end. -/
def opposite (l : Link) : Link := ofIndex (l.index + 3)

def step : Link → Offset
  | east => ⟨1, 0⟩
  | northEast => ⟨1, 1⟩
  | north => ⟨0, 1⟩
  | west => ⟨-1, 0⟩
  | southWest => ⟨-1, -1⟩
  | south => ⟨0, -1⟩

/-- A component of more than one hop went round the edge, and so the other way. -/
def unwrap (v : Int) : Int := if 1 < v.natAbs then -v.sign else v

/-- The link from a chip to the neighbour that is `d` away, where a component of more than one hop
is taken to have gone round the edge. -/
def ofOffset? (d : Offset) : Option Link :=
  all.find? fun l => l.step = ⟨unwrap d.dx, unwrap d.dy⟩

def name : Link → String
  | east => "east"
  | northEast => "north_east"
  | north => "north"
  | west => "west"
  | southWest => "south_west"
  | south => "south"

instance : ToString Link := ⟨name⟩

instance : LT Link := ⟨fun a b => a.index < b.index⟩

instance : DecidableLT Link := fun a b => inferInstanceAs (Decidable (a.index < b.index))

@[simp] theorem mem_all (l : Link) : l ∈ all := by cases l <;> decide

@[simp] theorem ofIndex_index (l : Link) : ofIndex l.index = l := by cases l <;> rfl

@[simp] theorem opposite_opposite (l : Link) : l.opposite.opposite = l := by cases l <;> rfl

end Link

end HexFabric
