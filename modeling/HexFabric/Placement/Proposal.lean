import HexFabric.Hex.Disc
import HexFabric.Placement.Cost
import HexFabric.Placement.Occupancy
import HexFabric.Random.Source

/-! Changes to a placement: one slice goes to a chip near its own, and where that is too full, some
of the slices there come back in exchange. -/

namespace HexFabric

structure Move where
  slice : Nat
  origin : Chip
  target : Chip
  deriving DecidableEq

abbrev Proposal : Type := List Move

/-- What stays the same while a placement on machine `m` is improved. -/
structure Annealer (m : Machine) where
  part : Partitioning
  /-- For each slice, the nets that it is a terminal of. -/
  sliceNets : Array (List Nat)
  /-- For each slice, whether its vertex is pinned. -/
  pinned : Array Bool
  /-- The slices whose vertices are not pinned. -/
  movable : Array Nat
  /-- The displacements of moves, ring by ring, the first of them being none. -/
  offsets : Array Offset
  /-- Whether boxes may go round the edges. -/
  wrap : Bool

namespace Annealer

variable {m : Machine} {σ : Type} [WordSource σ]

/-- The number of displacements of at most `limit` hops. -/
def reach (a : Annealer m) (limit : Nat) : Nat := min (Hex.discSize limit) a.offsets.size

/-- The chip to which displacement number `i` leads; there is none over the edge of a mesh. -/
def target (a : Annealer m) (c : Chip) (i : Nat) : Checked (Option Chip) := do
  return m.shift c (← fetch a.offsets i)

/-- The slices that have to leave a chip until `demand` fits what is free there, in the order in
which they came and without the pinned ones: with what is free then and what they demand. -/
def evict (a : Annealer m) (demand : Resources) :
    List Nat → List Nat → Resources → Resources → Checked (List Nat × Resources × Resources)
  | [], evicted, freed, taken => .ok (evicted, freed, taken)
  | s :: rest, evicted, freed, taken => do
    if demand.fitsWithin freed then
      return (evicted, freed, taken)
    else if ← fetch a.pinned s then
      a.evict demand rest evicted freed taken
    else
      let d ← a.part.demandOf s
      a.evict demand rest (evicted ++ [s]) (freed.add d) (taken.add d)

/-- The moves that bring a slice from `origin` to `target`, which are different live chips, if
there are any that leave room for all. -/
def exchange (a : Annealer m) (o : Occupancy m) (s : Nat) (origin target : Chip) :
    Checked (Option Proposal) := do
  let demand ← a.part.demandOf s
  if ← o.fits target demand then
    return some [⟨s, origin, target⟩]
  let (evicted, freed, taken) ←
    a.evict demand (← o.residentsOf target) [] (← o.remaining target) .none
  if demand.fitsWithin freed && taken.fitsWithin ((← o.remaining origin).add demand) then
    return some (⟨s, origin, target⟩ :: evicted.map fun r => ⟨r, target, origin⟩)
  else
    return none

/-- The moves that take a slice along displacement number `i`, if there are any. The displacement is
one of at most `limit` hops. -/
def moveAlong [Build] (a : Annealer m) (o : Occupancy m) (limit s i : Nat) :
    Checked (Option Proposal) := do
  let origin ← o.location s
  match ← a.target origin i with
  | none => return none
  | some target =>
    if target = origin ∨ ¬m.Live target then return none
    else
      assert (m.distance origin target ≤ limit) .farTarget
      a.exchange o s origin target

/-- Draws a slice and a displacement of at most `limit` hops. -/
def propose [Build] (a : Annealer m) (o : Occupancy m) (limit : Nat) (random : σ) :
    Checked (Option Proposal × σ) := do
  let (i, random) ← WordSource.draw 0 a.movable.size random
  let (j, random) ← WordSource.draw 1 (a.reach limit) random
  return (← a.moveAlong o limit (← fetch a.movable i) j, random)

def touched (a : Annealer m) (p : Proposal) : Checked (List Nat) := do
  return Ascending.ofList (← p.mapM fun move => fetch a.sliceNets move.slice).flatten

/-- The chip of a slice once a proposal is made. -/
def locationAfter (o : Occupancy m) (p : Proposal) (s : Nat) : Checked Chip :=
  match p.find? (·.slice = s) with
  | some move => .ok move.target
  | none => o.location s

def delta (a : Annealer m) (o : Occupancy m) (p : Proposal) : Checked Float := do
  (← a.touched p).foldlM (fun sum i => do
    let net ← fetch a.part.nets i
    let after ← net.cost m.toGrid a.wrap (locationAfter o p)
    let before ← net.cost m.toGrid a.wrap o.location
    return sum + (after - before)) 0

def lift (a : Annealer m) : Proposal → Occupancy m → Checked (Occupancy m)
  | [], o => .ok o
  | move :: rest, o => do a.lift rest (← o.unassign move.slice (← a.part.demandOf move.slice))

/-- Puts the moving slices on the chips that `chip` says. -/
def drop (a : Annealer m) (chip : Move → Chip) : Proposal → Occupancy m → Checked (Occupancy m)
  | [], o => .ok o
  | move :: rest, o => do
    a.drop chip rest (← o.assign move.slice (chip move) (← a.part.demandOf move.slice))

/-- Every chip that a proposal touches bears no more than it offers. -/
def bearable (o : Occupancy m) (p : Proposal) : Checked Bool :=
  p.allM fun move => do
    if ← o.withinCapacity move.origin then o.withinCapacity move.target else return false

/-- Makes a proposal, and takes it back if a chip cannot bear it. Says whether it stands. -/
def commit (a : Annealer m) (o : Occupancy m) (p : Proposal) : Checked (Bool × Occupancy m) := do
  let moved ← a.drop (·.target) p (← a.lift p o)
  if ← bearable moved p then
    return (true, moved)
  else
    return (false, ← a.drop (·.origin) p (← a.lift p moved))

end Annealer

end HexFabric
