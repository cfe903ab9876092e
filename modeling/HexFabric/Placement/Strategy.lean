import HexFabric.Placement.Annealing
import HexFabric.Random.Cipher

/-! The ways to place a graph. -/

namespace HexFabric

inductive Strategy where
  /-- By falling demand, each on the first chip with room. -/
  | firstFit
  /-- The same, improved by annealing. -/
  | annealing (config : AnnealingConfig)

namespace Graph

def anneal [Build] (g : Graph) (part : Partitioning) (m : Machine) (config : AnnealingConfig)
    (clock : Nat → Nat) : Outcome Placement := do
  config.validate
  let initial ← g.firstFit part m
  (g.improve part (g.usable m) config clock (Cipher.Stream.ofSeed config.seed) initial :
    Checked Placement)

end Graph

namespace Strategy

def validate : Strategy → Except Error Unit
  | firstFit => .ok ()
  | annealing config => config.validate

/-- Places the slices of a graph. `clock` gives the milliseconds gone by at each step. -/
def place [Build] (s : Strategy) (g : Graph) (part : Partitioning) (m : Machine) (clock : Nat → Nat) :
    Outcome Placement := do
  let placement ← match s with
    | firstFit => g.firstFit part m
    | annealing config => g.anneal part m config clock
  if ← placement.isValid part (g.usable m) then return placement
  else throw (.defect .overfullPlacement)

end Strategy

end HexFabric
