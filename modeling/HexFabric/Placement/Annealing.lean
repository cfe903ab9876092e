import HexFabric.Placement.FirstFit
import HexFabric.Placement.Proposal

/-! Improving a placement by simulated annealing. Each step draws some proposals, and the first of
them that is accepted is made: always if it does not raise the cost, else by chance, and the less
often the more it costs and the later it is. The best placement met is kept. -/

namespace HexFabric

structure AnnealingConfig where
  seed : UInt64 := 8026727
  iterations : Nat := 20000
  initialTemperature : Float := 10
  /-- The temperature after the last step; cooling is geometric. -/
  finalTemperature : Float := 0.01
  /-- Stop once this many milliseconds have gone by. -/
  deadline : Option Nat := none
  candidates : Nat := 1
  /-- The most hops of a move at the start, instead of the longer side of the machine. It falls
  to one by the end. -/
  distanceLimit : Option Nat := none

namespace AnnealingConfig

def fault? (c : AnnealingConfig) : Option ConfigFault :=
  let hot := c.initialTemperature
  let cold := c.finalTemperature
  if c.iterations = 0 then some .noIterations
  else if ¬(hot.isFinite ∧ 0 < hot) then some .initialTemperature
  else if ¬(cold.isFinite ∧ 0 < cold ∧ cold ≤ hot) then some .finalTemperature
  else if c.candidates = 0 then some .noCandidates
  else if c.distanceLimit = some 0 then some .distanceLimit
  else none

def validate (c : AnnealingConfig) : Except Error Unit :=
  match c.fault? with
  | none => .ok ()
  | some fault => .error (.invalidConfig fault)

/-- How far annealing has come before step `it`, from zero to one. -/
def progress (c : AnnealingConfig) (it : Nat) : Float :=
  it.toUInt64.toFloat / c.iterations.toUInt64.toFloat

def temperature (c : AnnealingConfig) (it : Nat) : Float :=
  c.initialTemperature * (c.finalTemperature / c.initialTemperature) ^ c.progress it

/-- The most hops of a move at step `it`, out of `most` at the start. -/
def limit (c : AnnealingConfig) (most it : Nat) : Nat :=
  max (most.toUInt64.toFloat * (1 - c.progress it)).ceil.toUInt32.toNat 1

/-- The clock is read every 64 steps. -/
def expired (c : AnnealingConfig) (clock : Nat → Nat) (it : Nat) : Bool :=
  it % 64 == 0 && c.deadline.any (· ≤ clock it)

end AnnealingConfig

namespace Annealer

structure Run (m : Machine) (σ : Type) where
  occupancy : Occupancy m
  random : σ
  cost : Float
  best : Placement
  bestCost : Float

variable [Build] {m : Machine} {σ : Type} [WordSource σ]

/-- Draws `n` times, and keeps the draws that led to a proposal. -/
def proposals (a : Annealer m) (o : Occupancy m) (limit : Nat) :
    Nat → σ → Checked (List Proposal × σ)
  | 0, random => .ok ([], random)
  | n + 1, random => do
    let (first, random) ← a.propose o limit random
    let (rest, random) ← a.proposals o limit n random
    return (first.toList ++ rest, random)

/-- Whether a change of cost is accepted. A number is drawn only if the cost rises. -/
def accepts (temperature delta : Float) (random : σ) : Bool × σ :=
  if delta ≤ 0 then (true, random)
  else
    let (u, random) := WordSource.unit random
    (u < (-delta / temperature).exp, random)

/-- A cost has to fall below the best one by more than this to count as better. -/
def improvement : Float := 1e-9

/-- Notes the placement reached, if it is the best so far. -/
def note (r : Run m σ) : Checked (Run m σ) := do
  if r.cost < r.bestCost - improvement then
    return { r with best := ← r.occupancy.toPlacement, bestCost := r.cost }
  else
    return r

/-- Makes the first of some proposals that is accepted and stands. -/
def settle (a : Annealer m) (temperature : Float) : List Proposal → Run m σ → Checked (Run m σ)
  | [], r => .ok r
  | p :: rest, ⟨occupancy, random, cost, best, bestCost⟩ => do
    let delta ← a.delta occupancy p
    let (accepted, random) := accepts temperature delta random
    if accepted then
      let (stands, occupancy) ← a.commit occupancy p
      if stands then note ⟨occupancy, random, cost + delta, best, bestCost⟩
      else a.settle temperature rest ⟨occupancy, random, cost, best, bestCost⟩
    else
      a.settle temperature rest ⟨occupancy, random, cost, best, bestCost⟩

def step (a : Annealer m) (config : AnnealingConfig) (most it : Nat) (r : Run m σ) :
    Checked (Run m σ) := do
  let (proposals, random) ←
    a.proposals r.occupancy (config.limit most it) config.candidates r.random
  a.settle (config.temperature it) proposals { r with random }

/-- The last `remaining` steps. -/
def run (a : Annealer m) (config : AnnealingConfig) (clock : Nat → Nat) (most : Nat) :
    Nat → Run m σ → Checked (Run m σ)
  | 0, r => .ok r
  | remaining + 1, r => do
    let it := config.iterations - (remaining + 1)
    if config.expired clock it then return r
    else a.run config clock most remaining (← a.step config most it r)

end Annealer

namespace Graph

/-- What the annealing of a graph needs to know; moves go `most` hops at first. -/
def annealer (g : Graph) (part : Partitioning) (m : Machine) (most : Nat) :
    Checked (Annealer m) := do
  let pinned := part.slices.map fun s => (g.location? s.vertex).isSome
  return {
    part
    sliceNets := ← part.sliceNets
    pinned
    movable := ((g.freeSlices part).map (·.2)).toArray
    offsets := ← Hex.discArray most
    wrap := m.wraps Placement.wrapThreshold }

/-- Improves a placement on the usable machine with random words from `random`, unless nothing can
move or nothing would be gained. -/
def improve [Build] {σ : Type} [WordSource σ] (g : Graph) (part : Partitioning) (m : Machine)
    (config : AnnealingConfig) (clock : Nat → Nat) (random : σ) (initial : Placement) :
    Checked Placement := do
  if g.freeSlices part = [] ∨ part.nets.size = 0 ∨ m.liveChips.length < 2 then
    return initial
  let most := config.distanceLimit.getD (max m.width m.height)
  let a ← g.annealer part m most
  let occupancy ← Occupancy.ofPlacement m part initial
  let cost ← initial.cost part m
  let last ← a.run config clock most config.iterations ⟨occupancy, random, cost, initial, cost⟩
  -- Changes of cost add up to little errors, so the costs are compared afresh.
  if cost < (← last.best.cost part m) then return initial else return last.best

end Graph

end HexFabric
