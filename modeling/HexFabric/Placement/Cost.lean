import HexFabric.Placement
import HexFabric.Span

/-! What it costs to have the terminals of nets apart. -/

namespace HexFabric

/-- Half the circumference of the smallest box around some chips; with `wrap` the box may go round
the edges of the grid. -/
def Grid.boxAround (g : Grid) (wrap : Bool) (chips : List Chip) : Nat :=
  Span.cover (chips.map (·.x)) (if wrap then some g.width else none) +
    Span.cover (chips.map (·.y)) (if wrap then some g.height else none)

/-- The cost of a net: the box around its terminals, scaled by its weight and by the square root of
the number of terminals. -/
def SlicedNet.cost (n : SlicedNet) (g : Grid) (wrap : Bool) (chipOf : Nat → Checked Chip) :
    Checked Float := do
  if n.sinks = [] then
    return 0
  let chips ← (n.source :: n.sinks).mapM chipOf
  return (g.boxAround wrap chips).toUInt64.toFloat * n.weight.toFloat *
    (n.sinks.length + 1).toUInt64.toFloat.sqrt

namespace Placement

/-- A box may go round the edges if at least nine in ten of the links there work. -/
def wrapThreshold : Float := 0.9

/-- The cost of all nets together, added in their order. -/
def cost (p : Placement) (part : Partitioning) (m : Machine) : Checked Float :=
  let wrap := m.wraps wrapThreshold
  part.nets.toList.foldlM (fun sum n => do
    return sum + (← n.cost m.toGrid wrap p.chipOf)) 0

end Placement

end HexFabric
