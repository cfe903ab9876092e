import HexFabric.Partition.Build
import HexFabric.Placement.Strategy
import HexFabric.Route.Net
import HexFabric.Table.Build

/-! Mapping a graph onto a machine: cut it up, place the slices, give keys to the nets, route them,
and make the routing tables. The first error ends the run. -/

namespace HexFabric

structure Config where
  strategy : Strategy := .annealing {}
  keys : KeyPolicy := .narrowest
  tables : TableConfig := {}
  /-- Keep one core of every chip free to watch over it. -/
  reserveMonitor : Bool := false

def Config.validate (c : Config) : Except Error Unit := do
  c.strategy.validate
  c.keys.validate

structure Output where
  slices : Array Slice
  nets : Array SlicedNet
  placement : Placement
  keys : KeyAssignment
  tables : RoutingTables

/-- The core that watches over a chip. -/
def monitorCore : Resources := SortedMap.empty.insert .cores 1

namespace Graph

/-- Maps a graph onto a machine. `clock` gives the milliseconds gone by at each step of
annealing. -/
def mapOnto [Build] (g : Graph) (m : Machine) (config : Config) (clock : Nat → Nat) :
    Outcome Output := do
  config.validate
  let usable := if config.reserveMonitor then m.reserve monitorCore none else m
  let part ← g.partition usable
  let placement ← config.strategy.place g part usable clock
  let keys ← part.allocateKeys placement m config.keys
  let trees ← g.route part placement m
  let tables ← RoutingTables.build trees keys m config.tables
  return ⟨part.slices, part.nets, placement, keys, tables⟩

end Graph

end HexFabric
