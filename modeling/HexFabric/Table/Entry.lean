import HexFabric.Key.Pattern
import HexFabric.Table.RouteSet

/-! Routing tables. A router takes the first entry whose pattern accepts the key of a packet, and a
packet that no entry accepts leaves on the link opposite the one it came in on. -/

namespace HexFabric

structure Entry where
  pattern : Pattern
  route : RouteSet
  deriving DecidableEq

/-- The route that a table gives a key; none if the key is left to the default. -/
def lookup (table : List Entry) (key : BitVec 32) : Option RouteSet :=
  (table.find? (·.pattern.accepts key)).map (·.route)

end HexFabric
