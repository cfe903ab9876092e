import HexFabric.Graph
import HexFabric.Record.Parts

/-! The records of machines and graphs. -/

namespace HexFabric

namespace Codec

def topology : Codec Topology :=
  (alternative 2).via (fun n => if n = 0 then .torus else .mesh)
    fun t => if t = .torus then 0 else 1

def insertionSet {α : Type} [DecidableEq α] (c : Codec α) : Codec (InsertionSet α) :=
  c.list.via InsertionSet.ofList InsertionSet.elems

def grid : Codec Grid :=
  (word.pair (word.pair topology)).via (fun (width, height, topology) => ⟨width, height, topology⟩)
    fun g => (g.width, g.height, g.topology)

def blueprint : Codec Blueprint :=
  (grid.pair (resources.pair ((insertionMap chip resources).pair ((insertionSet chip).pair
    ((insertionSet (chip.pair link)).pair (longWord.pair (insertionMap chip longWord))))))).via
    (fun (g, r, exceptions, chips, links, capacity, routers) =>
      ⟨g, r, exceptions, chips, links, capacity, routers⟩)
    fun b => (b.toGrid, b.resources, b.resourceExceptions, b.deadChips, b.deadLinks,
      b.routerCapacity, b.routerExceptions)

def vertex : Codec Vertex :=
  (text.pair (longWord.pair (resources.pair (longWord.pair longWord.optional)))).via
    (fun (name, extent, demand, granularity, maxSlice) =>
      ⟨name, extent, demand, granularity, maxSlice⟩)
    fun v => (v.name, v.extent, v.demand, v.granularity, v.maxSlice)

def net : Codec Net :=
  (longWord.pair (longWord.list.pair weight)).via
    (fun (source, sinks, weight) => ⟨source, sinks, weight⟩) fun n => (n.source, n.sinks, n.weight)

def reservation : Codec Reservation :=
  (resources.pair chip.optional).via (fun p => ⟨p.1, p.2⟩) fun r => (r.resources, r.location)

def graph : Codec Graph :=
  (vertex.list.pair (net.list.pair ((insertionMap longWord chip).pair
    ((insertionMap longWord link).pair reservation.list)))).via
    (fun (vertices, nets, locations, endpoints, reservations) =>
      ⟨vertices, nets, locations, endpoints, reservations⟩)
    fun g => (g.vertices, g.nets, g.locations, g.endpoints, g.reservations)

end Codec

end HexFabric
