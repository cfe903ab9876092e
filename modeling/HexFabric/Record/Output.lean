import HexFabric.Pipeline
import HexFabric.Record.Parts

/-! The record of what a run produces. -/

namespace HexFabric

namespace Codec

def slice : Codec Slice :=
  (longWord.pair (longWord.pair (longWord.pair resources))).via
    (fun (vertex, lo, hi, demand) => ⟨vertex, lo, hi, demand⟩)
    fun s => (s.vertex, s.lo, s.hi, s.demand)

def slicedNet : Codec SlicedNet :=
  (longWord.pair (longWord.list.pair (weight.pair longWord))).via
    (fun (source, sinks, weight, origin) => ⟨source, sinks, weight, origin⟩)
    fun n => (n.source, n.sinks, n.weight, n.origin)

def placement : Codec Placement := chip.array.via Placement.mk Placement.chips

def keyLayout : Codec KeyLayout :=
  (word.pair (word.pair word)).via (fun (x, y, index) => ⟨x, y, index⟩)
    fun l => (l.xBits, l.yBits, l.indexBits)

def bitWord : Codec (BitVec 32) := word.via (BitVec.ofNat 32) BitVec.toNat

def pattern : Codec Pattern :=
  (bitWord.pair bitWord).via (fun p => ⟨p.1, p.2⟩) fun p => (p.key, p.mask)

def keyAssignment : Codec KeyAssignment :=
  (keyLayout.pair pattern.array).via (fun p => ⟨p.1, p.2⟩) fun a => (a.layout, a.keys)

def routeSet : Codec RouteSet :=
  (fixed 1).via (fun n => ⟨BitVec.ofNat 8 n⟩) fun r => r.bits.toNat

def entry : Codec Entry :=
  (pattern.pair routeSet).via (fun p => ⟨p.1, p.2⟩) fun e => (e.pattern, e.route)

def routingTables : Codec RoutingTables := insertionMap chip entry.list

def output : Codec Output :=
  (slice.array.pair (slicedNet.array.pair (placement.pair (keyAssignment.pair routingTables)))).via
    (fun (slices, nets, placement, keys, tables) => ⟨slices, nets, placement, keys, tables⟩)
    fun o => (o.slices, o.nets, o.placement, o.keys, o.tables)

end Codec

namespace Output

/-- The contents of the file to which an output is saved; `hasDirectory` says whether there is a
directory for it. -/
def save (o : Output) (hasDirectory : Bool) : Except Error Bytes :=
  if hasDirectory then .ok (Codec.output.write o) else .error (.io .notFound)

/-- The output that was saved to a file with these contents, if there is such a file. What follows
the output is not looked at. -/
def load (contents : Option Bytes) : Except Error Output :=
  match contents with
  | none => .error (.io .notFound)
  | some bytes =>
    match Codec.output.read bytes with
    | .ok (o, _) => .ok o
    | .error fault => .error (.io fault)

end Output

end HexFabric
