import HexFabric.Key.Allocation
import HexFabric.Route.Tree
import HexFabric.Table.Entry

/-! The entries that routing trees call for on each chip. -/

namespace HexFabric

/-- Where a packet goes from a node of a routing tree. -/
def RouteNode.route (n : RouteNode) : RouteSet :=
  let onward := (n.children.map (·.1) ++ n.exits).foldl .withLink .empty
  if n.isLocal then onward.withLocal else onward

/-- An entry with the link on which packets for it come in, none at their source. -/
structure TreeEntry where
  entry : Entry
  arrivedOn : Option Link
  deriving DecidableEq

namespace TreeEntry

def ofNode (key : Pattern) (n : RouteNode) : TreeEntry :=
  ⟨⟨.of key.key key.mask, n.route⟩, n.arrivedOn⟩

/-- Packets leave on the link opposite the one they came in on, and nowhere else. -/
def isStraight (e : TreeEntry) : Bool :=
  match e.arrivedOn, e.entry.route.singleLink? with
  | some came, some goes => goes = came.opposite
  | _, _ => false

end TreeEntry

/-- The entries of each chip, in the order of nets. -/
abbrev EntriesByChip : Type := SortedMap Chip (List TreeEntry)

namespace EntriesByChip

/-- Adds the entry that a node calls for, unless it is there. An entry with the same pattern must
have the same route. -/
def addNode (key : Pattern) (t : EntriesByChip) (n : RouteNode) : Except Error EntriesByChip :=
  let new := TreeEntry.ofNode key n
  let present := (t.get? n.chip).getD []
  match present.find? fun e => e.entry.pattern = new.entry.pattern with
  | some e =>
    if e.entry.route = new.entry.route then .ok t
    else .error (.multisourceRoute new.entry.pattern.key new.entry.pattern.mask n.chip)
  | none => .ok (t.insert n.chip (present ++ [new]))

def addTree (keys : KeyAssignment) (t : EntriesByChip) (tree : RoutingTree) :
    Outcome EntriesByChip := do
  let key ← keys.keyOf tree.net
  (tree.nodes.toList.foldlM (addNode key) t : Except Error _)

def ofTrees (keys : KeyAssignment) (trees : List RoutingTree) : Outcome EntriesByChip :=
  trees.foldlM (addTree keys) SortedMap.empty

end EntriesByChip

/-- Some other of the entries accepts a key that `e` accepts. -/
def isShadowed (entries : List TreeEntry) (e : TreeEntry × Nat) : Bool :=
  entries.zipIdx.any fun o => o.2 ≠ e.2 && o.1.entry.pattern.overlaps e.1.entry.pattern

/-- Leaves out entries that do what is done by default, where no other entry could accept their
keys. -/
def elideDefaults (entries : List TreeEntry) : List TreeEntry :=
  (entries.zipIdx.filter fun e => !e.1.isStraight || isShadowed entries e).map (·.1)

end HexFabric
