import HexFabric.Table.Collect
import HexFabric.Table.Equivalence
import HexFabric.Table.Merge

/-! The routing tables of a machine. -/

namespace HexFabric

structure TableConfig where
  minimise : Bool := true
  /-- Leave out entries that do what is done by default. -/
  elide : Bool := false

/-- The entries for which a table is made. -/
def TableConfig.kept (config : TableConfig) (entries : List TreeEntry) : List TreeEntry :=
  if config.elide then elideDefaults entries else entries

/-- The tables of chips, in the order of the scan. -/
abbrev RoutingTables : Type := InsertionMap Chip (List Entry)

namespace RoutingTables

/-- The table of a chip from its entries, by mask and key. -/
def tableOf (config : TableConfig) (entries : List TreeEntry) : List Entry :=
  let plain := (config.kept entries).map (·.entry)
  let table := if config.minimise then minimise plain else plain
  table.mergeSort fun a b => ¬b.pattern < a.pattern

/-- No route changes where the entries of a chip are merged. -/
def MergesAlike (config : TableConfig) (entries : List TreeEntry) : Prop :=
  let plain := (config.kept entries).map (·.entry)
  config.minimise → tablesEquivalent plain (minimise plain)

instance (config : TableConfig) (entries : List TreeEntry) : Decidable (MergesAlike config entries) :=
  inferInstanceAs (Decidable (_ → _))

/-- The table of a chip, if its router holds that many entries. -/
def checkedTable [Build] (m : Machine) (config : TableConfig) (e : Chip × List TreeEntry) :
    Outcome (Chip × List Entry) := do
  assert (MergesAlike config e.2) (.misrouting e.1)
  let table := tableOf config e.2
  if m.routerLimit e.1 < table.length then
    fail (.routingTableOverflow e.1 table.length (m.routerLimit e.1))
  else
    return (e.1, table)

/-- The tables of all chips that need one. -/
def build [Build] (trees : List RoutingTree) (keys : KeyAssignment) (m : Machine)
    (config : TableConfig) : Outcome RoutingTables := do
  let collected ← EntriesByChip.ofTrees keys trees
  let tables ← collected.entries.mapM (checkedTable m config)
  return .ofList (tables.filter fun e => e.2 ≠ [])

end RoutingTables

end HexFabric
