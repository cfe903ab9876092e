import HexFabric.Main
import HexFabric.Hex.Disc
import HexFabric.Record.Problem
import HexFabric.Table.Equivalence
import HexFabric.Proofs.Table.Equivalence
import HexFabric.Proofs.Partition.Infeasible
import HexFabric.Proofs.Key.Width
import HexFabric.Proofs.Pipeline.Minimise
import HexFabric.Proofs.Pipeline.Monitor
import HexFabric.Proofs.Pipeline.Tables
import HexFabric.Proofs.Grid.Distance
import HexFabric.Proofs.Table.Elision
import HexFabric.Proofs.Record.Output
import HexFabric.Proofs.Machine.Subset
import HexFabric.Proofs.Placement.Exchange
import HexFabric.Proofs.Placement.Shortage
import HexFabric.Proofs.Partition.Incidence
import HexFabric.Proofs.Partition.Nets
import HexFabric.Proofs.Table.Fixpoint
import HexFabric.Proofs.Route.Agreement
import HexFabric.Proofs.Placement.Rejection
import HexFabric.Proofs.Placement.Delta
import HexFabric.Proofs.Machine.Paired
import HexFabric.Proofs.Placement.Target
import HexFabric.Proofs.Table.Reorder
import HexFabric.Proofs.Table.Refusal
import HexFabric.Proofs.Hex.Path
import HexFabric.Proofs.Hex.Spiral
import HexFabric.Proofs.Span
import HexFabric.Proofs.Key.Decode
import HexFabric.Proofs.Grid.Neighbour
import HexFabric.Proofs.Partition.Share
import HexFabric.Proofs.Placement.Ledger
import HexFabric.Proofs.Resources.Ratio
import HexFabric.Proofs.Hex.Canonical
