import HexFabric.Proofs.Pipeline
import HexFabric.Proofs.Table.Transparent

/-! Whole runs with tables minimised or not. Options for tables come into a run only when tables
are built, and by then nets share no packets, so tables are minimised without any effect but on
their length: `Graph.mapOnto_minimise`. -/

namespace HexFabric

/-- The same options with tables minimised or not. -/
def Config.withMinimise (config : Config) (minimise : Bool) : Config :=
  { config with tables := config.tables.withMinimise minimise }

/-- A run that ends in an output without minimising tables does so when it minimises them, with the
same readings of the clock. Slices, nets, placement and keys are the same. The same chips have tables,
in the same order, none longer, and every key is looked up as before. -/
theorem Graph.mapOnto_minimise [Build] {g : Graph} {m : Machine} {config : Config} {clock : Nat → Nat}
    {out : Output} (h : g.mapOnto m (config.withMinimise false) clock = .ok out) :
    ∃ shorter, g.mapOnto m (config.withMinimise true) clock = .ok shorter ∧
      shorter.slices = out.slices ∧ shorter.nets = out.nets ∧ shorter.placement = out.placement ∧
      shorter.keys = out.keys ∧ shorter.tables.keys = out.tables.keys ∧
      ∀ c, (shorter.tables.tableAt c).length ≤ (out.tables.tableAt c).length ∧
        ∀ w, lookup (shorter.tables.tableAt c) w = lookup (out.tables.tableAt c) w := by
  obtain ⟨d, hdraft, tables, hbuild, rfl⟩ := mapOnto_eq_ok.1 h
  obtain ⟨shorter, hshorter, hchips, htables⟩ := (Draft.unshared hdraft).build_minimise hbuild
  refine ⟨d.output shorter, mapOnto_eq_ok.2 ⟨d, ?_, shorter, hshorter, rfl⟩, rfl, rfl, rfl, rfl,
    hchips, htables⟩
  exact hdraft

/-- Two flows from one end of the row to the other. -/
def doubleGraph : Graph where
  vertices := [⟨"sensor", 1, oneCore, 1, none⟩, ⟨"filter", 1, oneCore, 1, none⟩]
  nets := [⟨0, [1], .one⟩, ⟨0, [1], .one⟩]
  locations := .ofList [(0, ⟨0, 0⟩), (1, ⟨2, 0⟩)]
  endpoints := .empty
  reservations := []

/-- Without minimising, both ends have an entry for each flow. -/
def doubleOutput : Output where
  slices := #[⟨0, 0, 1, oneCore⟩, ⟨1, 0, 1, oneCore⟩]
  nets := #[⟨0, [1], .one, 0⟩, ⟨0, [1], .one, 1⟩]
  placement := ⟨#[⟨0, 0⟩, ⟨2, 0⟩]⟩
  keys := ⟨⟨2, 0, 1⟩, #[⟨0, 7⟩, ⟨1, 7⟩]⟩
  tables := .ofList [(⟨0, 0⟩, [⟨⟨0, 7⟩, ⟨1⟩⟩, ⟨⟨1, 7⟩, ⟨1⟩⟩]),
    (⟨2, 0⟩, [⟨⟨0, 7⟩, ⟨64⟩⟩, ⟨⟨1, 7⟩, ⟨64⟩⟩])]

theorem mapOnto_double :
    doubleGraph.mapOnto row (rowConfig.withMinimise false) (fun _ => 0) = .ok doubleOutput := by
  cbv

theorem Graph.mapOnto_minimise_double :
    doubleGraph.mapOnto row (rowConfig.withMinimise false) (fun _ => 0) = .ok doubleOutput ∧
    ∃ shorter, doubleGraph.mapOnto row (rowConfig.withMinimise true) (fun _ => 0) = .ok shorter ∧
      shorter.tables.keys = [⟨0, 0⟩, ⟨2, 0⟩] ∧
      lookup (shorter.tables.tableAt ⟨0, 0⟩) 1 = some ⟨1⟩ := by
  refine ⟨mapOnto_double, ?_⟩
  obtain ⟨shorter, hshorter, _, _, _, _, hchips, htables⟩ := mapOnto_minimise mapOnto_double
  refine ⟨shorter, hshorter, hchips, ?_⟩
  rw [(htables ⟨0, 0⟩).2 1]
  decide +kernel

example : (doubleGraph.mapOnto row (rowConfig.withMinimise true) fun _ => 0).map (·.tables.entries) =
    .ok [(⟨0, 0⟩, [⟨⟨0, 6⟩, ⟨1⟩⟩]), (⟨2, 0⟩, [⟨⟨0, 6⟩, ⟨64⟩⟩])] := by
  cbv

end HexFabric
