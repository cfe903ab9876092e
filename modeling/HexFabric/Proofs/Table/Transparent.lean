import HexFabric.Proofs.Table.Unshared

/-! Minimising the tables that are built. No table gets longer and none is lost, so what fits the
routers without minimising fits them with it; and where nets share no packets, every key is looked
up as before: `Unshared.build_minimise`. -/

namespace HexFabric

theorem length_mergeAll_le (others patterns : List Pattern) :
    (mergeAll others patterns).length ≤ patterns.length := by
  fun_induction mergeAll others patterns with
  | case1 patterns h => exact Nat.le_refl _
  | case2 patterns m h ih => exact Nat.le_trans ih (Nat.le_of_lt (Merge.length_apply_lt h))

namespace Groups

theorem length_toTable (groups : Groups) : groups.toTable.length = groups.size := by
  induction groups with
  | nil => rfl
  | cons e rest ih =>
    rw [toTable, List.flatMap_cons, List.length_append, List.length_map]
    exact congrArg (e.2.length + ·) ih

/-- One more entry makes the groups larger by one at most. -/
theorem size_insertEntry_le {r : RouteSet} {patterns : List Pattern} {groups : Groups}
    (h : patterns.length ≤ ((groups.lookup r).getD []).length + 1) :
    size (InsertionMap.insertEntry r patterns groups) ≤ size groups + 1 := by
  induction groups with
  | nil => exact h
  | cons e rest ih =>
    rw [lookup_cons_eq_ite] at h
    unfold InsertionMap.insertEntry
    by_cases hr : e.1 = r
    · rw [if_pos hr.symm, Option.getD_some] at h
      rw [if_pos hr]
      change patterns.length + size rest ≤ e.2.length + size rest + 1
      omega
    · rw [if_neg (Ne.symm hr)] at h
      rw [if_neg hr]
      have hrest := ih h
      change e.2.length + size _ ≤ e.2.length + size rest + 1
      omega

theorem size_ofTable_le (table : List Entry) : (ofTable table).size ≤ table.length := by
  suffices ∀ (table : List Entry) (groups : InsertionMap RouteSet (List Pattern)),
      size (table.foldl addEntry groups).entries ≤ size groups.entries + table.length from
    Nat.le_trans (this table .empty) (Nat.le_of_eq (Nat.zero_add _))
  intro table
  induction table with
  | nil => exact fun groups => Nat.le_refl _
  | cons e rest ih =>
    intro groups
    have hadd : size (addEntry groups e).entries ≤ size groups.entries + 1 :=
      size_insertEntry_le (Merge.length_insert_le _ _)
    have hrest := ih (addEntry groups e)
    rw [List.foldl_cons, List.length_cons]
    omega

theorem size_mergeRoute_le (groups : Groups) (route : RouteSet) :
    size (groups.mergeRoute route) ≤ size groups := by
  -- all groups are mapped with the patterns that are other at first, so these stay fixed
  suffices ∀ others, ∀ groups : Groups,
      size (groups.map fun e => if e.1 = route then (e.1, mergeAll others e.2) else e) ≤
        size groups from this (groups.others route) groups
  intro others groups
  induction groups with
  | nil => exact Nat.le_refl _
  | cons e rest ih =>
    have he : (if e.1 = route then (e.1, mergeAll others e.2) else e).2.length ≤ e.2.length := by
      split
      · exact length_mergeAll_le others e.2
      · exact Nat.le_refl _
    exact Nat.add_le_add he ih

theorem size_pass_le (order : List RouteSet) (groups : Groups) :
    size (groups.pass order) ≤ size groups := by
  induction order generalizing groups with
  | nil => exact Nat.le_refl _
  | cons route rest ih => exact Nat.le_trans (ih _) (size_mergeRoute_le groups route)

theorem size_settle_le (order : List RouteSet) (groups : Groups) :
    size (groups.settle order) ≤ size groups := by
  fun_induction settle order groups with
  | case1 groups next h ih => exact Nat.le_trans ih (Nat.le_of_lt h)
  | case2 groups next h => exact size_pass_le order groups

end Groups

theorem length_minimise_le (table : List Entry) : (minimise table).length ≤ table.length := by
  rw [minimise, Groups.length_toTable]
  exact Nat.le_trans (Groups.size_settle_le _ _) (Groups.size_ofTable_le table)

/-! ### The table of one chip -/

/-- The same options with tables minimised or not. -/
def TableConfig.withMinimise (config : TableConfig) (minimise : Bool) : TableConfig :=
  { config with minimise }

section TableOf

open RoutingTables

variable {entries : List TreeEntry} (config : TableConfig)

theorem length_tableOf_le (entries : List TreeEntry) :
    (tableOf (config.withMinimise true) entries).length ≤
      (tableOf (config.withMinimise false) entries).length := by
  unfold tableOf
  rw [List.length_mergeSort, List.length_mergeSort]
  exact length_minimise_le _

theorem offers_tableOf_minimise (entries : List TreeEntry) (key : BitVec 32) (r : RouteSet) :
    Offers (tableOf (config.withMinimise true) entries) key r ↔
      Offers (tableOf (config.withMinimise false) entries) key r := by
  rw [offers_tableOf, offers_tableOf]
  rfl

theorem Apart.lookup_tableOf_minimise (h : Apart entries) (key : BitVec 32) :
    lookup (tableOf (config.withMinimise true) entries) key =
      lookup (tableOf (config.withMinimise false) entries) key :=
  h.unambiguous_tableOf.lookup_congr (offers_tableOf_minimise config entries) key

/-- Minimising neither empties a table nor fills an empty one. -/
theorem Apart.tableOf_minimise_eq_nil_iff (h : Apart entries) :
    tableOf (config.withMinimise true) entries = [] ↔
      tableOf (config.withMinimise false) entries = [] := by
  rw [h.tableOf_eq_nil_iff, h.tableOf_eq_nil_iff]
  rfl

end TableOf

/-! ### All tables -/

namespace RoutingTables

variable {collected : EntriesByChip} {config : TableConfig}

/-- The chips that have tables are the same, in the same order. -/
theorem keys_ofCollected_minimise (h : ∀ e ∈ collected.entries, Apart e.2) :
    (ofCollected (config.withMinimise true) collected).keys =
      (ofCollected (config.withMinimise false) collected).keys := by
  have hkeys : ∀ config, (ofCollected config collected).keys =
      (collected.entries.filter fun e => tableOf config e.2 ≠ []).map (·.1) := by
    intro config
    rw [InsertionMap.keys, entries_ofCollected]
    change (List.filter _ (collected.entries.map _)).map _ = _
    rw [List.filter_map, List.map_map]
    rfl
  rw [hkeys, hkeys]
  refine congrArg _ (List.filter_congr fun e he => ?_)
  rw [decide_eq_decide, not_iff_not]
  exact (h e he).tableOf_minimise_eq_nil_iff config

end RoutingTables

/-- Where nets share no packets, tables that can be built as they are can be built minimised. They
are for the same chips in the same order, none is longer, and each looks up every key as before. -/
theorem Unshared.build_minimise [Build] {trees : List RoutingTree} {keys : KeyAssignment} {m : Machine}
    {config : TableConfig} {tables : RoutingTables} (h : Unshared trees keys)
    (hbuild : RoutingTables.build trees keys m (config.withMinimise false) = .ok tables) :
    ∃ shorter, RoutingTables.build trees keys m (config.withMinimise true) = .ok shorter ∧
      shorter.keys = tables.keys ∧ ∀ c, (shorter.tableAt c).length ≤ (tables.tableAt c).length ∧
        ∀ w, lookup (shorter.tableAt c) w = lookup (tables.tableAt c) w := by
  obtain ⟨collected, hcollected, hpasses, rfl⟩ := RoutingTables.build_eq_ok.1 hbuild
  have hheld : EntriesByChip.Collected (Call.ofTrees keys trees) collected :=
    (EntriesByChip.collected_ofTrees keys trees).of_eq_ok hcollected
  have hapart : ∀ e ∈ collected.entries, Apart e.2 :=
    fun e he => RoutingTables.apart_of_mem hheld h.separateKeys he
  refine ⟨.ofCollected (config.withMinimise true) collected,
    RoutingTables.build_eq_ok.2 ⟨collected, hcollected, fun e he => ?_, rfl⟩, ?_, fun c => ?_⟩
  · exact ⟨fun _ => (hapart e he).mergesAlike _,
      Nat.le_trans (length_tableOf_le config e.2) (hpasses e he).length_le⟩
  · exact RoutingTables.keys_ofCollected_minimise hapart
  · rw [RoutingTables.tableAt_ofCollected, RoutingTables.tableAt_ofCollected]
    have hat := RoutingTables.apart_entriesAt hheld h.separateKeys c
    exact ⟨length_tableOf_le config _, hat.lookup_tableOf_minimise config⟩

end HexFabric
