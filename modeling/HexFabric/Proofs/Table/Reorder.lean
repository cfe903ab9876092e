import HexFabric.Proofs.Table.Elision
import HexFabric.Proofs.Table.Fixpoint
import Mathlib

/-! The order of entries makes no difference to the table they are merged into. What is merged for a
route depends on the set of its entries and on the keys that other routes accept:
`mem_minimise_iff`. In the table of a chip, which is sorted, no trace of the order is left. -/

namespace HexFabric

/-! ### Minimising as merging route by route -/

section Minimise

variable {table other : List Entry} {r : RouteSet} {key : BitVec 32} {e : Entry}

/-- The patterns of a route, ascending. -/
def patternsOf (table : List Entry) (r : RouteSet) : List Pattern :=
  Ascending.ofList ((table.filter (·.route = r)).map (·.pattern))

/-- The patterns of all other routes. -/
def rivalsOf (table : List Entry) (r : RouteSet) : List Pattern :=
  (table.filter (·.route ≠ r)).map (·.pattern)

theorem mem_patternsOf {p : Pattern} : p ∈ patternsOf table r ↔ ⟨p, r⟩ ∈ table := by
  simp only [patternsOf, Ascending.mem_ofList, List.mem_map, List.mem_filter, decide_eq_true_eq]
  constructor
  · rintro ⟨e, ⟨he, rfl⟩, rfl⟩
    exact he
  · exact fun he => ⟨_, ⟨he, rfl⟩, rfl⟩

theorem pairwise_patternsOf (table : List Entry) (r : RouteSet) :
    (patternsOf table r).Pairwise (· < ·) :=
  Ascending.pairwise_ofList _

theorem acceptsSome_rivalsOf :
    AcceptsSome (rivalsOf table r) key ↔ ∃ r', r' ≠ r ∧ Offers table key r' := by
  simp only [AcceptsSome, rivalsOf, List.mem_map, List.mem_filter, decide_eq_true_eq]
  constructor
  · rintro ⟨_, ⟨e, ⟨he, hne⟩, rfl⟩, hkey⟩
    exact ⟨e.route, hne, e, he, rfl, hkey⟩
  · rintro ⟨_, hne, e, he, rfl, hkey⟩
    exact ⟨e.pattern, ⟨e, ⟨he, hne⟩, rfl⟩, hkey⟩

theorem clean_rivalsOf (h : ∀ e ∈ table, e.pattern.Clean) (r : RouteSet) :
    ∀ p ∈ rivalsOf table r, p.Clean := by
  intro p hp
  obtain ⟨e, he, rfl⟩ := List.mem_map.1 hp
  exact h e (List.mem_of_mem_filter he)

theorem fair_rivalsOf (h : ∀ e ∈ table, e.pattern.Clean) :
    (Groups.ofTable table).Fair (rivalsOf table) where
  clean _ hg p hp := h ⟨p, _⟩ ((Groups.mem_group_iff hg).1 hp)
  clean_rivals := clean_rivalsOf h
  same_keys key r _ := by simp only [acceptsSome_rivalsOf, Groups.offers_ofTable]

/-- Minimising merges the patterns of each route as far as the entries of other routes permit that
were there at first. -/
theorem mem_minimise_iff (h : ∀ e ∈ table, e.pattern.Clean) :
    e ∈ minimise table ↔
      e.pattern ∈ mergeAll (rivalsOf table e.route) (patternsOf table e.route) := by
  have hgroup : ∀ patterns, (e.route, patterns) ∈ Groups.ofTable table →
      patterns = patternsOf table e.route := fun patterns hg =>
    Ascending.eq_of_mem_iff (Groups.group_ofTable hg).1 (pairwise_patternsOf table _) fun p => by
      rw [Groups.mem_group_iff hg, mem_patternsOf]
  rw [(fair_rivalsOf h).mem_minimise_iff]
  constructor
  · rintro ⟨patterns, hg, hp⟩
    rwa [← hgroup patterns hg]
  · intro hp
    -- there is an entry of the route, as something is left of its patterns
    have hsome : patternsOf table e.route ≠ [] := by
      intro hnil
      have hlength := length_mergeAll_le (rivalsOf table e.route) (patternsOf table e.route)
      rw [hnil, List.length_nil, Nat.le_zero, List.length_eq_zero_iff] at hlength
      rw [hnil, hlength] at hp
      cases hp
    obtain ⟨p, hmem⟩ := List.exists_mem_of_ne_nil _ hsome
    obtain ⟨patterns, hg⟩ := Groups.exists_group (mem_patternsOf.1 hmem)
    exact ⟨patterns, hg, hgroup patterns hg ▸ hp⟩

theorem mem_minimise_congr (hclean : ∀ e ∈ table, e.pattern.Clean)
    (h : ∀ e, e ∈ other ↔ e ∈ table) : e ∈ minimise other ↔ e ∈ minimise table := by
  have hclean' : ∀ e ∈ other, e.pattern.Clean := fun e he => hclean e ((h e).1 he)
  have hoffers : ∀ key r, Offers other key r ↔ Offers table key r := by simp [Offers, h]
  have hpatterns : patternsOf other e.route = patternsOf table e.route :=
    Ascending.eq_of_mem_iff (pairwise_patternsOf other _) (pairwise_patternsOf table _) fun p => by
      rw [mem_patternsOf, mem_patternsOf, h]
  have hmerged : mergeAll (rivalsOf other e.route) (patternsOf table e.route) =
      mergeAll (rivalsOf table e.route) (patternsOf table e.route) := by
    refine mergeAll_congr (fun p hp => hclean _ (mem_patternsOf.1 hp)) (clean_rivalsOf hclean' _)
      (clean_rivalsOf hclean _) fun key _ => ?_
    simp only [acceptsSome_rivalsOf, hoffers]
  rw [mem_minimise_iff hclean, mem_minimise_iff hclean', hpatterns, hmerged]

theorem nodup_minimise (h : ∀ e ∈ table, e.pattern.Clean) : (minimise table).Nodup := by
  obtain ⟨groups, heq, horderly, _⟩ := exists_groups_minimise h
  rw [heq]
  exact horderly.nodup_toTable

theorem perm_minimise (hclean : ∀ e ∈ table, e.pattern.Clean) (h : ∀ e, e ∈ other ↔ e ∈ table) :
    (minimise other).Perm (minimise table) := by
  have hclean' : ∀ e ∈ other, e.pattern.Clean := fun e he => hclean e ((h e).1 he)
  rw [List.perm_ext_iff_of_nodup (nodup_minimise hclean') (nodup_minimise hclean)]
  exact fun e => mem_minimise_congr hclean h

theorem clean_minimise (h : ∀ e ∈ table, e.pattern.Clean) : ∀ e ∈ minimise table, e.pattern.Clean :=
  fun _ he => clean_mergeAll (fun _ hp => h _ (mem_patternsOf.1 hp)) _ ((mem_minimise_iff h).1 he)

theorem Unambiguous.minimise (h : Unambiguous table) : Unambiguous (minimise table) :=
  h.of_offers fun key r => (offers_minimise table key r).1

end Minimise

/-! ### The sorted table -/

/-- Entries with different patterns are sorted in one way only. -/
theorem mergeSort_eq_of_perm {table other : List Entry} (hperm : other.Perm table)
    (hclean : ∀ e ∈ table, e.pattern.Clean) (h : Unambiguous table) :
    (other.mergeSort fun a b => ¬b.pattern < a.pattern) =
      table.mergeSort fun a b => ¬b.pattern < a.pattern := by
  refine List.Perm.eq_of_pairwise (fun a b ha hb hab hba => ?_) (pairwise_mergeSort_pattern other)
    (pairwise_mergeSort_pattern table)
    ((List.mergeSort_perm _ _).trans (hperm.trans (List.mergeSort_perm _ _).symm))
  have hpattern : a.pattern = b.pattern := StrictLinear.connected hba hab
  have ha : a ∈ table := hperm.mem_iff.1 (List.mem_mergeSort.1 ha)
  have hself : a.pattern.accepts a.pattern.key := Pattern.accepts_iff.2 (hclean a ha)
  have hroute : a.route = b.route := by
    by_contra hne
    exact h a ha b (List.mem_mergeSort.1 hb) hne _ ⟨hself, hpattern ▸ hself⟩
  cases a
  cases b
  exact (Entry.mk.injEq ..).mpr ⟨hpattern, hroute⟩

/-! ### The table of a chip -/

section TableOf

variable {entries others : List TreeEntry} {config : TableConfig}

theorem elideDefaults_perm (h : others.Perm entries) :
    (elideDefaults others).Perm (elideDefaults entries) := by
  rw [elideDefaults_eq, elideDefaults_eq]
  refine (h.filter _).trans (List.Perm.of_eq (List.filter_congr fun e _ => ?_))
  rw [(h.erase e).any_eq]

theorem kept_perm (h : others.Perm entries) : (config.kept others).Perm (config.kept entries) := by
  unfold TableConfig.kept
  split
  · exact elideDefaults_perm h
  · exact h

/-- The table is that of the entries which are kept, in any order. -/
theorem tableOf_eq_of_perm
    (h : ((config.kept others).map (·.entry)).Perm ((config.kept entries).map (·.entry)))
    (hclean : ∀ e ∈ entries.map (·.entry), e.pattern.Clean)
    (hunambiguous : Unambiguous (entries.map (·.entry))) :
    RoutingTables.tableOf config others = RoutingTables.tableOf config entries := by
  have hsub : (config.kept entries).map (·.entry) ⊆ entries.map (·.entry) :=
    (kept_sublist.map _).subset
  have hclean : ∀ e ∈ (config.kept entries).map (·.entry), e.pattern.Clean :=
    fun e he => hclean e (hsub he)
  have hunambiguous := hunambiguous.mono hsub
  change List.mergeSort (if config.minimise then minimise ((config.kept others).map (·.entry))
      else (config.kept others).map (·.entry)) _ =
    List.mergeSort (if config.minimise then minimise ((config.kept entries).map (·.entry))
      else (config.kept entries).map (·.entry)) _
  cases config.minimise with
  | false => exact mergeSort_eq_of_perm h hclean hunambiguous
  | true =>
    have hperm := perm_minimise hclean fun e => h.mem_iff
    exact mergeSort_eq_of_perm hperm (clean_minimise hclean) hunambiguous.minimise

end TableOf

namespace Call

/-- The entries that nets contribute to the table of a chip, in the order of nets. -/
def contributions (calls : List Call) (c : Chip) : List Entry :=
  (calls.filter (·.chip = c)).map (·.entry.entry)

/-- Calls on a chip with one pattern are for packets that come in on one link. -/
def OneArrival (calls : List Call) (c : Chip) : Prop :=
  ∀ a ∈ calls, ∀ b ∈ calls, a.chip = c → b.chip = c → a.pattern = b.pattern →
    a.entry.arrivedOn = b.entry.arrivedOn

theorem mem_contributions {calls : List Call} {c : Chip} {x : Entry} :
    x ∈ contributions calls c ↔ ∃ e, ⟨c, e⟩ ∈ calls ∧ e.entry = x := by
  simp only [contributions, List.mem_map, List.mem_filter, decide_eq_true_eq]
  constructor
  · rintro ⟨call, ⟨hcall, rfl⟩, rfl⟩
    exact ⟨call.entry, hcall, rfl⟩
  · rintro ⟨e, hcall, rfl⟩
    exact ⟨_, ⟨hcall, rfl⟩, rfl⟩

theorem clean_contributions {keys : KeyAssignment} {trees : List RoutingTree} {c : Chip} :
    ∀ x ∈ contributions (ofTrees keys trees) c, x.pattern.Clean := by
  intro x hx
  obtain ⟨e, hcall, rfl⟩ := mem_contributions.1 hx
  obtain ⟨_, _, key, _, n, _, heq⟩ := mem_ofTrees.1 hcall
  cases heq
  exact Pattern.clean_of key.key key.mask

end Call

namespace EntriesByChip

variable {calls : List Call} {t : EntriesByChip} {c : Chip}

namespace Collected

/-- Calls with one pattern are for one entry, apart from the link. -/
theorem mem_map_entry_iff (h : Collected calls t) {x : Entry} :
    x ∈ (t.entriesAt c).map (·.entry) ↔ x ∈ Call.contributions calls c := by
  rw [Call.mem_contributions, List.mem_map]
  constructor
  · rintro ⟨e, he, rfl⟩
    exact ⟨e, (Call.first_eq_some (h.mem_entriesAt_iff.1 he)).2, rfl⟩
  · rintro ⟨e, hcall, rfl⟩
    obtain ⟨e', he'⟩ := Call.exists_first hcall
    have hpattern := (Call.first_eq_some he').1
    have hroute : e'.entry.route = e.entry.route := h.same_route _ hcall e' he'
    have heq : e'.entry = e.entry := by
      cases he : e'.entry
      cases he'' : e.entry
      simp_all
    exact ⟨e', h.mem_entriesAt_iff.2 (hpattern.symm ▸ he'), heq⟩

theorem mem_entriesAt_iff_of_oneArrival (h : Collected calls t) (hone : Call.OneArrival calls c)
    {e : TreeEntry} : e ∈ t.entriesAt c ↔ ⟨c, e⟩ ∈ calls := by
  constructor
  · exact fun he => (Call.first_eq_some (h.mem_entriesAt_iff.1 he)).2
  · intro hcall
    obtain ⟨e', he', heq⟩ := List.mem_map.1
      (h.mem_map_entry_iff.2 (Call.mem_contributions.2 ⟨e, hcall, rfl⟩))
    have hcall' := (Call.first_eq_some (h.mem_entriesAt_iff.1 he')).2
    have harrived : e'.arrivedOn = e.arrivedOn :=
      hone _ hcall' _ hcall rfl rfl (congrArg Entry.pattern heq)
    cases e
    cases e'
    cases heq
    cases harrived
    exact he'

theorem nodup_map_entry (h : Collected calls t) (c : Chip) :
    ((t.entriesAt c).map (·.entry)).Nodup := by
  refine List.Nodup.of_map Entry.pattern ?_
  rw [List.map_map]
  exact h.nodup c

/-- What is kept of the entries of a chip does not depend on the order of calls. -/
theorem kept_perm {others : List Call} {u : EntriesByChip} {config : TableConfig}
    (ht : Collected calls t) (hu : Collected others u) (h : others.Perm calls)
    (hone : config.elide → Call.OneArrival calls c) :
    ((config.kept (u.entriesAt c)).map (·.entry)).Perm
      ((config.kept (t.entriesAt c)).map (·.entry)) := by
  by_cases helide : config.elide
  · have hone := hone helide
    have hone' : Call.OneArrival others c := fun a ha b hb =>
      hone a (h.mem_iff.1 ha) b (h.mem_iff.1 hb)
    refine (HexFabric.kept_perm ?_).map _
    rw [List.perm_ext_iff_of_nodup (hu.nodup_map_entry c).of_map (ht.nodup_map_entry c).of_map]
    intro e
    rw [hu.mem_entriesAt_iff_of_oneArrival hone', ht.mem_entriesAt_iff_of_oneArrival hone, h.mem_iff]
  · have hkept : ∀ entries, config.kept entries = entries := fun entries => by
      simp [TableConfig.kept, helide]
    rw [hkept, hkept, List.perm_ext_iff_of_nodup (hu.nodup_map_entry c) (ht.nodup_map_entry c)]
    intro x
    simp only [hu.mem_map_entry_iff, ht.mem_map_entry_iff, Call.mem_contributions, h.mem_iff]

end Collected

end EntriesByChip

namespace RoutingTables

variable {trees others : List RoutingTree} {keys : KeyAssignment} {m : Machine}
  {config : TableConfig} {tables reordered : RoutingTables} {c : Chip}

/-- The order of nets makes no difference to the table of a chip where no contributions to it with
different routes overlap. If entries are left out, the first net with a pattern decides on which
link its packets come in, so there should be only one such link. -/
theorem tableAt_eq_of_perm [Build] (hbuild : build trees keys m config = .ok tables)
    (hreordered : build others keys m config = .ok reordered) (h : others.Perm trees)
    (hunambiguous : Unambiguous (Call.contributions (Call.ofTrees keys trees) c))
    (hone : config.elide → Call.OneArrival (Call.ofTrees keys trees) c) :
    reordered.tableAt c = tables.tableAt c := by
  obtain ⟨t, ht, htables⟩ := collected_of_build hbuild
  obtain ⟨u, hu, hreordered⟩ := collected_of_build hreordered
  have hcalls : (Call.ofTrees keys others).Perm (Call.ofTrees keys trees) := h.flatMap_right _
  rw [htables, hreordered]
  refine tableOf_eq_of_perm (ht.kept_perm hu hcalls hone) (fun x hx => ?_) ?_
  · exact Call.clean_contributions x (ht.mem_map_entry_iff.1 hx)
  · exact hunambiguous.mono fun x hx => ht.mem_map_entry_iff.1 hx

end RoutingTables

/-- Minimising a table in another order gives the same entries. Where entries of different routes do
not overlap, the table of a chip is the same list, in whatever order they were contributed, and so
is a table that was built for nets in another order. If entries are left out, that is said only of
chips where the packets of each pattern come in on one link, as the link of the first net with a
pattern decides whether its entry is. -/
theorem minimise_perm [Build] {table other : List Entry} (hclean : ∀ e ∈ table, e.pattern.Clean)
    (hperm : other.Perm table) :
    (∀ e, e ∈ minimise other ↔ e ∈ minimise table) ∧ (minimise other).Perm (minimise table) ∧
    (Unambiguous table →
      (∀ config entries others, entries.map TreeEntry.entry = table → others.Perm entries →
        RoutingTables.tableOf config others = RoutingTables.tableOf config entries) ∧
      ∀ trees others keys m config tables reordered c,
        Call.contributions (Call.ofTrees keys trees) c = table → others.Perm trees →
        RoutingTables.build trees keys m config = .ok tables →
        RoutingTables.build others keys m config = .ok reordered →
        (config.elide → Call.OneArrival (Call.ofTrees keys trees) c) →
        reordered.tableAt c = tables.tableAt c) := by
  refine ⟨fun e => mem_minimise_congr hclean fun e => hperm.mem_iff,
    perm_minimise hclean fun e => hperm.mem_iff, fun hunambiguous => ⟨?_, ?_⟩⟩
  · rintro config entries others rfl h
    exact tableOf_eq_of_perm ((kept_perm h).map _) hclean hunambiguous
  · rintro trees others keys m config tables reordered c rfl h hbuild hreordered hone
    exact RoutingTables.tableAt_eq_of_perm hbuild hreordered h hunambiguous hone

open RoutingTables in
/-- The entries of two routes that overlap, taken backwards, and the nets whose ways join. -/
theorem minimise_perm_backwards :
    (∀ e ∈ crowdedTable, e.pattern.Clean) ∧ crowdedTable.reverse.Perm crowdedTable ∧
    (minimise crowdedTable.reverse).Perm (minimise crowdedTable) ∧
    Unambiguous (Call.contributions (Call.ofTrees joiningKeys joiningTrees) ⟨1, 0⟩) ∧
    joiningTrees.reverse.Perm joiningTrees ∧
    build joiningTrees joiningKeys narrow {} = .ok joinedTables ∧
    ∃ reordered, build joiningTrees.reverse joiningKeys narrow {} = .ok reordered ∧
      reordered.tableAt ⟨1, 0⟩ = joinedTables.tableAt ⟨1, 0⟩ := by
  have hclean : ∀ e ∈ crowdedTable, e.pattern.Clean := by decide
  have hunambiguous :
      Unambiguous (Call.contributions (Call.ofTrees joiningKeys joiningTrees) ⟨1, 0⟩) := by
    have hroute : ∀ e ∈ Call.contributions (Call.ofTrees joiningKeys joiningTrees) ⟨1, 0⟩,
        e.route = ⟨1⟩ := by decide +kernel
    exact fun a ha b hb hne => absurd ((hroute a ha).trans (hroute b hb).symm) hne
  have hbuild : build joiningTrees joiningKeys narrow {} = .ok joinedTables := by cbv
  have hreordered : build joiningTrees.reverse joiningKeys narrow {} = .ok joinedTables := by cbv
  obtain ⟨_, hperm, _⟩ := minimise_perm hclean (List.reverse_perm crowdedTable)
  have hcontributed : ∀ e ∈ Call.contributions (Call.ofTrees joiningKeys joiningTrees) ⟨1, 0⟩,
      e.pattern.Clean := Call.clean_contributions
  obtain ⟨_, _, hsame⟩ := minimise_perm hcontributed (.refl _)
  refine ⟨hclean, List.reverse_perm _, hperm, hunambiguous, List.reverse_perm _, hbuild, _,
    hreordered, ?_⟩
  exact (hsame hunambiguous).2 _ _ _ _ _ _ _ _ rfl (List.reverse_perm _) hbuild hreordered
    fun helide => absurd helide Bool.false_ne_true

end HexFabric
