import HexFabric.Proofs.Table.Build
import HexFabric.Proofs.Table.Exclusive

/-! The form of the tables that are built. They are listed by chip, none of them is empty or longer
than its router allows, and in each of them every key is accepted by one entry at most:
`RoutingTables.form_of_build`. -/

namespace HexFabric

theorem countP_le_one {α : Type} {l : List α} {p : α → Bool}
    (h : l.Pairwise fun a b => ¬(p a ∧ p b)) : l.countP p ≤ 1 := by
  induction l with
  | nil => simp
  | cons a rest ih =>
    obtain ⟨ha, hrest⟩ := List.pairwise_cons.1 h
    by_cases hpa : p a
    · have hnone : rest.countP p = 0 := List.countP_eq_zero.2 fun b hb hpb => ha b hb ⟨hpa, hpb⟩
      rw [List.countP_cons_of_pos hpa, hnone]
    · rw [List.countP_cons_of_neg hpa]
      exact ih hrest

/-! ### The table of one chip -/

theorem pairwise_mergeSort_pattern (table : List Entry) :
    (table.mergeSort fun a b => ¬b.pattern < a.pattern).Pairwise
      fun a b => ¬b.pattern < a.pattern := by
  refine (List.pairwise_mergeSort (fun a b c hab hbc => ?_) (fun a b => ?_) table).imp
    of_decide_eq_true
  · simp only [decide_eq_true_eq] at hab hbc ⊢
    exact StrictLinear.not_lt_trans hab hbc
  · simp only [Bool.or_eq_true, decide_eq_true_eq]
    exact StrictLinear.not_lt_or_not_lt _ _

namespace Exclusive

variable {table other : List Entry}

theorem perm (h : Exclusive table) (hperm : other.Perm table) : Exclusive other where
  clean e he := h.clean e (hperm.mem_iff.1 he)
  unique a ha b hb := h.unique a (hperm.mem_iff.1 ha) b (hperm.mem_iff.1 hb)

theorem eq_of_pattern_eq (h : Exclusive table) {a b : Entry} (ha : a ∈ table) (hb : b ∈ table)
    (hpattern : a.pattern = b.pattern) : a = b := by
  have hself : a.pattern.accepts a.pattern.key := Pattern.accepts_iff.2 (h.clean a ha)
  exact h.unique a ha b hb _ hself (hpattern ▸ hself)

theorem pairwise_mergeSort (h : Exclusive table) (hnodup : table.Nodup) :
    (table.mergeSort fun a b => ¬b.pattern < a.pattern).Pairwise (·.pattern < ·.pattern) := by
  have hle := pairwise_mergeSort_pattern table
  have hne := (List.mergeSort_perm table fun a b => ¬b.pattern < a.pattern).nodup_iff.2 hnodup
  refine (hle.and hne).imp_of_mem fun {a b} ha hb hab => ?_
  by_contra hlt
  have hpattern : a.pattern = b.pattern := StrictLinear.connected hlt hab.1
  exact hab.2 (h.eq_of_pattern_eq (List.mem_mergeSort.1 ha) (List.mem_mergeSort.1 hb) hpattern)

end Exclusive

section TableOf

variable {entries : List TreeEntry} (config : TableConfig)

theorem Apart.nodup_kept (h : Apart entries) : ((config.kept entries).map (·.entry)).Nodup := by
  have hpattern : ((entries.map (·.entry)).map (·.pattern)).Nodup := by
    rw [List.map_map]
    exact h.nodup
  exact (kept_sublist.map _).nodup hpattern.of_map

/-- In the table of a chip, whether minimised or not, every key is accepted by one entry at most,
and entries stand by pattern. -/
theorem Apart.form_tableOf (h : Apart entries) :
    Exclusive (RoutingTables.tableOf config entries) ∧
      (RoutingTables.tableOf config entries).Pairwise (·.pattern < ·.pattern) := by
  have hsorted : ∀ {table : List Entry}, Exclusive table → table.Nodup →
      Exclusive (table.mergeSort fun a b => ¬b.pattern < a.pattern) ∧
        (table.mergeSort fun a b => ¬b.pattern < a.pattern).Pairwise (·.pattern < ·.pattern) :=
    fun hexclusive hnodup =>
      ⟨hexclusive.perm (List.mergeSort_perm _ _), hexclusive.pairwise_mergeSort hnodup⟩
  have hkept : Exclusive ((config.kept entries).map (·.entry)) := h.exclusive_kept config
  unfold RoutingTables.tableOf
  cases config.minimise with
  | false => exact hsorted hkept (h.nodup_kept config)
  | true => exact hsorted hkept.minimise hkept.nodup_minimise

end TableOf

/-! ### All tables -/

namespace RoutingTables

variable {trees : List RoutingTree} {keys : KeyAssignment} {m : Machine} {config : TableConfig}
  {tables : RoutingTables} {c : Chip} {table : List Entry}

/-- Packets with the key come to a node of a tree of which `P` holds. -/
def Visited (trees : List RoutingTree) (keys : KeyAssignment) (P : RouteNode → Prop)
    (w : BitVec 32) : Prop :=
  ∃ t ∈ trees, ∃ key, keys.keyOf t.net = .ok key ∧ (Pattern.of key.key key.mask).accepts w ∧
    ∃ n ∈ t.nodes, P n

theorem mem_entries_ofCollected {collected : EntriesByChip} :
    (c, table) ∈ (ofCollected config collected).entries ↔
      ∃ entries, (c, entries) ∈ collected.entries ∧ tableOf config entries = table ∧ table ≠ [] := by
  rw [entries_ofCollected, List.mem_filter]
  simp only [SortedMap.mapValues, List.mem_map, decide_eq_true_eq, Prod.mk.injEq, Prod.exists]
  constructor
  · rintro ⟨⟨c', entries, he, rfl, rfl⟩, hne⟩
    exact ⟨entries, he, rfl, hne⟩
  · rintro ⟨entries, he, rfl, hne⟩
    exact ⟨⟨c, entries, he, rfl, rfl⟩, hne⟩

theorem pairwise_keys_ofCollected (config : TableConfig) (collected : EntriesByChip) :
    (ofCollected config collected).keys.Pairwise (· < ·) := by
  rw [InsertionMap.keys, entries_ofCollected]
  exact List.pairwise_map.2 ((SortedMap.ascending _).filter _)

theorem visited_of_accepts {collected : EntriesByChip}
    (h : EntriesByChip.Collected (Call.ofTrees keys trees) collected) {e : Entry}
    (he : e ∈ tableOf config (collected.entriesAt c)) {w : BitVec 32} (hw : e.pattern.accepts w) :
    Visited trees keys (·.chip = c) w := by
  obtain ⟨call, hcall, haccepts⟩ := accepts_of_tableOf he hw
  obtain ⟨t, ht, key, hkey, n, hn, hchip, rfl⟩ := h.exists_node hcall
  exact ⟨t, ht, key, hkey, haccepts, n, hn, hchip⟩

/-- Where the keys of any two nets are the same or apart, tables stand by chip, none is empty or
longer than its router allows, and in each of them every key is accepted by one entry at most. -/
theorem form_of_build [Build] (hbuild : build trees keys m config = .ok tables)
    (hkeys : SeparateKeys trees keys) :
    tables.keys.Pairwise (· < ·) ∧ ∀ c table, (c, table) ∈ tables.entries →
      table ≠ [] ∧ table.length ≤ m.routerLimit c ∧ Exclusive table ∧
        table.Pairwise (·.pattern < ·.pattern) ∧
        ∀ e ∈ table, ∀ w, e.pattern.accepts w → Visited trees keys (·.chip = c) w := by
  obtain ⟨collected, hcollected, hpasses, rfl⟩ := build_eq_ok.1 hbuild
  have hheld : EntriesByChip.Collected (Call.ofTrees keys trees) collected :=
    (EntriesByChip.collected_ofTrees keys trees).of_eq_ok hcollected
  refine ⟨pairwise_keys_ofCollected config collected, fun c table hmem => ?_⟩
  obtain ⟨entries, he, rfl, hne⟩ := mem_entries_ofCollected.1 hmem
  have hat : collected.entriesAt c = entries := EntriesByChip.entriesAt_of_mem he
  obtain ⟨hexclusive, hsorted⟩ := (apart_of_mem hheld hkeys he).form_tableOf config
  refine ⟨hne, (hpasses _ he).length_le, hexclusive, hsorted, fun e he w hw => ?_⟩
  exact visited_of_accepts hheld (hat ▸ he) hw

end RoutingTables

end HexFabric
