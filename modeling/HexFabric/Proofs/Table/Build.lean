import HexFabric.Route.Growth
import HexFabric.Table.Build
import HexFabric.Proofs.Table.Collect
import HexFabric.Proofs.Table.Equivalence
import HexFabric.Proofs.Table.Exclusive
import HexFabric.Proofs.Table.RouteSet
import Mathlib

/-! The tables that are built for routing trees. Where the keys of any two nets are the same or
apart, a table sends a packet where its tree does. The one exception is a packet that shares its key
with an earlier net that goes straight through the chip: the entry is left out for that net, and the
packet is lost if it comes in on another link. -/

namespace HexFabric

/-- The two patterns are the same, or no key has both. -/
def Pattern.SameOrApart (p q : Pattern) : Prop := p = q ∨ ∀ key, ¬(p.accepts key ∧ q.accepts key)

/-! ### The table of one chip -/

/-- Other entries than the one in a place are those that are left without it. -/
theorem isShadowed_eq {entries : List TreeEntry} {e : TreeEntry} {i : Nat} (h : (e, i) ∈ entries.zipIdx) :
    isShadowed entries (e, i) =
      (entries.erase e).any fun o => o.entry.pattern.overlaps e.entry.pattern := by
  have hi : entries[i]? = some e := List.mem_zipIdx_iff_getElem?.1 h
  obtain ⟨hlt, he⟩ := List.getElem?_eq_some_iff.1 hi
  have hperm : (entries.eraseIdx i).Perm (entries.erase e) := by
    refine List.Perm.cons_inv (a := e) ?_
    have hrest := List.getElem_cons_eraseIdx_perm hlt
    rw [he] at hrest
    exact hrest.trans (List.perm_cons_erase (List.mem_of_getElem? hi))
  rw [← hperm.any_eq, Bool.eq_iff_iff, isShadowed, List.any_eq_true, List.any_eq_true]
  constructor
  · rintro ⟨⟨o, j⟩, ho, hshadow⟩
    obtain ⟨hji, hoverlaps⟩ : j ≠ i ∧ o.entry.pattern.overlaps e.entry.pattern := by
      simpa using hshadow
    exact ⟨o, List.mem_eraseIdx_iff_getElem?.2 ⟨j, hji, List.mem_zipIdx_iff_getElem?.1 ho⟩, hoverlaps⟩
  · rintro ⟨o, ho, hoverlaps⟩
    obtain ⟨j, hji, hj⟩ := List.mem_eraseIdx_iff_getElem?.1 ho
    exact ⟨(o, j), List.mem_zipIdx_iff_getElem?.2 hj, by simp [hji, hoverlaps]⟩

theorem elideDefaults_eq (entries : List TreeEntry) :
    elideDefaults entries = entries.filter fun e =>
      !e.isStraight || (entries.erase e).any fun o => o.entry.pattern.overlaps e.entry.pattern := by
  conv_rhs => rw [← List.zipIdx_map_fst 0 entries, List.filter_map]
  rw [elideDefaults, List.zipIdx_map_fst]
  refine congrArg _ (List.filter_congr fun e he => ?_)
  rw [Function.comp_apply, ← isShadowed_eq he]

section TableOf

variable {entries : List TreeEntry} {config : TableConfig} {key : BitVec 32} {r : RouteSet}
  {e : TreeEntry}

/-- Every pattern occurs once, and patterns have no keys in common. -/
structure Apart (entries : List TreeEntry) : Prop where
  nodup : (entries.map (·.entry.pattern)).Nodup
  clean : ∀ e ∈ entries, e.entry.pattern.Clean
  apart : ∀ a ∈ entries, ∀ b ∈ entries, a.entry.pattern.SameOrApart b.entry.pattern

theorem Apart.eq_of_accepts (h : Apart entries) {a b : TreeEntry} (ha : a ∈ entries)
    (hb : b ∈ entries) (hak : a.entry.pattern.accepts key) (hbk : b.entry.pattern.accepts key) :
    a = b := by
  rcases h.apart a ha b hb with heq | hapart
  · exact List.inj_on_of_nodup_map h.nodup ha hb heq
  · exact absurd ⟨hak, hbk⟩ (hapart key)

theorem Apart.mem_elideDefaults (h : Apart entries) :
    e ∈ elideDefaults entries ↔ e ∈ entries ∧ e.isStraight = false := by
  rw [elideDefaults_eq, List.mem_filter]
  refine and_congr_right fun he => ?_
  have hnodup : entries.Nodup := List.Nodup.of_map _ h.nodup
  have halone : ((entries.erase e).any fun o => o.entry.pattern.overlaps e.entry.pattern) = false := by
    rw [List.any_eq_false]
    intro o ho hoverlaps
    obtain ⟨hne, ho⟩ := hnodup.mem_erase_iff.1 ho
    obtain ⟨k, hok, hek⟩ := (Pattern.overlaps_iff (h.clean o ho) (h.clean e he)).1 hoverlaps
    exact hne (h.eq_of_accepts ho he hok hek)
  rw [halone, Bool.or_false, Bool.not_eq_true']

theorem Apart.mem_kept (h : Apart entries) :
    e ∈ config.kept entries ↔ e ∈ entries ∧ ¬(config.elide ∧ e.isStraight) := by
  unfold TableConfig.kept
  by_cases helide : config.elide
  · simp [helide, h.mem_elideDefaults]
  · simp [helide]

theorem kept_sublist : (config.kept entries).Sublist entries := by
  unfold TableConfig.kept
  split
  · rw [elideDefaults_eq]
    exact List.filter_sublist
  · exact List.Sublist.refl entries

theorem mem_of_kept (h : e ∈ config.kept entries) : e ∈ entries := kept_sublist.subset h

theorem Apart.exclusive_kept (h : Apart entries) (config : TableConfig) :
    Exclusive ((config.kept entries).map (·.entry)) := by
  constructor
  · intro e he
    obtain ⟨a, ha, rfl⟩ := List.mem_map.1 he
    exact h.clean a (mem_of_kept ha)
  · intro e he e' he' key hek hek'
    obtain ⟨a, ha, rfl⟩ := List.mem_map.1 he
    obtain ⟨b, hb, rfl⟩ := List.mem_map.1 he'
    rw [h.eq_of_accepts (mem_of_kept ha) (mem_of_kept hb) hek hek']

/-- Merging entries that are apart changes no route, so that the assertion about it holds. -/
theorem Apart.mergesAlike (h : Apart entries) (config : TableConfig) :
    RoutingTables.MergesAlike config entries := by
  have hkept := h.exclusive_kept config
  intro _
  have hall : (⟨0, 0⟩ : Pattern).Clean := rfl
  refine (agreeOn_iff hall hkept.clean hkept.minimise.clean).2 fun key _ => ?_
  exact (hkept.unambiguous.lookup_congr (offers_minimise _) key).symm

theorem offers_tableOf :
    Offers (RoutingTables.tableOf config entries) key r ↔
      ∃ e ∈ config.kept entries, e.entry.route = r ∧ e.entry.pattern.accepts key := by
  have hplain : ∀ kept : List TreeEntry, Offers (kept.map (·.entry)) key r ↔
      ∃ e ∈ kept, e.entry.route = r ∧ e.entry.pattern.accepts key := by
    intro kept
    simp [Offers]
  rw [RoutingTables.tableOf, Offers.perm (List.mergeSort_perm _ _), ← hplain]
  cases config.minimise with
  | false => rfl
  | true => exact offers_minimise _ key r

/-- What the table of a chip does with the keys of one of its entries. -/
theorem Apart.lookup_tableOf (h : Apart entries) (he : e ∈ entries)
    (hkey : e.entry.pattern.accepts key) :
    lookup (RoutingTables.tableOf config entries) key =
      if config.elide ∧ e.isStraight then none else some e.entry.route := by
  have hoffers : ∀ r, Offers (RoutingTables.tableOf config entries) key r ↔
      r = e.entry.route ∧ ¬(config.elide ∧ e.isStraight) := by
    intro r
    rw [offers_tableOf]
    constructor
    · rintro ⟨a, ha, rfl, hak⟩
      obtain ⟨ha, hkept⟩ := h.mem_kept.1 ha
      rw [← h.eq_of_accepts ha he hak hkey]
      exact ⟨rfl, hkept⟩
    · rintro ⟨rfl, hkept⟩
      exact ⟨e, h.mem_kept.2 ⟨he, hkept⟩, rfl, hkey⟩
  by_cases hdrop : config.elide ∧ e.isStraight
  · rw [if_pos hdrop, lookup_eq_none_iff]
    exact fun r hr => ((hoffers r).1 hr).2 hdrop
  · rw [if_neg hdrop]
    cases hlookup : lookup (RoutingTables.tableOf config entries) key with
    | none => exact absurd ((hoffers _).2 ⟨rfl, hdrop⟩) (lookup_eq_none_iff.1 hlookup _)
    | some r => rw [((hoffers r).1 (offers_of_lookup hlookup)).1]

theorem accepts_of_tableOf {entry : Entry} (h : entry ∈ RoutingTables.tableOf config entries)
    (hkey : entry.pattern.accepts key) : ∃ e ∈ entries, e.entry.pattern.accepts key := by
  obtain ⟨e, he, _, hkey⟩ := offers_tableOf.1 ⟨entry, h, rfl, hkey⟩
  exact ⟨e, mem_of_kept he, hkey⟩

/-- If entries on a chip accept a key in common they are one, so its table is unambiguous. -/
theorem Apart.unambiguous_tableOf (h : Apart entries) :
    Unambiguous (RoutingTables.tableOf config entries) := by
  intro a ha b hb hne key ⟨hak, hbk⟩
  obtain ⟨x, hx, hxa, hxk⟩ := offers_tableOf.1 ⟨a, ha, rfl, hak⟩
  obtain ⟨y, hy, hyb, hyk⟩ := offers_tableOf.1 ⟨b, hb, rfl, hbk⟩
  have hxy : x = y := h.eq_of_accepts (mem_of_kept hx) (mem_of_kept hy) hxk hyk
  exact hne (by rw [← hxa, ← hyb, hxy])

theorem tableOf_eq_nil (h : config.kept entries = []) :
    RoutingTables.tableOf config entries = [] := by
  rw [RoutingTables.tableOf, h]
  cases config.minimise <;> cbv

/-- A table is empty only if no entry is kept. -/
theorem Apart.tableOf_eq_nil_iff (h : Apart entries) :
    RoutingTables.tableOf config entries = [] ↔ config.kept entries = [] := by
  refine ⟨fun hnil => ?_, tableOf_eq_nil⟩
  by_contra hne
  obtain ⟨e, he⟩ := List.exists_mem_of_ne_nil _ hne
  have hself : e.entry.pattern.accepts e.entry.pattern.key :=
    Pattern.accepts_iff.2 (h.clean e (mem_of_kept he))
  obtain ⟨_, hmem, _⟩ := offers_tableOf.2 ⟨e, he, rfl, hself⟩
  rw [hnil] at hmem
  cases hmem

end TableOf

/-! ### All tables -/

namespace RoutingTables

/-- The table of a chip; a chip without one has the empty table. -/
def tableAt (tables : RoutingTables) (c : Chip) : List Entry := (tables.get? c).getD []

theorem getD_lookup_filter {α β : Type} [DecidableEq α] {l : List (α × List β)}
    (h : (l.map (·.1)).Nodup) (p : α × List β → Bool) (hp : ∀ e, p e = false ↔ e.2 = []) (k : α) :
    ((l.filter p).lookup k).getD [] = (l.lookup k).getD [] := by
  have hfilter : ((l.filter p).map (·.1)).Nodup := (List.filter_sublist.map _).nodup h
  cases hk : (l.filter p).lookup k with
  | some v =>
    have hmem := (lookup_eq_some_iff_mem hfilter).1 hk
    rw [(lookup_eq_some_iff_mem h).2 (List.mem_of_mem_filter hmem)]
  | none =>
    cases hl : l.lookup k with
    | none => rfl
    | some v =>
      have hmem := (lookup_eq_some_iff_mem h).1 hl
      have hdropped : p (k, v) = false := by
        by_contra hkept
        have := (lookup_eq_some_iff_mem hfilter).2
          (List.mem_filter.2 ⟨hmem, by simpa using hkept⟩)
        rw [hk] at this
        cases this
      exact ((hp (k, v)).1 hdropped).symm

/-- The table of a chip passes: its router holds it, and where assertions are checked, merging has
changed no route. -/
structure Passes [Build] (m : Machine) (config : TableConfig) (e : Chip × List TreeEntry) :
    Prop where
  mergesAlike : Build.asserts → MergesAlike config e.2
  length_le : (tableOf config e.2).length ≤ m.routerLimit e.1

/-- What stops the table of a chip. The assertion comes first. -/
inductive Stops [Build] (m : Machine) (config : TableConfig) (e : Chip × List TreeEntry) :
    Failure → Prop where
  | misrouting (hchecked : Build.asserts) (hchanged : ¬MergesAlike config e.2) :
    Stops m config e (.defect (.misrouting e.1))
  | overflow (hasserted : Build.asserts → MergesAlike config e.2)
    (hover : m.routerLimit e.1 < (tableOf config e.2).length) : Stops m config e
      (.error (.routingTableOverflow e.1 (tableOf config e.2).length (m.routerLimit e.1)))

theorem Passes.not_stops [Build] {m : Machine} {config : TableConfig} {e : Chip × List TreeEntry}
    {f : Failure} (h : Passes m config e) : ¬Stops m config e f := by
  rintro (⟨hchecked, hchanged⟩ | ⟨_, hover⟩)
  · exact hchanged (h.mergesAlike hchecked)
  · exact Nat.not_lt.2 h.length_le hover

theorem ends_checkedTable [Build] (m : Machine) (config : TableConfig)
    (e : Chip × List TreeEntry) : Ends (checkedTable m config e) (Stops m config e)
      fun t => Passes m config e ∧ (e.1, tableOf config e.2) = t := by
  unfold checkedTable
  refine Ends.bind ((ends_assert _ _).imp ?_ fun _ => id).liftChecked fun _ hasserted => ?_
  · rintro _ ⟨hchecked, hchanged, rfl⟩
    exact .misrouting hchecked hchanged
  · by_cases hover : m.routerLimit e.1 < (tableOf config e.2).length
    · rw [if_pos hover]
      exact .throw (.overflow hasserted hover)
    · rw [if_neg hover]
      exact .pure ⟨⟨hasserted, Nat.not_lt.1 hover⟩, rfl⟩

theorem checkedTable_eq_ok [Build] {m : Machine} {config : TableConfig}
    {e : Chip × List TreeEntry} {t : Chip × List Entry} :
    checkedTable m config e = .ok t ↔ Passes m config e ∧ (e.1, tableOf config e.2) = t := by
  have hends := ends_checkedTable m config e
  refine ⟨hends.of_eq_ok, fun ⟨hpasses, ht⟩ => ?_⟩
  cases hchecked : checkedTable m config e with
  | ok t' => rw [← ht, (hends.of_eq_ok hchecked).2]
  | error f => exact absurd (hends.of_eq_error hchecked) hpasses.not_stops

/-- The tables made of the entries of all chips, whatever the routers hold. -/
def ofCollected (config : TableConfig) (collected : EntriesByChip) : RoutingTables :=
  .ofList ((collected.mapValues fun _ => tableOf config).entries.filter (·.2 ≠ []))

theorem entries_ofCollected (config : TableConfig) (collected : EntriesByChip) :
    (ofCollected config collected).entries =
      (collected.mapValues fun _ => tableOf config).entries.filter (·.2 ≠ []) :=
  InsertionMap.entries_ofList ((List.filter_sublist.map _).nodup (SortedMap.nodup_keys _))

/-- Every chip has the table made of its entries. -/
theorem tableAt_ofCollected (config : TableConfig) (collected : EntriesByChip) (c : Chip) :
    (ofCollected config collected).tableAt c = tableOf config (collected.entriesAt c) := by
  rw [tableAt, InsertionMap.get?, entries_ofCollected,
    getD_lookup_filter (SortedMap.nodup_keys _) _ (by simp)]
  change ((SortedMap.get? _ c).getD []) = _
  rw [SortedMap.get?_mapValues, EntriesByChip.entriesAt]
  cases collected.get? c with
  | none => exact (tableOf_eq_nil (ite_self [])).symm
  | some entries => rfl

theorem forall₂_tableOf_iff {config : TableConfig} {collected : EntriesByChip}
    {tables : List (Chip × List Entry)} :
    List.Forall₂ (fun e t => (e.1, tableOf config e.2) = t) collected.entries tables ↔
      (collected.mapValues fun _ => tableOf config).entries = tables := by
  rw [← List.forall₂_eq_eq_eq]
  exact List.forall₂_map_left_iff.symm

/-- Once entries are collected, building ends in their tables, or at the first chip whose table does
not pass. -/
theorem ends_build_of_collected [Build] {trees : List RoutingTree} {keys : KeyAssignment}
    {collected : EntriesByChip} (h : EntriesByChip.ofTrees keys trees = .ok collected) (m : Machine)
    (config : TableConfig) :
    Ends (build trees keys m config)
      (fun f => ∃ before e after, collected.entries = before ++ e :: after ∧
        (∀ d ∈ before, Passes m config d) ∧ Stops m config e f)
      (fun tables => (∀ e ∈ collected.entries, Passes m config e) ∧
        ofCollected config collected = tables) := by
  unfold build
  rw [h]
  refine Ends.bind (P := (collected = ·)) rfl fun _ ht => ?_
  subst ht
  have htables := Ends.mapM_first (l := collected.entries) fun e _ => ends_checkedTable m config e
  refine Ends.bind (htables.imp ?_ fun _ => id) fun tables htables => ?_
  · rintro f ⟨before, e, after, heq, hbefore, hstops⟩
    exact ⟨before, e, after, heq, fun d hd => (hbefore d hd).elim fun _ hd => hd.1, hstops⟩
  · rw [List.forall₂_and_left] at htables
    rw [← forall₂_tableOf_iff.1 htables.2]
    exact .pure ⟨htables.1, rfl⟩

/-- Tables are built exactly if entries can be collected and the table of every chip passes. -/
theorem build_eq_ok [Build] {trees : List RoutingTree} {keys : KeyAssignment} {m : Machine}
    {config : TableConfig} {tables : RoutingTables} : build trees keys m config = .ok tables ↔
      ∃ collected, EntriesByChip.ofTrees keys trees = .ok collected ∧
        (∀ e ∈ collected.entries, Passes m config e) ∧ ofCollected config collected = tables := by
  unfold build
  simp only [bind_eq_ok, pure_eq_ok, mapM_eq_ok, checkedTable_eq_ok, List.forall₂_and_left]
  refine exists_congr fun collected => and_congr_right fun _ => ?_
  constructor
  · rintro ⟨_, ⟨hpasses, htables⟩, rfl⟩
    rw [← forall₂_tableOf_iff.1 htables]
    exact ⟨hpasses, rfl⟩
  · rintro ⟨hpasses, rfl⟩
    exact ⟨_, ⟨hpasses, forall₂_tableOf_iff.2 rfl⟩, rfl⟩

/-- Every chip has the table made of the entries collected there. -/
theorem collected_of_build [Build] {trees : List RoutingTree} {keys : KeyAssignment} {m : Machine}
    {config : TableConfig} {tables : RoutingTables}
    (hbuild : build trees keys m config = .ok tables) :
    ∃ collected, EntriesByChip.Collected (Call.ofTrees keys trees) collected ∧
      ∀ c, tables.tableAt c = tableOf config (collected.entriesAt c) := by
  obtain ⟨collected, hcollected, _, rfl⟩ := build_eq_ok.1 hbuild
  exact ⟨collected, (EntriesByChip.collected_ofTrees keys trees).of_eq_ok hcollected,
    tableAt_ofCollected config collected⟩

/-- For any two nets, keys are the same or no packet has both. -/
def SeparateKeys (trees : List RoutingTree) (keys : KeyAssignment) : Prop :=
  ∀ s ∈ trees, ∀ t ∈ trees, ∀ j k, keys.keyOf s.net = .ok j → keys.keyOf t.net = .ok k →
    (Pattern.of j.key j.mask).SameOrApart (.of k.key k.mask)

theorem apart_entriesAt {trees : List RoutingTree} {keys : KeyAssignment} {t : EntriesByChip}
    (h : EntriesByChip.Collected (Call.ofTrees keys trees) t) (hkeys : SeparateKeys trees keys)
    (c : Chip) : Apart (t.entriesAt c) := by
  have hpattern : ∀ e ∈ t.entriesAt c, ∃ tree ∈ trees, ∃ key, keys.keyOf tree.net = .ok key ∧
      e.entry.pattern = .of key.key key.mask := by
    intro e he
    obtain ⟨tree, htree, key, hkey, _, _, _, rfl⟩ := h.exists_node he
    exact ⟨tree, htree, key, hkey, rfl⟩
  refine ⟨h.nodup c, fun e he => ?_, fun a ha b hb => ?_⟩
  · obtain ⟨_, _, key, _, heq⟩ := hpattern e he
    exact heq ▸ Pattern.clean_of _ _
  · obtain ⟨s, hs, j, hj, heqa⟩ := hpattern a ha
    obtain ⟨t, ht, k, hk, heqb⟩ := hpattern b hb
    rw [heqa, heqb]
    exact hkeys s hs t ht j k hj hk

theorem apart_of_mem {trees : List RoutingTree} {keys : KeyAssignment} {t : EntriesByChip}
    (h : EntriesByChip.Collected (Call.ofTrees keys trees) t) (hkeys : SeparateKeys trees keys)
    {e : Chip × List TreeEntry} (he : e ∈ t.entries) : Apart e.2 :=
  EntriesByChip.entriesAt_of_mem he ▸ apart_entriesAt h hkeys e.1

/-- A packet with key `w` goes on from a node as its tree says: by an entry, or without one if that
is the way it goes by default and such entries are left out. -/
def KeepsRoute (config : TableConfig) (tables : RoutingTables) (n : RouteNode) (w : BitVec 32) :
    Prop :=
  lookup (tables.tableAt n.chip) w = some n.route ∨
    config.elide ∧ lookup (tables.tableAt n.chip) w = none ∧
      ∃ a, n.arrivedOn = some a ∧ n.route = RouteSet.empty.withLink a.opposite

theorem mem_calls {trees : List RoutingTree} {keys : KeyAssignment} {t : RoutingTree}
    {key : Pattern} {n : RouteNode} (ht : t ∈ trees) (hkey : keys.keyOf t.net = .ok key)
    (hn : n ∈ t.nodes) : Call.ofNode key n ∈ Call.ofTrees keys trees :=
  Call.mem_ofTrees.2 ⟨t, ht, key, hkey, n, hn, rfl⟩

/-- What a table does with the packets of a node. -/
theorem lookup_tableAt {trees : List RoutingTree} {keys : KeyAssignment} {config : TableConfig}
    {tables : RoutingTables} {collected : EntriesByChip}
    (hcollected : EntriesByChip.Collected (Call.ofTrees keys trees) collected)
    (htable : ∀ c, tables.tableAt c = tableOf config (collected.entriesAt c))
    (hkeys : SeparateKeys trees keys) {t : RoutingTree} (ht : t ∈ trees) {key : Pattern}
    (hkey : keys.keyOf t.net = .ok key) {n : RouteNode} (hn : n ∈ t.nodes) {w : BitVec 32}
    (hw : (Pattern.of key.key key.mask).accepts w) :
    ∃ first, Call.first (Call.ofTrees keys trees) n.chip (.of key.key key.mask) = some first ∧
      first.entry.route = n.route ∧ lookup (tables.tableAt n.chip) w =
        if config.elide ∧ first.isStraight then none else some n.route := by
  have hcall : Call.ofNode key n ∈ Call.ofTrees keys trees := mem_calls ht hkey hn
  obtain ⟨first, hfirst⟩ := Call.exists_first (c := n.chip) (e := .ofNode key n) hcall
  have hroute : first.entry.route = n.route := hcollected.same_route _ hcall first hfirst
  have hpattern : first.entry.pattern = .of key.key key.mask := (Call.first_eq_some hfirst).1
  have hmem : first ∈ collected.entriesAt n.chip :=
    hcollected.mem_entriesAt_iff.2 (by rw [hpattern]; exact hfirst)
  refine ⟨first, hfirst, hroute, ?_⟩
  rw [htable, ← hroute]
  exact (apart_entriesAt hcollected hkeys n.chip).lookup_tableOf hmem (by rwa [hpattern])

/-- Of the nodes on a chip whose trees have one key, the first decides whether an entry is made. So
a route is kept unless entries are left out, the packets of the first of these nodes go straight on,
and those of this node come in on another link. Keys of no net that comes to a chip are accepted by
no entry there. -/
theorem build_keeps_routes [Build] {trees : List RoutingTree} {keys : KeyAssignment} {m : Machine}
    {config : TableConfig} {tables : RoutingTables}
    (hbuild : build trees keys m config = .ok tables) (hkeys : SeparateKeys trees keys) :
    (∀ t ∈ trees, ∀ key, keys.keyOf t.net = .ok key → ∀ n ∈ t.nodes, ∀ w,
      (Pattern.of key.key key.mask).accepts w →
      ∃ first, Call.first (Call.ofTrees keys trees) n.chip (.of key.key key.mask) = some first ∧
        lookup (tables.tableAt n.chip) w =
          (if config.elide ∧ first.isStraight then none else some n.route) ∧
        (KeepsRoute config tables n w ↔
          ¬(config.elide ∧ first.isStraight ∧ first.arrivedOn ≠ n.arrivedOn))) ∧
    ∀ c w, (∀ t ∈ trees, ∀ key, keys.keyOf t.net = .ok key → (∃ n ∈ t.nodes, n.chip = c) →
      ¬(Pattern.of key.key key.mask).accepts w) → ∀ e ∈ tables.tableAt c, ¬e.pattern.accepts w := by
  obtain ⟨collected, hcollected, htable⟩ := collected_of_build hbuild
  constructor
  · intro t ht key hkey n hn w hw
    obtain ⟨first, hfirst, hroute, hlookup⟩ := lookup_tableAt hcollected htable hkeys ht hkey hn hw
    refine ⟨first, hfirst, hlookup, ?_⟩
    have hproper : first.entry.route.Proper := hroute ▸ n.proper_route
    by_cases hdrop : config.elide ∧ first.isStraight
    · obtain ⟨a, ha, hstraight⟩ := (TreeEntry.isStraight_iff hproper).1 hdrop.2
      rw [hroute] at hstraight
      rw [KeepsRoute, hlookup, if_pos hdrop, ha]
      constructor
      · rintro (hsome | ⟨_, _, b, hb, hb'⟩)
        · cases hsome
        · rw [hb, RouteSet.eq_of_withLink_opposite (hstraight.symm.trans hb')]
          exact fun hne => hne.2.2 rfl
      · intro hsame
        refine .inr ⟨hdrop.1, rfl, a, ?_, hstraight⟩
        by_contra hne
        exact hsame ⟨hdrop.1, hdrop.2, Ne.symm hne⟩
    · rw [KeepsRoute, hlookup, if_neg hdrop]
      simpa using fun helide hs => absurd ⟨helide, hs⟩ hdrop
  · intro c w hw e he haccepts
    rw [htable] at he
    obtain ⟨call, hcall, haccepts⟩ := accepts_of_tableOf he haccepts
    have hmem := (Call.first_eq_some (hcollected.mem_entriesAt_iff.1 hcall)).2
    obtain ⟨t, ht, key, hkey, n, hn, heq⟩ := Call.mem_ofTrees.1 hmem
    cases heq
    exact hw t ht key hkey ⟨n, hn, rfl⟩ haccepts

/-- A mesh in which two ways meet on a chip and go on together. -/
def meeting : Machine where
  toBlueprint := { Blueprint.uniform ⟨3, 2, .mesh⟩ with
    deadChips := InsertionSet.empty.insert ⟨2, 1⟩ }
  valid := Blueprint.fault?_eq_none_iff.1 (by decide +kernel)

/-- The ways from the west and from the north to the chip in the east. -/
def meetingTrees : List RoutingTree :=
  [⟨0, #[⟨⟨0, 0⟩, none, [(.east, 1)], false, []⟩, ⟨⟨1, 0⟩, some .west, [(.east, 2)], false, []⟩,
      ⟨⟨2, 0⟩, some .west, [], true, []⟩]⟩,
    ⟨1, #[⟨⟨1, 1⟩, none, [(.south, 1)], false, []⟩, ⟨⟨1, 0⟩, some .north, [(.east, 2)], false, []⟩,
      ⟨⟨2, 0⟩, some .west, [], true, []⟩]⟩]

def meetingKeys : KeyAssignment := ⟨⟨1, 1, 1⟩, #[⟨1, 7⟩, ⟨1, 7⟩]⟩

theorem separateKeys_meeting : SeparateKeys meetingTrees meetingKeys := by
  have hkey : ∀ t ∈ meetingTrees, meetingKeys.keyOf t.net = .ok ⟨1, 7⟩ := by
    intro t ht
    simp only [meetingTrees, List.mem_cons, List.not_mem_nil, or_false] at ht
    rcases ht with rfl | rfl <;> rfl
  intro s hs t ht j k hj hk
  rw [hkey s hs] at hj
  rw [hkey t ht] at hk
  cases hj
  cases hk
  exact .inl rfl

def meetingTables : RoutingTables :=
  .ofList [(⟨0, 0⟩, [⟨⟨1, 7⟩, ⟨1⟩⟩]), (⟨1, 1⟩, [⟨⟨1, 7⟩, ⟨32⟩⟩]), (⟨2, 0⟩, [⟨⟨1, 7⟩, ⟨64⟩⟩])]

theorem build_meeting : build meetingTrees meetingKeys meeting { elide := true } =
    .ok meetingTables := by
  cbv

theorem build_keeps_routes_meeting : SeparateKeys meetingTrees meetingKeys ∧
    build meetingTrees meetingKeys meeting { elide := true } = .ok meetingTables ∧
    KeepsRoute { elide := true } meetingTables ⟨⟨1, 0⟩, some .west, [(.east, 2)], false, []⟩ 1 := by
  refine ⟨separateKeys_meeting, build_meeting, ?_⟩
  obtain ⟨first, hfirst, _, hkeeps⟩ := (build_keeps_routes build_meeting separateKeys_meeting).1
    _ (List.mem_cons_self ..) ⟨1, 7⟩ rfl ⟨⟨1, 0⟩, some .west, [(.east, 2)], false, []⟩
    (by decide +kernel) 1 (by decide)
  refine hkeeps.2 fun hlost => hlost.2.2 ?_
  have hwest : Call.first (Call.ofTrees meetingKeys meetingTrees) ⟨1, 0⟩ (.of 1 7) =
    some ⟨⟨⟨1, 7⟩, ⟨1⟩⟩, some .west⟩ := by decide +kernel
  rw [hwest] at hfirst
  cases hfirst
  rfl

/-- On the chip where the ways meet, the packets from the west need no entry and those from the
north are lost without one. -/
theorem build_loses_route :
    meeting.routeNet 0 ⟨0, 0⟩ (.ofList [.cores ⟨2, 0⟩]) = .ok meetingTrees[0] ∧
    meeting.routeNet 1 ⟨1, 1⟩ (.ofList [.cores ⟨2, 0⟩]) = .ok meetingTrees[1] ∧
    SeparateKeys meetingTrees meetingKeys ∧
    build meetingTrees meetingKeys meeting { elide := true } = .ok meetingTables ∧
    ∃ t ∈ meetingTrees, ∃ key, meetingKeys.keyOf t.net = .ok key ∧
      ∃ n ∈ t.nodes, ¬KeepsRoute { elide := true } meetingTables n key.key := by
  refine ⟨by cbv, by cbv, separateKeys_meeting, build_meeting, meetingTrees[1], by decide, ⟨1, 7⟩,
    rfl, ⟨⟨1, 0⟩, some .north, [(.east, 2)], false, []⟩, by decide +kernel, ?_⟩
  rintro (hkept | ⟨_, _, a, ha, hstraight⟩)
  · revert hkept
    decide +kernel
  · cases ha
    revert hstraight
    decide

end RoutingTables

end HexFabric
