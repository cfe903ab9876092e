import HexFabric.Proofs.Table.Fitting
import Mathlib

/-! Building tables with straight entries left out. Without minimising, that makes no table longer.
With it, an entry that is left out is not there for others to be merged with, and then a table may
get longer: `RoutingTables.build_overflows_by_elision`. It does not where no net that goes straight
through a chip shares an entry there with one that does not: `RoutingTables.build_elide`. -/

namespace HexFabric

/-- The same options with straight entries left out or not. -/
def TableConfig.withElide (config : TableConfig) (elide : Bool) : TableConfig :=
  { config with elide }

@[simp] theorem TableConfig.minimise_withElide (config : TableConfig) (elide : Bool) :
    (config.withElide elide).minimise = config.minimise := rfl

/-- Packets go on from the node as they would by default. -/
def RouteNode.Straight (n : RouteNode) : Prop :=
  ∃ a, n.arrivedOn = some a ∧ n.route = RouteSet.empty.withLink a.opposite

theorem RouteNode.isStraight_ofNode {n : RouteNode} {key : Pattern} :
    (TreeEntry.ofNode key n).isStraight ↔ n.Straight :=
  TreeEntry.isStraight_iff (e := .ofNode key n) n.proper_route

/-! ### The table of one chip -/

open scoped Classical in
/-- If no entry of the minimised table gets keys both of some entries of its route and of others, the
former are merged as if there were no others. -/
theorem Exclusive.minimise_subset {few all : List Entry} (hall : Exclusive all) (hsub : few ⊆ all)
    (hunmixed : ∀ e ∈ HexFabric.minimise all, e.pattern.Unmixed (Offers few · e.route)) :
    HexFabric.minimise few ⊆ HexFabric.minimise all := by
  have hfew : Exclusive few :=
    ⟨fun e he => hall.clean e (hsub he), fun a ha b hb => hall.unique a (hsub ha) b (hsub hb)⟩
  intro e he
  obtain ⟨kept, hkept, hp⟩ := hfew.mem_minimise_iff.1 he
  obtain ⟨hascending, hne⟩ := Groups.group_ofTable hkept
  obtain ⟨q, hq⟩ := List.exists_mem_of_ne_nil kept hne
  obtain ⟨patterns, hgroup⟩ := Groups.exists_group (hsub ((Groups.mem_group_iff hkept).1 hq))
  have hseparate : Separate patterns := (Groups.exclusive_ofTable hall).separate _ hgroup
  have heq : kept = patterns.filter (·.Within (Offers few · e.route)) := by
    refine Ascending.eq_of_mem_iff hascending (hseparate.filter _).ascending fun p => ?_
    rw [Groups.mem_group_iff hkept, List.mem_filter, Groups.mem_group_iff hgroup, decide_eq_true_iff]
    constructor
    · exact fun hmem => ⟨hsub hmem, fun key hkey => ⟨_, hmem, rfl, hkey⟩⟩
    · rintro ⟨hmem, hwithin⟩
      have hself : p.accepts p.key := Pattern.accepts_iff.2 (hall.clean _ hmem)
      obtain ⟨other, hother, _, hkey⟩ := hwithin p.key hself
      rwa [hall.unique _ hmem _ (hsub hother) p.key hself hkey]
  have hmerged : ∀ p ∈ mergeAll [] patterns, p.Unmixed (Offers few · e.route) := fun p hp =>
    hunmixed ⟨p, e.route⟩ (hall.mem_minimise_iff.2 ⟨patterns, hgroup, hp⟩)
  rw [heq, hseparate.mergeAll_filter hmerged] at hp
  exact hall.mem_minimise_iff.2 ⟨patterns, hgroup, List.mem_of_mem_filter hp⟩

/-- The entry accepts keys both of entries that are straight and of entries that are not. -/
def Mixes (entries : List TreeEntry) (e : Entry) : Prop :=
  (∃ a ∈ entries, a.isStraight ∧ ∃ w, e.pattern.accepts w ∧ a.entry.pattern.accepts w) ∧
    ∃ a ∈ entries, ¬a.isStraight ∧ ∃ w, e.pattern.accepts w ∧ a.entry.pattern.accepts w

section TableOf

variable {entries : List TreeEntry} {config : TableConfig}

theorem tableOf_perm (config : TableConfig) (entries : List TreeEntry) :
    (RoutingTables.tableOf config entries).Perm
      (if config.minimise then minimise ((config.kept entries).map (·.entry))
        else (config.kept entries).map (·.entry)) :=
  List.mergeSort_perm _ _

theorem Apart.unmixed_of_not_mixes (h : Apart entries) {e : Entry}
    (he : e ∈ minimise (((config.withElide false).kept entries).map (·.entry)))
    (hmixes : ¬Mixes entries e) : e.pattern.Unmixed
      (Offers (((config.withElide true).kept entries).map (·.entry)) · e.route) := by
  by_cases hkept : ∃ key, e.pattern.accepts key ∧
      Offers (((config.withElide true).kept entries).map (·.entry)) key e.route
  · left
    intro key hkey
    by_contra hnone
    obtain ⟨key', hkey', f, hf, _, hfkey⟩ := hkept
    obtain ⟨b, hb, rfl⟩ := List.mem_map.1 hf
    obtain ⟨hb, hbkept⟩ := h.mem_kept.1 hb
    obtain ⟨f, hf, hroute, hfkey'⟩ := (offers_minimise _ key e.route).1 ⟨e, he, rfl, hkey⟩
    obtain ⟨a, ha, rfl⟩ := List.mem_map.1 hf
    have ha := mem_of_kept ha
    refine hmixes ⟨⟨a, ha, ?_, key, hkey, hfkey'⟩, b, hb, fun hstraight => ?_, key', hkey', hfkey⟩
    · by_contra hstraight
      refine hnone ⟨a.entry, List.mem_map_of_mem (h.mem_kept.2 ⟨ha, ?_⟩), hroute, hfkey'⟩
      exact fun hdrop => hstraight hdrop.2
    · exact hbkept ⟨rfl, hstraight⟩
  · exact .inr fun key hkey hoffers => hkept ⟨key, hkey, hoffers⟩

/-- Without minimising, or where no minimised entry mixes keys, leaving out straight entries does not
make the table longer. -/
theorem Apart.length_tableOf_elide_le (h : Apart entries) (hunmixed : config.minimise →
      ∀ e ∈ RoutingTables.tableOf (config.withElide false) entries, ¬Mixes entries e) :
    (RoutingTables.tableOf (config.withElide true) entries).length ≤
      (RoutingTables.tableOf (config.withElide false) entries).length := by
  have hsub : (((config.withElide true).kept entries).map (·.entry)).Sublist
      (((config.withElide false).kept entries).map (·.entry)) := kept_sublist.map _
  have hall := h.exclusive_kept (config.withElide false)
  have hperm := tableOf_perm (config.withElide false) entries
  rw [(tableOf_perm _ _).length_eq, hperm.length_eq]
  rw [TableConfig.minimise_withElide] at hperm ⊢
  by_cases hminimise : config.minimise
  · rw [if_pos hminimise] at hperm
    rw [TableConfig.minimise_withElide, if_pos hminimise, if_pos hminimise]
    have hfew := (h.exclusive_kept (config.withElide true)).nodup_minimise
    refine (hfew.subperm (hall.minimise_subset hsub.subset fun e he => ?_)).length_le
    exact h.unmixed_of_not_mixes he (hunmixed hminimise e (hperm.mem_iff.2 he))
  · simpa [hminimise] using hsub.length_le

end TableOf

/-! ### All tables -/

namespace RoutingTables

/-- An entry of the table accepts keys both of nets that go straight through the chip and of nets
that do not. -/
def MixedAt (trees : List RoutingTree) (keys : KeyAssignment) (c : Chip) (table : List Entry) :
    Prop :=
  ∃ e ∈ table,
    (∃ w, e.pattern.accepts w ∧ Visited trees keys (fun n => n.chip = c ∧ n.Straight) w) ∧
    ∃ w, e.pattern.accepts w ∧ Visited trees keys (fun n => n.chip = c ∧ ¬n.Straight) w

theorem MixedAt.of_mixes {trees : List RoutingTree} {keys : KeyAssignment} {c : Chip}
    {collected : EntriesByChip}
    (h : EntriesByChip.Collected (Call.ofTrees keys trees) collected) {table : List Entry}
    {e : Entry} (he : e ∈ table) (hmixes : Mixes (collected.entriesAt c) e) :
    MixedAt trees keys c table := by
  obtain ⟨⟨a, ha, hstraight, w, hw, haw⟩, b, hb, hturns, v, hv, hbv⟩ := hmixes
  obtain ⟨s, hs, key, hkey, n, hn, hchip, rfl⟩ := h.exists_node ha
  obtain ⟨t, ht, key', hkey', n', hn', hchip', rfl⟩ := h.exists_node hb
  rw [RouteNode.isStraight_ofNode] at hstraight hturns
  exact ⟨e, he, ⟨w, hw, s, hs, key, hkey, haw, n, hn, hchip, hstraight⟩,
    v, hv, t, ht, key', hkey', hbv, n', hn', hchip', hturns⟩

/-- What leaving straight entries out does to tables that can be built with them. Without minimising,
tables can be built and none is longer. With it, that holds of chips where no net that goes straight
through shares an entry with one that does not, and only the table of another chip may no longer
fit. -/
theorem build_elide [Build] {trees : List RoutingTree} {keys : KeyAssignment} {m : Machine}
    {config : TableConfig} {tables : RoutingTables} (hkeys : SeparateKeys trees keys)
    (hbuild : build trees keys m (config.withElide false) = .ok tables) :
    (∃ elided, build trees keys m (config.withElide true) = .ok elided ∧
      ∀ c, (config.minimise → ¬MixedAt trees keys c (tables.tableAt c)) →
        (elided.tableAt c).length ≤ (tables.tableAt c).length) ∨
    ∃ c n, config.minimise ∧ MixedAt trees keys c (tables.tableAt c) ∧
      build trees keys m (config.withElide true) =
        .error (.error (.routingTableOverflow c n (m.routerLimit c))) := by
  obtain ⟨collected, hcollected, hpasses, rfl⟩ := build_eq_ok.1 hbuild
  have hheld : EntriesByChip.Collected (Call.ofTrees keys trees) collected :=
    (EntriesByChip.collected_ofTrees keys trees).of_eq_ok hcollected
  simp only [tableAt_ofCollected]
  have hle : ∀ c, (config.minimise → ¬MixedAt trees keys c
        (tableOf (config.withElide false) (collected.entriesAt c))) →
      (tableOf (config.withElide true) (collected.entriesAt c)).length ≤
        (tableOf (config.withElide false) (collected.entriesAt c)).length := by
    intro c hunmixed
    refine (apart_entriesAt hheld hkeys c).length_tableOf_elide_le fun hminimise e he hmixes => ?_
    exact hunmixed hminimise (.of_mixes hheld he hmixes)
  have hends := ends_build_of_collected hcollected m (config.withElide true)
  cases helided : build trees keys m (config.withElide true) with
  | ok elided =>
    obtain ⟨_, rfl⟩ := hends.of_eq_ok helided
    refine .inl ⟨_, rfl, fun c hunmixed => ?_⟩
    rw [tableAt_ofCollected]
    exact hle c hunmixed
  | error f =>
    obtain ⟨before, e, after, heq, _, hstops⟩ := hends.of_eq_error helided
    have he : e ∈ collected.entries := heq ▸ List.mem_append_right _ List.mem_cons_self
    cases hstops with
    | misrouting _ hchanged =>
      exact absurd ((apart_of_mem hheld hkeys he).mergesAlike _) hchanged
    | overflow _ hover =>
      have hshared : config.minimise ∧ MixedAt trees keys e.1
          (tableOf (config.withElide false) (collected.entriesAt e.1)) := by
        by_contra hnot
        have hshort := hle e.1 fun hminimise hmixed => hnot ⟨hminimise, hmixed⟩
        rw [EntriesByChip.entriesAt_of_mem he] at hshort
        exact Nat.not_le.2 hover (Nat.le_trans hshort (hpasses e he).length_le)
      exact .inr ⟨e.1, _, hshared.1, hshared.2, rfl⟩

/-- A row in which the router in the middle holds one entry. -/
def narrow : Machine where
  toBlueprint := { Blueprint.uniform ⟨3, 1, .mesh⟩ with
    routerExceptions := InsertionMap.empty.insert ⟨1, 0⟩ 1 }
  valid := Blueprint.fault?_eq_none_iff.1 (by decide +kernel)

/-- One way along the whole row, and three that start in the middle. -/
def joiningTrees : List RoutingTree :=
  ⟨0, #[⟨⟨0, 0⟩, none, [(.east, 1)], false, []⟩, ⟨⟨1, 0⟩, some .west, [(.east, 2)], false, []⟩,
      ⟨⟨2, 0⟩, some .west, [], true, []⟩]⟩ ::
    [1, 2, 3].map fun net => ⟨net, #[⟨⟨1, 0⟩, none, [(.east, 1)], false, []⟩,
      ⟨⟨2, 0⟩, some .west, [], true, []⟩]⟩

def joiningKeys : KeyAssignment := ⟨⟨0, 0, 2⟩, #[⟨0, 3⟩, ⟨1, 3⟩, ⟨2, 3⟩, ⟨3, 3⟩]⟩

def joinedTables : RoutingTables :=
  .ofList [(⟨0, 0⟩, [⟨⟨0, 3⟩, ⟨1⟩⟩]), (⟨1, 0⟩, [⟨⟨0, 0⟩, ⟨1⟩⟩]), (⟨2, 0⟩, [⟨⟨0, 0⟩, ⟨64⟩⟩])]

def plainTables : RoutingTables :=
  .ofList [(⟨0, 0⟩, [⟨⟨0, 3⟩, ⟨1⟩⟩]),
    (⟨1, 0⟩, [⟨⟨0, 3⟩, ⟨1⟩⟩, ⟨⟨1, 3⟩, ⟨1⟩⟩, ⟨⟨2, 3⟩, ⟨1⟩⟩, ⟨⟨3, 3⟩, ⟨1⟩⟩]),
    (⟨2, 0⟩, [⟨⟨0, 3⟩, ⟨64⟩⟩, ⟨⟨1, 3⟩, ⟨64⟩⟩, ⟨⟨2, 3⟩, ⟨64⟩⟩, ⟨⟨3, 3⟩, ⟨64⟩⟩])]

theorem keyOf_joining {i : Nat} {k : Pattern} (h : joiningKeys.keyOf i = .ok k) :
    i < 4 ∧ k = ⟨BitVec.ofNat 32 i, 3⟩ := by
  have hi : i < 4 := (Array.getElem?_eq_some_iff.1 (fetch_eq_ok.1 h)).1
  refine ⟨hi, ?_⟩
  match i with
  | 0 | 1 | 2 | 3 => cases h; rfl

theorem apart_joining {i j : Nat} {a b : Pattern} (hij : i ≠ j)
    (ha : joiningKeys.keyOf i = .ok a) (hb : joiningKeys.keyOf j = .ok b) (w : BitVec 32) :
    ¬(a.accepts w ∧ b.accepts w) := by
  obtain ⟨hi, rfl⟩ := keyOf_joining ha
  obtain ⟨hj, rfl⟩ := keyOf_joining hb
  rintro ⟨hwa, hwb⟩
  rw [Pattern.accepts_iff] at hwa hwb
  have heq := congrArg BitVec.toNat (hwa.symm.trans hwb)
  simp only [BitVec.toNat_ofNat] at heq
  omega

theorem separateKeys_joining : SeparateKeys joiningTrees joiningKeys := by
  have hclean : ∀ {i k}, joiningKeys.keyOf i = .ok k → Pattern.of k.key k.mask = k := by
    intro i k hk
    obtain ⟨hi, rfl⟩ := keyOf_joining hk
    match i with
    | 0 | 1 | 2 | 3 => decide
  intro s _ t _ j k hj hk
  rw [hclean hj, hclean hk]
  by_cases hnet : s.net = t.net
  · rw [hnet, hk] at hj
    cases hj
    exact .inl rfl
  · exact .inr (apart_joining hnet hj hk)

/-- With all entries, the router in the middle needs one for the four keys. Without that of the way
along the row, it needs two for the other three, and has room for one. -/
theorem build_overflows_by_elision :
    narrow.routeNet 0 ⟨0, 0⟩ (.ofList [.cores ⟨2, 0⟩]) = .ok joiningTrees[0] ∧
    narrow.routeNet 1 ⟨1, 0⟩ (.ofList [.cores ⟨2, 0⟩]) = .ok joiningTrees[1] ∧
    narrow.routeNet 2 ⟨1, 0⟩ (.ofList [.cores ⟨2, 0⟩]) = .ok joiningTrees[2] ∧
    narrow.routeNet 3 ⟨1, 0⟩ (.ofList [.cores ⟨2, 0⟩]) = .ok joiningTrees[3] ∧
    (∀ i j a b, i ≠ j → joiningKeys.keyOf i = .ok a → joiningKeys.keyOf j = .ok b →
      ∀ w, ¬(a.accepts w ∧ b.accepts w)) ∧
    build joiningTrees joiningKeys narrow { elide := false } = .ok joinedTables ∧
    build joiningTrees joiningKeys narrow { elide := true } =
      .error (.error (.routingTableOverflow ⟨1, 0⟩ 2 1)) := by
  refine ⟨by cbv, by cbv, by cbv, by cbv, ?_, by cbv, by cbv⟩
  exact fun i j a b hij ha hb w => apart_joining hij ha hb w

/-- Without minimising, the table in the middle is no longer for leaving out the entry. With it, that
holds of the chip at the end, and the table in the middle gets longer: its one entry is shared by the
way that goes straight through and those that start there. -/
theorem build_elide_joining :
    SeparateKeys joiningTrees joiningKeys ∧
    (build joiningTrees joiningKeys meeting (TableConfig.withElide { minimise := false } false) =
        .ok plainTables ∧
      ∃ elided, build joiningTrees joiningKeys meeting
          (TableConfig.withElide { minimise := false } true) = .ok elided ∧
        (elided.tableAt ⟨1, 0⟩).length ≤ 4) ∧
    (build joiningTrees joiningKeys meeting (TableConfig.withElide {} false) = .ok joinedTables ∧
      ∃ elided, build joiningTrees joiningKeys meeting (TableConfig.withElide {} true) = .ok elided ∧
        (elided.tableAt ⟨2, 0⟩).length ≤ 1 ∧ (elided.tableAt ⟨1, 0⟩).length = 2) ∧
    build joiningTrees joiningKeys narrow (TableConfig.withElide {} false) = .ok joinedTables ∧
    MixedAt joiningTrees joiningKeys ⟨1, 0⟩ (joinedTables.tableAt ⟨1, 0⟩) := by
  have hplain : build joiningTrees joiningKeys meeting
      (TableConfig.withElide { minimise := false } false) = .ok plainTables := by
    cbv
  have hjoined : build joiningTrees joiningKeys meeting (TableConfig.withElide {} false) =
      .ok joinedTables := by
    cbv
  have hnarrow : build joiningTrees joiningKeys narrow (TableConfig.withElide {} false) =
      .ok joinedTables := by
    cbv
  have helided : build joiningTrees joiningKeys meeting (TableConfig.withElide {} true) =
      .ok (.ofList [(⟨0, 0⟩, [⟨⟨0, 3⟩, ⟨1⟩⟩]), (⟨1, 0⟩, [⟨⟨1, 1⟩, ⟨1⟩⟩, ⟨⟨2, 3⟩, ⟨1⟩⟩]),
        (⟨2, 0⟩, [⟨⟨0, 0⟩, ⟨64⟩⟩])]) := by
    cbv
  have hover : build joiningTrees joiningKeys narrow (TableConfig.withElide {} true) =
      .error (.error (.routingTableOverflow ⟨1, 0⟩ 2 1)) := by
    cbv
  refine ⟨separateKeys_joining, ⟨hplain, ?_⟩, ⟨hjoined, ?_⟩, hnarrow, ?_⟩
  · rcases build_elide separateKeys_joining hplain with ⟨elided, helided, hle⟩ | ⟨_, _, hminimise, _⟩
    · exact ⟨elided, helided, hle ⟨1, 0⟩ fun hminimise => absurd hminimise Bool.false_ne_true⟩
    · cases hminimise
  · rcases build_elide separateKeys_joining hjoined with ⟨elided, h, hle⟩ | ⟨_, _, _, _, h⟩
    · refine ⟨elided, h, hle ⟨2, 0⟩ fun _ => ?_, ?_⟩
      · -- nothing goes straight through the chip at the end
        rintro ⟨_, _, ⟨_, _, t, ht, _, _, _, n, hn, hchip, hstraight⟩, _⟩
        have hturns : ∀ t ∈ joiningTrees, ∀ n ∈ t.nodes, n.chip = ⟨2, 0⟩ →
            (TreeEntry.ofNode ⟨0, 3⟩ n).isStraight = false := by decide
        rw [← @RouteNode.isStraight_ofNode n ⟨0, 3⟩, hturns t ht n hn hchip] at hstraight
        cases hstraight
      · obtain rfl := Except.ok.inj (helided.symm.trans h)
        decide
    · cases helided.symm.trans h
  · rcases build_elide separateKeys_joining hnarrow with ⟨elided, h, _⟩ | ⟨c, n, _, hmixed, h⟩
    · cases hover.symm.trans h
    · cases hover.symm.trans h
      exact hmixed

end RoutingTables

end HexFabric
