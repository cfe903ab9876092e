import HexFabric.Proofs.Table.Build

/-! Tables of nets that share no packets. Where the keys of different trees are apart and no tree
comes to a chip twice, all calls on a chip with one key are one call. So tables are always made, and
every node's packets go where the node says: `Unshared.forward_eq`. -/

namespace HexFabric

/-- No packet belongs to two trees, and no tree comes to a chip twice. -/
structure Unshared (trees : List RoutingTree) (keys : KeyAssignment) : Prop where
  net_lt : ∀ t ∈ trees, t.net < keys.keys.size
  apart : ∀ s ∈ trees, ∀ t ∈ trees, s ≠ t → ∀ j k, keys.keyOf s.net = .ok j →
    keys.keyOf t.net = .ok k → ∀ w,
      ¬((Pattern.of j.key j.mask).accepts w ∧ (Pattern.of k.key k.mask).accepts w)
  distinct : ∀ t ∈ trees, ∀ a ∈ t.nodes, ∀ b ∈ t.nodes, a.chip = b.chip → a = b

namespace RoutingTables

/-- Where a chip sends a packet: as its table says, or else on from the link it came in on to the
link opposite. A packet that starts at a chip without an entry for it goes nowhere. -/
def forward (tables : RoutingTables) (c : Chip) (arrivedOn : Option Link) (w : BitVec 32) :
    RouteSet :=
  match lookup (tables.tableAt c) w, arrivedOn with
  | some r, _ => r
  | none, some l => RouteSet.empty.withLink l.opposite
  | none, none => .empty

end RoutingTables

namespace Unshared

variable {trees : List RoutingTree} {keys : KeyAssignment}

theorem separateKeys (h : Unshared trees keys) : RoutingTables.SeparateKeys trees keys := by
  intro s hs t ht j k hj hk
  by_cases heq : s = t
  · rw [heq, hk] at hj
    cases hj
    exact .inl rfl
  · exact .inr (h.apart s hs t ht heq j k hj hk)

/-- A packet that two calls on one chip accept comes from one node. -/
theorem call_eq (h : Unshared trees keys) {a b : Call} (ha : a ∈ Call.ofTrees keys trees)
    (hb : b ∈ Call.ofTrees keys trees) (hchip : a.chip = b.chip) {w : BitVec 32}
    (hwa : a.pattern.accepts w) (hwb : b.pattern.accepts w) : a = b := by
  obtain ⟨s, hs, j, hj, n, hn, rfl⟩ := Call.mem_ofTrees.1 ha
  obtain ⟨t, ht, k, hk, n', hn', rfl⟩ := Call.mem_ofTrees.1 hb
  by_cases heq : s = t
  · subst heq
    rw [hj] at hk
    cases hk
    rw [h.distinct s hs n hn n' hn' hchip]
  · exact absurd ⟨hwa, hwb⟩ (h.apart s hs t ht heq j k hj hk w)

theorem consistent (h : Unshared trees keys) :
    EntriesByChip.Consistent (Call.ofTrees keys trees) := by
  intro a ha b hb hchip hpattern
  obtain ⟨_, _, key, _, n, _, rfl⟩ := Call.mem_ofTrees.1 ha
  have hself : (Call.ofNode key n).pattern.accepts key.key := Pattern.accepts_of_self _ _
  rw [h.call_eq ha hb hchip hself (hpattern ▸ hself)]

/-- Tables are made unless one does not fit its router. No assertion fails. -/
theorem ends_build [Build] (h : Unshared trees keys) (m : Machine) (config : TableConfig) :
    Ends (RoutingTables.build trees keys m config) Failure.Expected fun _ => True := by
  have hends := EntriesByChip.collected_ofTrees keys trees
  cases hcollected : EntriesByChip.ofTrees keys trees with
  | error f => exact absurd ⟨h.net_lt, h.consistent⟩ (hends.of_eq_error hcollected)
  | ok collected =>
    refine (RoutingTables.ends_build_of_collected hcollected m config).imp ?_ fun _ _ => trivial
    rintro _ ⟨_, e, _, heq, _, ⟨_, hchanged⟩ | ⟨_, _⟩⟩
    · have he : e ∈ collected.entries := heq ▸ List.mem_append_right _ List.mem_cons_self
      have hapart := RoutingTables.apart_of_mem (hends.of_eq_ok hcollected) h.separateKeys he
      exact absurd (hapart.mergesAlike config) hchanged
    · trivial

variable {m : Machine} {config : TableConfig} {tables : RoutingTables} {t : RoutingTree}
  {key : Pattern} {n : RouteNode} {w : BitVec 32}

/-- The packets of a node find its entry, unless the entry has been left out because they go
straight on. -/
theorem lookup_eq [Build] (h : Unshared trees keys)
    (hbuild : RoutingTables.build trees keys m config = .ok tables) (ht : t ∈ trees)
    (hkey : keys.keyOf t.net = .ok key) (hn : n ∈ t.nodes)
    (hw : (Pattern.of key.key key.mask).accepts w) :
    lookup (tables.tableAt n.chip) w =
      if config.elide ∧ (TreeEntry.ofNode key n).isStraight then none else some n.route := by
  obtain ⟨collected, hcollected, htable⟩ := RoutingTables.collected_of_build hbuild
  obtain ⟨first, hfirst, _, hlookup⟩ :=
    RoutingTables.lookup_tableAt hcollected htable h.separateKeys ht hkey hn hw
  obtain ⟨hpattern, hmem⟩ := Call.first_eq_some hfirst
  have hcall := RoutingTables.mem_calls ht hkey hn
  have heq : (⟨n.chip, first⟩ : Call) = .ofNode key n := by
    refine h.call_eq hmem hcall rfl (w := w) ?_ hw
    rw [Call.pattern, hpattern]
    exact hw
  have hentry : first = TreeEntry.ofNode key n := congrArg Call.entry heq
  rw [hlookup, hentry]

/-- A packet that comes to a node over the link of its parent goes on as the node says. -/
theorem forward_eq [Build] (h : Unshared trees keys)
    (hbuild : RoutingTables.build trees keys m config = .ok tables) (ht : t ∈ trees)
    (hkey : keys.keyOf t.net = .ok key) (hn : n ∈ t.nodes)
    (hw : (Pattern.of key.key key.mask).accepts w) :
    tables.forward n.chip n.arrivedOn w = n.route := by
  have hlookup := h.lookup_eq hbuild ht hkey hn hw
  unfold RoutingTables.forward
  by_cases hdrop : config.elide ∧ (TreeEntry.ofNode key n).isStraight
  · have hproper : (TreeEntry.ofNode key n).entry.route.Proper := n.proper_route
    obtain ⟨a, ha, hroute⟩ := (TreeEntry.isStraight_iff hproper).1 hdrop.2
    have harrived : n.arrivedOn = some a := ha
    rw [hlookup, if_pos hdrop, harrived]
    exact hroute.symm
  · rw [hlookup, if_neg hdrop]

/-- At its source, a packet finds an entry. -/
theorem exists_entry [Build] (h : Unshared trees keys)
    (hbuild : RoutingTables.build trees keys m config = .ok tables) (ht : t ∈ trees)
    (hkey : keys.keyOf t.net = .ok key) (hn : n ∈ t.nodes)
    (hw : (Pattern.of key.key key.mask).accepts w) (hsource : n.arrivedOn = none) :
    ∃ e ∈ tables.tableAt n.chip, e.pattern.accepts w := by
  have hkept : ¬(config.elide ∧ (TreeEntry.ofNode key n).isStraight) := by
    simp [TreeEntry.isStraight, TreeEntry.ofNode, hsource]
  have hlookup := h.lookup_eq hbuild ht hkey hn hw
  rw [if_neg hkept] at hlookup
  obtain ⟨e, he, _, haccepts⟩ := offers_of_lookup hlookup
  exact ⟨e, he, haccepts⟩

end Unshared

end HexFabric
