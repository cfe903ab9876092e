import HexFabric.Proofs.Table.Rivals

/-! Minimising a table in which every key is accepted by one entry at most. No pattern of another
route is ever in the way of a merge there, so the patterns of each route are merged as if there were
no other route: `Exclusive.mem_minimise_iff`. And every key is still accepted by one entry at most:
`Exclusive.minimise`. -/

namespace HexFabric

/-- Clean patterns, and every key is accepted by one entry at most. -/
structure Exclusive (table : List Entry) : Prop where
  clean : ∀ e ∈ table, e.pattern.Clean
  unique : ∀ a ∈ table, ∀ b ∈ table, ∀ key, a.pattern.accepts key → b.pattern.accepts key → a = b

theorem Exclusive.unambiguous {table : List Entry} (h : Exclusive table) : Unambiguous table :=
  fun a ha b hb hne key hkey => hne (congrArg _ (h.unique a ha b hb key hkey.1 hkey.2))

namespace Groups

/-- Every route has one group, of separate patterns, and every key is accepted in one group at
most. -/
structure Exclusive (groups : Groups) : Prop where
  nodup : (groups.map (·.1)).Nodup
  separate : ∀ g ∈ groups, Separate g.2
  unique : ∀ g ∈ groups, ∀ h ∈ groups, ∀ key, AcceptsSome g.2 key → AcceptsSome h.2 key → g = h

theorem exclusive_ofTable {table : List Entry} (h : HexFabric.Exclusive table) :
    (ofTable table).Exclusive := by
  have hmem : ∀ g ∈ ofTable table, ∀ p ∈ g.2, ⟨p, g.1⟩ ∈ table := fun g hg p hp =>
    (mem_group_iff hg).1 hp
  have hsame : ∀ g ∈ ofTable table, ∀ g' ∈ ofTable table, ∀ p ∈ g.2, ∀ q ∈ g'.2, ∀ key,
      p.accepts key → q.accepts key → p = q ∧ g.1 = g'.1 := by
    intro g hg g' hg' p hp q hq key hpk hqk
    have heq := h.unique _ (hmem g hg p hp) _ (hmem g' hg' q hq) key hpk hqk
    exact ⟨congrArg Entry.pattern heq, congrArg Entry.route heq⟩
  refine ⟨nodup_routes_ofTable table, fun g hg => ⟨(group_ofTable hg).1, ?_, ?_⟩, ?_⟩
  · exact fun p hp => h.clean _ (hmem g hg p hp)
  · exact fun p hp q hq key hpk hqk => (hsame g hg g hg p hp q hq key hpk hqk).1
  · rintro g hg g' hg' key ⟨p, hp, hpk⟩ ⟨q, hq, hqk⟩
    have hroute := (hsame g hg g' hg' p hp q hq key hpk hqk).2
    exact List.inj_on_of_nodup_map (nodup_routes_ofTable table) hg hg' hroute

/-- Patterns of other routes have no keys of a group, so it has no rivals. -/
theorem Exclusive.fair {groups : Groups} (h : groups.Exclusive) : Fair (fun _ => []) groups where
  clean g hg := (h.separate g hg).clean
  clean_rivals _ _ hq := absurd hq List.not_mem_nil
  same_keys key r := by
    rintro ⟨patterns, hg, hkey⟩
    refine iff_of_false (fun ⟨q, hq, _⟩ => List.not_mem_nil hq) ?_
    rintro ⟨r', hne, patterns', hg', hkey'⟩
    exact hne (congrArg Prod.fst (h.unique _ hg' _ hg key hkey' hkey))

theorem Exclusive.mergeAgainst {groups : Groups} (h : groups.Exclusive)
    (rivals : RouteSet → List Pattern) (routes : List RouteSet) :
    (groups.mergeAgainst rivals routes).Exclusive := by
  constructor
  · rw [Groups.mergeAgainst, List.map_map]
    exact h.nodup
  · intro merged hmerged
    obtain ⟨g, hg, rfl⟩ := List.mem_map.1 hmerged
    have hg := h.separate g hg
    dsimp only
    split
    · exact hg.mergeAll _
    · exact hg
  · intro a ha b hb key hak hbk
    obtain ⟨g, hg, rfl⟩ := List.mem_map.1 ha
    obtain ⟨g', hg', rfl⟩ := List.mem_map.1 hb
    rw [h.unique g hg g' hg' key ((acceptsSome_ite_mergeAll _ _ key).1 hak)
      ((acceptsSome_ite_mergeAll _ _ key).1 hbk)]

/-- Groups of different routes, without repeated patterns, make a table without repeated entries. -/
theorem nodup_toTable {groups : Groups} (hroutes : (groups.map (·.1)).Nodup)
    (hpatterns : ∀ g ∈ groups, g.2.Nodup) : groups.toTable.Nodup := by
  refine List.nodup_flatMap.2 ⟨fun g hg => ?_, ?_⟩
  · exact (hpatterns g hg).map fun p q heq => congrArg Entry.pattern heq
  · refine (List.pairwise_map.1 hroutes).imp fun {a b} hne => List.disjoint_left.2 ?_
    intro e hea heb
    obtain ⟨p, _, rfl⟩ := List.mem_map.1 hea
    obtain ⟨q, _, heq⟩ := List.mem_map.1 heb
    exact hne (congrArg Entry.route heq).symm

theorem Exclusive.nodup_toTable {groups : Groups} (h : groups.Exclusive) : groups.toTable.Nodup :=
  Groups.nodup_toTable h.nodup fun g hg => (h.separate g hg).nodup

theorem Exclusive.toTable {groups : Groups} (h : groups.Exclusive) :
    HexFabric.Exclusive groups.toTable := by
  constructor
  · intro e he
    obtain ⟨patterns, hg, hp⟩ := mem_toTable_iff.1 he
    exact (h.separate _ hg).clean _ hp
  · intro a ha b hb key hak hbk
    obtain ⟨ps, hg, hp⟩ := mem_toTable_iff.1 ha
    obtain ⟨qs, hg', hq⟩ := mem_toTable_iff.1 hb
    have hgroup := h.unique _ hg _ hg' key ⟨_, hp, hak⟩ ⟨_, hq, hbk⟩
    obtain ⟨hroute, rfl⟩ := Prod.mk.inj hgroup
    have hpattern := (h.separate _ hg).unique _ hp _ hq key hak hbk
    cases a
    cases b
    exact (Entry.mk.injEq ..).mpr ⟨hpattern, hroute⟩

end Groups

section Minimise

variable {table : List Entry}

/-- In a table in which every key is accepted by one entry at most, the patterns of each route are
merged as if there were no other. -/
theorem Exclusive.mem_minimise_iff (h : Exclusive table) {e : Entry} :
    e ∈ minimise table ↔
      ∃ patterns, (e.route, patterns) ∈ Groups.ofTable table ∧ e.pattern ∈ mergeAll [] patterns :=
  (Groups.exclusive_ofTable h).fair.mem_minimise_iff

theorem Exclusive.nodup_minimise (h : Exclusive table) : (minimise table).Nodup := by
  have hgroups := Groups.exclusive_ofTable h
  rw [hgroups.fair.minimise_eq]
  exact (hgroups.mergeAgainst _ _).nodup_toTable

theorem Exclusive.minimise (h : Exclusive table) : Exclusive (minimise table) := by
  have hgroups := Groups.exclusive_ofTable h
  rw [hgroups.fair.minimise_eq]
  exact (hgroups.mergeAgainst _ _).toTable

end Minimise

end HexFabric
