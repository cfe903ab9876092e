import HexFabric.Proofs.Table.Separate

/-! Minimising route by route. Patterns of other routes are in the way of merges only by the keys that
they accept, and no merge changes the keys that the patterns of a route accept. So it makes no
difference how far the other routes have been merged, nor how often: the patterns of every route are
merged once, against any that accept the same of their keys: `Groups.Fair.mem_minimise_iff`. -/

namespace HexFabric

namespace Groups

/-! ### The groups of a table -/

theorem nodup_routes_ofTable (table : List Entry) : ((ofTable table).map (·.1)).Nodup :=
  (table.foldl addEntry .empty).distinct

theorem group_ofTable {table : List Entry} {g : RouteSet × List Pattern}
    (h : g ∈ ofTable table) : g.2.Pairwise (· < ·) ∧ g.2 ≠ [] := by
  suffices ∀ (table : List Entry) (groups : InsertionMap RouteSet (List Pattern)),
      (∀ g ∈ groups.entries, g.2.Pairwise (· < ·) ∧ g.2 ≠ []) →
      ∀ g ∈ (table.foldl addEntry groups).entries, g.2.Pairwise (· < ·) ∧ g.2 ≠ [] from
    this table .empty (fun _ hg => absurd hg List.not_mem_nil) g h
  intro table
  induction table with
  | nil => exact fun groups hgroups => hgroups
  | cons new rest ih =>
    intro groups hgroups
    rw [List.foldl_cons]
    refine ih _ fun g hg => ?_
    rcases InsertionMap.mem_insertEntry hg with rfl | hg
    · refine ⟨Ascending.pairwise_insert ?_,
        List.ne_nil_of_mem (Ascending.mem_insert.2 (.inl rfl))⟩
      cases hget : groups.get? new.route with
      | none => exact .nil
      | some patterns => exact (hgroups _ (InsertionMap.mem_of_get? hget)).1
    · exact hgroups g hg

theorem mem_group_iff {table : List Entry} {r : RouteSet} {patterns : List Pattern}
    (h : (r, patterns) ∈ ofTable table) {p : Pattern} : p ∈ patterns ↔ ⟨p, r⟩ ∈ table := by
  rw [← mem_toTable_ofTable, mem_toTable_iff]
  constructor
  · exact fun hp => ⟨patterns, h, hp⟩
  · rintro ⟨patterns', h', hp⟩
    cases List.inj_on_of_nodup_map (nodup_routes_ofTable table) h h' rfl
    exact hp

theorem exists_group {table : List Entry} {e : Entry} (h : e ∈ table) :
    ∃ patterns, (e.route, patterns) ∈ ofTable table := by
  obtain ⟨patterns, hg, _⟩ := mem_toTable_iff.1 (mem_toTable_ofTable.2 h)
  exact ⟨patterns, hg⟩

theorem mem_order_iff {groups : Groups} {route : RouteSet} :
    route ∈ groups.order ↔ ∃ patterns, (route, patterns) ∈ groups := by
  simp [order, (List.mergeSort_perm _ _).mem_iff]

/-! ### Rivals -/

theorem acceptsSome_others_iff {groups : Groups} {r : RouteSet} {key : BitVec 32} :
    AcceptsSome (groups.others r) key ↔ ∃ r', r' ≠ r ∧ groups.Offers key r' := by
  constructor
  · rintro ⟨p, hp, hkey⟩
    obtain ⟨g, hg, hp⟩ := List.mem_flatMap.1 hp
    obtain ⟨hg, hne⟩ := List.mem_filter.1 hg
    exact ⟨g.1, of_decide_eq_true hne, g.2, hg, p, hp, hkey⟩
  · rintro ⟨r', hne, patterns, hg, p, hp, hkey⟩
    have hothers : (r', patterns) ∈ groups.filter (·.1 ≠ r) :=
      List.mem_filter.2 ⟨hg, decide_eq_true hne⟩
    exact ⟨p, List.mem_flatMap.2 ⟨_, hothers, hp⟩, hkey⟩

/-- Merges the patterns of some routes, each against the patterns that are its rivals. -/
def mergeAgainst (rivals : RouteSet → List Pattern) (routes : List RouteSet) (groups : Groups) :
    Groups :=
  groups.map fun g => (g.1, if g.1 ∈ routes then mergeAll (rivals g.1) g.2 else g.2)

/-- Of the keys of its group, the rivals of a route accept those that groups of other routes accept. -/
structure Fair (rivals : RouteSet → List Pattern) (groups : Groups) : Prop where
  clean : ∀ g ∈ groups, ∀ p ∈ g.2, p.Clean
  clean_rivals : ∀ r, ∀ q ∈ rivals r, q.Clean
  same_keys : ∀ key r, groups.Offers key r →
    (AcceptsSome (rivals r) key ↔ ∃ r', r' ≠ r ∧ groups.Offers key r')

variable {rivals : RouteSet → List Pattern} {groups : Groups}

theorem acceptsSome_ite_mergeAll {P : Prop} [Decidable P] (others patterns : List Pattern)
    (key : BitVec 32) :
    AcceptsSome (if P then mergeAll others patterns else patterns) key ↔
      AcceptsSome patterns key := by
  split
  · exact acceptsSome_mergeAll others patterns key
  · rfl

theorem offers_mergeAgainst (rivals : RouteSet → List Pattern) (routes : List RouteSet)
    (groups : Groups) (key : BitVec 32) (r : RouteSet) :
    (groups.mergeAgainst rivals routes).Offers key r ↔ groups.Offers key r := by
  constructor
  · rintro ⟨_, hmem, hkey⟩
    obtain ⟨g, hg, heq⟩ := List.mem_map.1 hmem
    obtain ⟨rfl, rfl⟩ := Prod.mk.inj heq
    exact ⟨g.2, hg, (acceptsSome_ite_mergeAll _ _ key).1 hkey⟩
  · rintro ⟨patterns, hg, hkey⟩
    exact ⟨_, List.mem_map.2 ⟨_, hg, rfl⟩, (acceptsSome_ite_mergeAll _ _ key).2 hkey⟩

theorem Fair.mergeAgainst (h : Fair rivals groups) (routes : List RouteSet) :
    Fair rivals (groups.mergeAgainst rivals routes) := by
  refine ⟨fun merged hmerged => ?_, h.clean_rivals, fun key r hr => ?_⟩
  · obtain ⟨g, hg, rfl⟩ := List.mem_map.1 hmerged
    dsimp only
    split
    · exact clean_mergeAll (h.clean g hg)
    · exact h.clean g hg
  · simp only [offers_mergeAgainst] at hr ⊢
    exact h.same_keys key r hr

/-- The groups of other routes, as far as they have been merged, are in the way of the same merges as
the rivals. -/
theorem Fair.mergeRoute_eq (h : Fair rivals groups) (route : RouteSet) :
    groups.mergeRoute route = groups.mergeAgainst rivals [route] := by
  refine List.map_congr_left fun g hg => ?_
  by_cases hroute : g.1 = route
  · subst hroute
    have hothers : ∀ q ∈ groups.others g.1, q.Clean := by
      intro q hq
      obtain ⟨g', hg', hq⟩ := List.mem_flatMap.1 hq
      exact h.clean g' (List.mem_of_mem_filter hg') q hq
    have hmerge : mergeAll (groups.others g.1) g.2 = mergeAll (rivals g.1) g.2 := by
      refine mergeAll_congr (h.clean g hg) hothers (h.clean_rivals g.1) fun key hkey => ?_
      rw [acceptsSome_others_iff, h.same_keys key g.1 ⟨g.2, hg, hkey⟩]
    simp [hmerge]
  · simp [hroute]

theorem mergeAgainst_mergeAgainst (first rest : List RouteSet) (groups : Groups) :
    (groups.mergeAgainst rivals first).mergeAgainst rivals rest =
      groups.mergeAgainst rivals (first ++ rest) := by
  rw [mergeAgainst, mergeAgainst, mergeAgainst, List.map_map]
  refine List.map_congr_left fun g _ => ?_
  by_cases hfirst : g.1 ∈ first <;> by_cases hrest : g.1 ∈ rest <;>
    simp [hfirst, hrest, mergeAll_mergeAll]

theorem Fair.pass_eq (h : Fair rivals groups) (order : List RouteSet) :
    groups.pass order = groups.mergeAgainst rivals order := by
  induction order generalizing groups with
  | nil => simp [pass, Groups.mergeAgainst]
  | cons route rest ih =>
    change (groups.mergeRoute route).pass rest = _
    rw [h.mergeRoute_eq, ih (h.mergeAgainst _), mergeAgainst_mergeAgainst, List.singleton_append]

/-- After one pass there is nothing left to merge. -/
theorem Fair.settle_eq (h : Fair rivals groups) (order : List RouteSet) :
    groups.settle order = groups.mergeAgainst rivals order := by
  have hnext := h.pass_eq order
  have hfix : (groups.mergeAgainst rivals order).pass order = groups.mergeAgainst rivals order := by
    rw [(h.mergeAgainst order).pass_eq, mergeAgainst_mergeAgainst]
    simp [Groups.mergeAgainst]
  -- so it makes no difference whether there is another pass
  have hstop : (groups.mergeAgainst rivals order).settle order =
      groups.mergeAgainst rivals order := by
    unfold settle
    simp [hfix]
  unfold settle
  dsimp only
  rw [hnext, hstop]
  exact ite_self _

variable {table : List Entry}

theorem Fair.minimise_eq (h : Fair rivals (ofTable table)) :
    minimise table = ((ofTable table).mergeAgainst rivals (ofTable table).order).toTable := by
  rw [minimise, h.settle_eq]

/-- Minimising merges the patterns of every route once, against its rivals. -/
theorem Fair.mem_minimise_iff (h : Fair rivals (ofTable table)) {e : Entry} :
    e ∈ minimise table ↔
      ∃ patterns, (e.route, patterns) ∈ ofTable table ∧
        e.pattern ∈ mergeAll (rivals e.route) patterns := by
  rw [h.minimise_eq, mem_toTable_iff]
  constructor
  · rintro ⟨_, hmerged, hp⟩
    obtain ⟨g, hg, heq⟩ := List.mem_map.1 hmerged
    obtain ⟨hroute, rfl⟩ := Prod.mk.inj heq
    rw [if_pos (mem_order_iff.2 ⟨g.2, hg⟩), hroute] at hp
    exact ⟨g.2, hroute ▸ hg, hp⟩
  · rintro ⟨patterns, hg, hp⟩
    refine ⟨mergeAll (rivals e.route) patterns, List.mem_map.2 ⟨_, hg, ?_⟩, hp⟩
    rw [if_pos (mem_order_iff.2 ⟨patterns, hg⟩)]

end Groups

end HexFabric
