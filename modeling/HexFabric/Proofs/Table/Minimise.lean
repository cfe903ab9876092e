import HexFabric.Table.Merge
import HexFabric.Proofs.Containers
import HexFabric.Proofs.Table.Lookup

/-! Minimising a table keeps, for every route, the set of the keys that its entries accept. Every
merge puts one pattern in place of two that accept the same keys together, and merging goes on group
by group and pass by pass. -/

namespace HexFabric

/-- Some pattern accepts the key. -/
def AcceptsSome (patterns : List Pattern) (key : BitVec 32) : Prop := ∃ p ∈ patterns, p.accepts key

namespace Merge

/-- The merged pattern accepts the keys of the two it replaces. -/
theorem accepts_merged {others patterns : List Pattern} {m : Merge}
    (h : find? others patterns = some m) (key : BitVec 32) :
    m.merged.accepts key ↔ m.lower.accepts key ∨ m.upper.accepts key := by
  obtain ⟨p, _, i, hi, h⟩ := of_find? h
  obtain ⟨rfl, hupper, _, hmerged, hmask, _⟩ := of_overBit? h
  rw [hupper, hmerged]
  exact Pattern.accepts_without_bit hi hmask key

theorem acceptsSome_apply {others patterns : List Pattern} {m : Merge}
    (h : find? others patterns = some m) (key : BitVec 32) :
    AcceptsSome (m.apply patterns) key ↔ AcceptsSome patterns key := by
  have hmerged := accepts_merged h key
  obtain ⟨p, hp, i, hi, h⟩ := of_find? h
  have hne := upper_ne_lower hi h
  obtain ⟨hlower, _, hupper, _⟩ := of_overBit? h
  have hlower : m.lower ∈ patterns := hlower ▸ hp
  constructor
  · rintro ⟨q, hq, hkey⟩
    rcases Ascending.mem_insert.1 hq with rfl | hq
    · rcases hmerged.1 hkey with hkey | hkey
      · exact ⟨m.lower, hlower, hkey⟩
      · exact ⟨m.upper, hupper, hkey⟩
    · exact ⟨q, List.mem_of_mem_erase (List.mem_of_mem_erase hq), hkey⟩
  · rintro ⟨q, hq, hkey⟩
    by_cases hql : q = m.lower
    · exact ⟨m.merged, Ascending.mem_insert.2 (.inl rfl), hmerged.2 (.inl (hql ▸ hkey))⟩
    by_cases hqu : q = m.upper
    · exact ⟨m.merged, Ascending.mem_insert.2 (.inl rfl), hmerged.2 (.inr (hqu ▸ hkey))⟩
    have hrest : q ∈ (patterns.erase m.lower).erase m.upper :=
      (List.mem_erase_of_ne hqu).2 ((List.mem_erase_of_ne hql).2 hq)
    exact ⟨q, Ascending.mem_insert.2 (.inr hrest), hkey⟩

end Merge

theorem acceptsSome_mergeAll (others patterns : List Pattern) (key : BitVec 32) :
    AcceptsSome (mergeAll others patterns) key ↔ AcceptsSome patterns key := by
  fun_induction mergeAll others patterns with
  | case1 patterns h => rfl
  | case2 patterns m h ih => rw [ih, Merge.acceptsSome_apply h]

namespace Groups

/-- The group of route `r` accepts the key. -/
def Offers (groups : Groups) (key : BitVec 32) (r : RouteSet) : Prop :=
  ∃ patterns, (r, patterns) ∈ groups ∧ AcceptsSome patterns key

theorem offers_toTable {groups : Groups} {key : BitVec 32} {r : RouteSet} :
    HexFabric.Offers groups.toTable key r ↔ groups.Offers key r := by
  constructor
  · rintro ⟨e, he, rfl, hkey⟩
    obtain ⟨g, hg, he⟩ := List.mem_flatMap.1 he
    obtain ⟨p, hp, rfl⟩ := List.mem_map.1 he
    exact ⟨g.2, hg, p, hp, hkey⟩
  · rintro ⟨patterns, hg, p, hp, hkey⟩
    exact ⟨⟨p, r⟩, List.mem_flatMap.2 ⟨(r, patterns), hg, List.mem_map_of_mem hp⟩, rfl, hkey⟩

theorem mem_toTable_iff {groups : Groups} {e : Entry} :
    e ∈ groups.toTable ↔ ∃ patterns, (e.route, patterns) ∈ groups ∧ e.pattern ∈ patterns := by
  obtain ⟨p, r⟩ := e
  simp only [toTable, List.mem_flatMap, List.mem_map, Entry.mk.injEq]
  constructor
  · rintro ⟨⟨r', patterns⟩, hg, p', hp, rfl, rfl⟩
    exact ⟨patterns, hg, hp⟩
  · rintro ⟨patterns, hg, hp⟩
    exact ⟨(r, patterns), hg, p, hp, rfl, rfl⟩

theorem mem_toTable_addEntry (groups : InsertionMap RouteSet (List Pattern)) (new e : Entry) :
    e ∈ toTable (addEntry groups new).entries ↔ e = new ∨ e ∈ toTable groups.entries := by
  obtain ⟨p, r⟩ := e
  simp only [mem_toTable_iff, ← InsertionMap.get?_eq_some_iff, addEntry, InsertionMap.get?_insert]
  by_cases hr : r = new.route
  · subst hr
    simp only [if_true, Option.some.injEq, exists_eq_left', Ascending.mem_insert]
    refine or_congr ?_ ?_
    · cases new
      simp
    · cases groups.get? new.route with
      | none => simp
      | some patterns => simp
  · have hne : (⟨p, r⟩ : Entry) ≠ new := fun h => hr (congrArg Entry.route h)
    simp [hr, hne]

/-- Grouping the entries of a table loses none and makes up none. -/
theorem mem_toTable_ofTable {table : List Entry} {e : Entry} :
    e ∈ (ofTable table).toTable ↔ e ∈ table := by
  suffices ∀ (table : List Entry) (groups : InsertionMap RouteSet (List Pattern)),
      e ∈ toTable (table.foldl addEntry groups).entries ↔ e ∈ toTable groups.entries ∨ e ∈ table from
    (this table .empty).trans (or_iff_right List.not_mem_nil)
  intro table
  induction table with
  | nil => simp
  | cons new rest ih =>
    intro groups
    rw [List.foldl_cons, ih, mem_toTable_addEntry, List.mem_cons, or_comm (a := e = new), or_assoc]

theorem offers_ofTable (table : List Entry) (key : BitVec 32) (r : RouteSet) :
    (ofTable table).Offers key r ↔ HexFabric.Offers table key r := by
  simp only [← offers_toTable, HexFabric.Offers, mem_toTable_ofTable]

theorem offers_mergeRoute (groups : Groups) (route : RouteSet) (key : BitVec 32) (r : RouteSet) :
    (groups.mergeRoute route).Offers key r ↔ groups.Offers key r := by
  constructor
  · rintro ⟨patterns, hmem, hkey⟩
    obtain ⟨g, hg, heq⟩ := List.mem_map.1 hmem
    by_cases hr : g.1 = route
    · rw [if_pos hr] at heq
      cases heq
      exact ⟨g.2, hg, (acceptsSome_mergeAll _ _ key).1 hkey⟩
    · rw [if_neg hr] at heq
      exact ⟨patterns, heq ▸ hg, hkey⟩
  · rintro ⟨patterns, hg, hkey⟩
    by_cases hr : r = route
    · exact ⟨mergeAll (groups.others route) patterns, List.mem_map.2 ⟨(r, patterns), hg, if_pos hr⟩,
        (acceptsSome_mergeAll _ _ key).2 hkey⟩
    · exact ⟨patterns, List.mem_map.2 ⟨(r, patterns), hg, if_neg hr⟩, hkey⟩

theorem offers_pass (order : List RouteSet) (groups : Groups) (key : BitVec 32) (r : RouteSet) :
    (groups.pass order).Offers key r ↔ groups.Offers key r := by
  induction order generalizing groups with
  | nil => rfl
  | cons route rest ih => exact (ih _).trans (offers_mergeRoute groups route key r)

theorem offers_settle (order : List RouteSet) (groups : Groups) (key : BitVec 32) (r : RouteSet) :
    (groups.settle order).Offers key r ↔ groups.Offers key r := by
  fun_induction settle order groups with
  | case1 groups next h ih => rw [ih, offers_pass]
  | case2 groups next h => exact offers_pass order groups key r

end Groups

/-- For every route, minimising keeps the set of accepted keys. -/
theorem offers_minimise (table : List Entry) (key : BitVec 32) (r : RouteSet) :
    Offers (minimise table) key r ↔ Offers table key r := by
  rw [minimise, Groups.offers_toTable, Groups.offers_settle, Groups.offers_ofTable]

/-- Minimising keeps the keys that entries of each route accept, in every table, overlapping or not.
So a table in which entries of different routes have no key in common looks up as before, in
whatever order the entries of the shorter table come. -/
theorem minimise_routes_alike (table : List Entry) :
    (∀ r key, (∃ e ∈ table, e.route = r ∧ e.pattern.accepts key) ↔
      ∃ e ∈ minimise table, e.route = r ∧ e.pattern.accepts key) ∧
    (Unambiguous table → ∀ key, lookup (minimise table) key = lookup table key ∧
      ∀ reordered, reordered.Perm (minimise table) → lookup reordered key = lookup table key) := by
  refine ⟨fun r key => (offers_minimise table key r).symm, fun h key => ⟨?_, ?_⟩⟩
  · exact h.lookup_congr (offers_minimise table) key
  · intro reordered hperm
    exact h.lookup_congr (fun key r => (Offers.perm hperm).trans (offers_minimise table key r)) key

end HexFabric
