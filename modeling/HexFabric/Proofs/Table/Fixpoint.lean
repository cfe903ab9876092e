import HexFabric.Proofs.Table.Exclusive
import HexFabric.Proofs.Table.Transparent
import Mathlib

/-! Minimising ends at a fixed point. Every merge shortens the group that it is made in, so a pass
that shortens no group changes nothing, and then no two patterns of a route can be merged any more.
Grouping the entries of such a table gives back its groups, so minimising it again leaves it as it
is, whatever the order of the passes: `minimise_fixpoint`. -/

namespace HexFabric

/-! ### The patterns of one route -/

/-- Clean patterns in ascending order, at least one. -/
structure Orderly (patterns : List Pattern) : Prop where
  ascending : patterns.Pairwise (· < ·)
  clean : ∀ p ∈ patterns, p.Clean
  ne_nil : patterns ≠ []

section Patterns

variable {others patterns : List Pattern} {m : Merge}

theorem Orderly.apply (hm : Merge.find? others patterns = some m) (h : Orderly patterns) :
    Orderly (m.apply patterns) := by
  refine ⟨Ascending.pairwise_insert ?_, Merge.clean_apply hm h.clean, ?_⟩
  · exact h.ascending.sublist (List.erase_sublist.trans List.erase_sublist)
  · exact List.ne_nil_of_mem (Ascending.mem_insert.2 (.inl rfl))

theorem Orderly.mergeAll (h : Orderly patterns) (others : List Pattern) :
    Orderly (mergeAll others patterns) := by
  fun_induction HexFabric.mergeAll others patterns with
  | case1 patterns hnone => exact h
  | case2 patterns m hm ih => exact ih (h.apply hm)

theorem length_mergeAll_lt (h : Merge.find? others patterns = some m) :
    (mergeAll others patterns).length < patterns.length := by
  rw [mergeAll_of_find?_eq_some h]
  exact Nat.lt_of_le_of_lt (length_mergeAll_le _ _) (Merge.length_apply_lt h)

end Patterns

namespace Groups

/-! ### Passes -/

/-- There is one group for each route, of clean patterns in order. -/
structure Orderly (groups : Groups) : Prop where
  nodup : (groups.map (·.1)).Nodup
  group : ∀ g ∈ groups, HexFabric.Orderly g.2

/-- No two patterns of route `r` can be merged. -/
def MergedAt (groups : Groups) (r : RouteSet) : Prop :=
  ∀ patterns, (r, patterns) ∈ groups → Merge.find? (groups.others r) patterns = none

variable {groups : Groups} {r : RouteSet}

theorem orderly_ofTable {table : List Entry} (h : ∀ e ∈ table, e.pattern.Clean) :
    (ofTable table).Orderly := by
  refine ⟨nodup_routes_ofTable table, fun g hg => ?_⟩
  obtain ⟨hascending, hne⟩ := group_ofTable hg
  exact ⟨hascending, fun p hp => h _ ((mem_group_iff hg).1 hp), hne⟩

theorem map_fst_mergeRoute (groups : Groups) (r : RouteSet) :
    (groups.mergeRoute r).map (·.1) = groups.map (·.1) := by
  rw [mergeRoute, List.map_map]
  refine List.map_congr_left fun g _ => ?_
  show (if g.1 = r then (g.1, mergeAll (groups.others r) g.2) else g).1 = g.1
  split <;> rfl

theorem Orderly.mergeRoute (h : groups.Orderly) (r : RouteSet) : (groups.mergeRoute r).Orderly := by
  refine ⟨by rw [map_fst_mergeRoute]; exact h.nodup, fun g hg => ?_⟩
  obtain ⟨g', hg', rfl⟩ := List.mem_map.1 hg
  have hgroup := h.group g' hg'
  split
  · exact hgroup.mergeAll _
  · exact hgroup

theorem map_fst_pass (order : List RouteSet) (groups : Groups) :
    (groups.pass order).map (·.1) = groups.map (·.1) := by
  induction order generalizing groups with
  | nil => rfl
  | cons r rest ih => exact (ih _).trans (map_fst_mergeRoute groups r)

theorem Orderly.pass (h : groups.Orderly) (order : List RouteSet) : (groups.pass order).Orderly := by
  induction order generalizing groups with
  | nil => exact h
  | cons r rest ih => exact ih (h.mergeRoute r)

theorem map_fst_settle (order : List RouteSet) (groups : Groups) :
    (groups.settle order).map (·.1) = groups.map (·.1) := by
  fun_induction settle order groups with
  | case1 groups next hlt ih => exact ih.trans (map_fst_pass order groups)
  | case2 groups next hge => exact map_fst_pass order groups

theorem Orderly.settle (h : groups.Orderly) (order : List RouteSet) :
    (groups.settle order).Orderly := by
  fun_induction Groups.settle order groups with
  | case1 groups next hlt ih => exact ih (h.pass order)
  | case2 groups next hge => exact h.pass order

theorem MergedAt.mergeRoute_eq (h : groups.MergedAt r) : groups.mergeRoute r = groups := by
  refine (List.map_congr_left fun g hg => ?_).trans (List.map_id groups)
  by_cases hr : g.1 = r
  · subst hr
    rw [if_pos rfl, mergeAll_of_find?_eq_none (h g.2 hg), id]
  · rw [if_neg hr, id]

theorem size_eq_sum (groups : Groups) : groups.size = (groups.map (·.2.length)).sum := by
  induction groups with
  | nil => rfl
  | cons g rest ih =>
    rw [List.map_cons, List.sum_cons, ← ih]
    rfl

/-- If two patterns of a route can be merged, there are fewer once all that can be are. -/
theorem size_mergeRoute_lt (h : ¬groups.MergedAt r) : size (groups.mergeRoute r) < size groups := by
  simp only [MergedAt, not_forall] at h
  obtain ⟨patterns, hg, hsome⟩ := h
  obtain ⟨m, hm⟩ := Option.ne_none_iff_exists'.1 hsome
  rw [size_eq_sum, size_eq_sum, mergeRoute, List.map_map]
  apply List.sum_lt_sum
  · intro g _
    show (if g.1 = r then (g.1, mergeAll (groups.others r) g.2) else g).2.length ≤ g.2.length
    split
    · exact length_mergeAll_le _ _
    · exact Nat.le_refl _
  · refine ⟨(r, patterns), hg, ?_⟩
    show (if r = r then (r, mergeAll (groups.others r) patterns) else (r, patterns)).2.length < _
    rw [if_pos rfl]
    exact length_mergeAll_lt hm

/-- A pass that does not shorten the groups changes nothing, as there is nothing to merge. -/
theorem pass_eq_or_size_lt (order : List RouteSet) (groups : Groups) :
    (groups.pass order = groups ∧ ∀ r ∈ order, groups.MergedAt r) ∨
      size (groups.pass order) < size groups := by
  induction order generalizing groups with
  | nil => exact .inl ⟨rfl, nofun⟩
  | cons r rest ih =>
    by_cases hr : groups.MergedAt r
    · rcases ih groups with ⟨hpass, hrest⟩ | hlt
      · refine .inl ⟨?_, List.forall_mem_cons.2 ⟨hr, hrest⟩⟩
        show (groups.mergeRoute r).pass rest = groups
        rw [hr.mergeRoute_eq, hpass]
      · right
        show size ((groups.mergeRoute r).pass rest) < size groups
        rwa [hr.mergeRoute_eq]
    · exact .inr (Nat.lt_of_le_of_lt (size_pass_le rest _) (size_mergeRoute_lt hr))

theorem pass_eq_self {order : List RouteSet} (h : ∀ r ∈ order, groups.MergedAt r) :
    groups.pass order = groups := by
  induction order with
  | nil => rfl
  | cons r rest ih =>
    show (groups.mergeRoute r).pass rest = groups
    rw [(h r List.mem_cons_self).mergeRoute_eq]
    exact ih fun r hr => h r (List.mem_cons_of_mem _ hr)

theorem settle_eq_self {order : List RouteSet} (h : ∀ r ∈ order, groups.MergedAt r) :
    groups.settle order = groups := by
  unfold settle
  rw [pass_eq_self h]
  simp

/-- The passes come to an end, and every one of them but the last makes the groups smaller. -/
theorem settle_eq_iterate (order : List RouteSet) (groups : Groups) :
    ∃ n, n + size (groups.settle order) ≤ size groups ∧
      groups.settle order = (pass order)^[n] groups := by
  fun_induction settle order groups with
  | case1 groups next hlt ih =>
    obtain ⟨n, hsize, heq⟩ := ih
    refine ⟨n + 1, by omega, ?_⟩
    rw [heq, Function.iterate_succ_apply]
  | case2 groups next hge =>
    obtain ⟨hpass, _⟩ := (pass_eq_or_size_lt order groups).resolve_right hge
    refine ⟨0, ?_, hpass⟩
    rw [Nat.zero_add]
    exact size_pass_le order groups

theorem mergedAt_settle (order : List RouteSet) (groups : Groups) :
    ∀ r ∈ order, (groups.settle order).MergedAt r := by
  fun_induction settle order groups with
  | case1 groups next hlt ih => exact ih
  | case2 groups next hge =>
    obtain ⟨hpass, hmerged⟩ := (pass_eq_or_size_lt order groups).resolve_right hge
    show ∀ r ∈ order, (groups.pass order).MergedAt r
    rwa [hpass]

/-! ### Grouping a table of groups -/

/-- Further patterns of the last route join its group. -/
theorem foldl_addEntry_group {known : InsertionMap RouteSet (List Pattern)} {groups : Groups}
    {before patterns : List Pattern} (hknown : known.entries = groups ++ [(r, before)])
    (hascending : (before ++ patterns).Pairwise (· < ·)) :
    ((patterns.map (⟨·, r⟩)).foldl addEntry known).entries =
      groups ++ [(r, before ++ patterns)] := by
  induction patterns generalizing known before with
  | nil => rw [List.map_nil, List.foldl_nil, hknown, List.append_nil]
  | cons p rest ih =>
    have hget : known.get? r = some before := by
      rw [InsertionMap.get?_eq_some_iff, hknown]
      simp
    have hnew : r ∉ groups.map (·.1) := by
      have hnodup := known.distinct
      rw [hknown, List.map_append, List.nodup_append] at hnodup
      exact fun hmem => hnodup.2.2 r hmem r (by simp) rfl
    have hlast : ∀ q ∈ before, q < p :=
      fun q hq => (List.pairwise_append.1 hascending).2.2 q hq p List.mem_cons_self
    have hadd : (addEntry known ⟨p, r⟩).entries = groups ++ [(r, before ++ [p])] := by
      show InsertionMap.insertEntry r (Ascending.insert p ((known.get? r).getD [])) known.entries = _
      rw [hget, Option.getD_some, Ascending.insert_of_lt hlast, hknown,
        InsertionMap.insertEntry_append hnew, InsertionMap.insertEntry, if_pos rfl]
    rw [List.append_cons] at hascending
    rw [List.map_cons, List.foldl_cons, ih hadd hascending, ← List.append_cons]

theorem foldl_addEntry_toTable (known : InsertionMap RouteSet (List Pattern)) {groups : Groups}
    (hnodup : ((known.entries ++ groups).map (·.1)).Nodup)
    (hgroups : ∀ g ∈ groups, HexFabric.Orderly g.2) :
    (groups.toTable.foldl addEntry known).entries = known.entries ++ groups := by
  induction groups generalizing known with
  | nil => simp [toTable]
  | cons g rest ih =>
    obtain ⟨r, patterns⟩ := g
    have hgroup := hgroups _ List.mem_cons_self
    have hnew : r ∉ known.entries.map (·.1) := by
      rw [List.map_append, List.nodup_append] at hnodup
      exact fun hmem => hnodup.2.2 r hmem r List.mem_cons_self rfl
    -- the first pattern of the route makes its group
    obtain ⟨p, more, rfl⟩ := List.exists_cons_of_ne_nil hgroup.ne_nil
    have hget : known.get? r = none := by
      rw [InsertionMap.get?, List.lookup_eq_none_iff]
      intro e he
      exact bne_iff_ne.2 fun heq => hnew (heq ▸ List.mem_map_of_mem he)
    have hfirst : (addEntry known ⟨p, r⟩).entries = known.entries ++ [(r, [p])] := by
      show InsertionMap.insertEntry r (Ascending.insert p ((known.get? r).getD [])) known.entries = _
      rw [hget, InsertionMap.insertEntry_of_notMem hnew]
      rfl
    have hall : ((((p :: more).map (⟨·, r⟩)).foldl addEntry known)).entries =
        known.entries ++ [(r, p :: more)] :=
      foldl_addEntry_group hfirst hgroup.ascending
    rw [toTable, List.flatMap_cons, List.foldl_append]
    refine (ih _ ?_ fun g hg => hgroups g (List.mem_cons_of_mem _ hg)).trans ?_
    · rwa [hall, List.append_assoc, List.singleton_append]
    · rw [hall, List.append_assoc, List.singleton_append]

theorem Orderly.ofTable_toTable (h : groups.Orderly) : ofTable groups.toTable = groups :=
  foldl_addEntry_toTable .empty h.nodup h.group

theorem Orderly.nodup_toTable (h : groups.Orderly) : groups.toTable.Nodup := by
  refine Groups.nodup_toTable h.nodup fun g hg => ?_
  exact (h.group g hg).ascending.imp fun {a b} (hlt : a < b) (heq : a = b) =>
    StrictLinear.irrefl b (heq ▸ hlt)

/-- The groups of a table are as large together as there are different entries. -/
theorem size_ofTable {table : List Entry} (h : ∀ e ∈ table, e.pattern.Clean) :
    (ofTable table).size = table.dedup.length := by
  rw [← length_toTable]
  apply List.Perm.length_eq
  rw [List.perm_ext_iff_of_nodup (orderly_ofTable h).nodup_toTable table.nodup_dedup]
  intro e
  rw [mem_toTable_ofTable, List.mem_dedup]

end Groups

/-! ### The fixed point -/

/-- The masks are the same, and the keys differ in bit `i`, at which the masks look, and in no other
bit. -/
structure Pattern.DifferIn (i : Nat) (p q : Pattern) : Prop where
  mask_eq : p.mask = q.mask
  looks : p.mask.getLsbD i = true
  key_eq : q.key = p.key ^^^ BitVec.twoPow 32 i

/-- The pattern that does not look at bit `i`. -/
def Pattern.without (p : Pattern) (i : Nat) : Pattern :=
  ⟨p.key &&& ~~~BitVec.twoPow 32 i, p.mask &&& ~~~BitVec.twoPow 32 i⟩

namespace Pattern.DifferIn

variable {p q : Pattern} {i : Nat}

theorem lt (h : DifferIn i p q) : i < 32 := by
  by_contra hge
  have := h.looks
  rw [BitVec.getLsbD_of_ge _ _ (by omega)] at this
  cases this

theorem symm (h : DifferIn i p q) : DifferIn i q p where
  mask_eq := h.mask_eq.symm
  looks := h.mask_eq ▸ h.looks
  key_eq := by rw [h.key_eq, BitVec.xor_assoc, BitVec.xor_self, BitVec.xor_zero]

theorem getLsbD_key (h : DifferIn i p q) : q.key.getLsbD i = !p.key.getLsbD i := by
  rw [h.key_eq, BitVec.getLsbD_xor, BitVec.getLsbD_twoPow]
  simp [h.lt]

theorem without_eq (h : DifferIn i p q) : q.without i = p.without i := by
  have hkey : q.key &&& ~~~BitVec.twoPow 32 i = p.key &&& ~~~BitVec.twoPow 32 i := by
    rw [h.key_eq]
    ext j hj
    simp only [BitVec.getElem_and, BitVec.getElem_xor, BitVec.getElem_not]
    cases (BitVec.twoPow 32 i)[j] <;> simp
  rw [without, without, hkey, h.mask_eq]

end Pattern.DifferIn

section Minimise

variable {table : List Entry} {others patterns : List Pattern} {p q : Pattern} {i : Nat}

/-- What keeps two patterns from being merged is a pattern of another route that overlaps their
merge. -/
theorem Merge.exists_overlaps_of_find?_eq_none (h : find? others patterns = none) (hp : p ∈ patterns)
    (hq : q ∈ patterns) (hdiffer : Pattern.DifferIn i p q) :
    ∃ o ∈ others, o.overlaps (p.without i) := by
  -- the merge is looked for at the one whose bit is clear
  wlog hclear : p.key.getLsbD i = false generalizing p q
  · rw [← hdiffer.without_eq]
    refine this hq hp hdiffer.symm ?_
    rw [hdiffer.getLsbD_key, Bool.eq_true_of_not_eq_false hclear]
    rfl
  simp only [find?, List.findSome?_eq_none_iff] at h
  have hnone := h p hp i (List.mem_range.2 hdiffer.lt)
  have hupper : (⟨p.key ^^^ BitVec.twoPow 32 i, p.mask⟩ : Pattern) ∈ patterns := by
    rwa [← hdiffer.key_eq, hdiffer.mask_eq]
  unfold overBit? at hnone
  simp only [hdiffer.looks, hclear, hupper, true_and, not_false_eq_true, Bool.false_eq_true,
    ite_eq_right_iff, reduceCtorEq, imp_false, not_not, List.any_eq_true] at hnone
  exact hnone

theorem mem_others_iff {groups : Groups} {r : RouteSet} :
    p ∈ groups.others r ↔ ∃ e ∈ groups.toTable, e.route ≠ r ∧ e.pattern = p := by
  simp only [Groups.others, List.mem_flatMap, List.mem_filter, decide_eq_true_eq]
  constructor
  · rintro ⟨g, ⟨hg, hne⟩, hp⟩
    exact ⟨⟨p, g.1⟩, Groups.mem_toTable_iff.2 ⟨g.2, hg, hp⟩, hne, rfl⟩
  · rintro ⟨e, he, hne, rfl⟩
    obtain ⟨patterns, hg, hp⟩ := Groups.mem_toTable_iff.1 he
    exact ⟨_, ⟨hg, hne⟩, hp⟩

/-- The groups of a minimised table, of whose patterns none can be merged. -/
theorem exists_groups_minimise (h : ∀ e ∈ table, e.pattern.Clean) :
    ∃ groups : Groups, minimise table = groups.toTable ∧ groups.Orderly ∧
      ∀ r ∈ groups.map (·.1), groups.MergedAt r := by
  have horderly := Groups.orderly_ofTable h
  refine ⟨(Groups.ofTable table).settle (Groups.ofTable table).order, rfl, horderly.settle _,
    fun r hr => Groups.mergedAt_settle _ _ r ?_⟩
  rw [Groups.map_fst_settle] at hr
  obtain ⟨g, hg, rfl⟩ := List.mem_map.1 hr
  exact Groups.mem_order_iff.2 ⟨g.2, hg⟩

theorem exists_shadow_of_mergeable (h : ∀ e ∈ table, e.pattern.Clean) {a b : Entry}
    (ha : a ∈ minimise table) (hb : b ∈ minimise table) (hroute : a.route = b.route)
    (hdiffer : Pattern.DifferIn i a.pattern b.pattern) :
    ∃ c ∈ minimise table, c.route ≠ a.route ∧
      ∃ key, c.pattern.accepts key ∧ (a.pattern.without i).accepts key := by
  obtain ⟨groups, heq, horderly, hmerged⟩ := exists_groups_minimise h
  rw [heq] at ha hb ⊢
  obtain ⟨patterns, hg, hp⟩ := Groups.mem_toTable_iff.1 ha
  obtain ⟨patterns', hg', hq⟩ := Groups.mem_toTable_iff.1 hb
  rw [← hroute] at hg'
  cases List.inj_on_of_nodup_map horderly.nodup hg hg' rfl
  have hnone := hmerged a.route (List.mem_map_of_mem hg) patterns hg
  obtain ⟨o, ho, hoverlaps⟩ := Merge.exists_overlaps_of_find?_eq_none hnone hp hq hdiffer
  obtain ⟨c, hc, hne, rfl⟩ := mem_others_iff.1 ho
  refine ⟨c, hc, hne, (Pattern.overlaps_iff ?_ ?_).1 hoverlaps⟩
  · obtain ⟨ps, hps, hmem⟩ := Groups.mem_toTable_iff.1 hc
    exact (horderly.group _ hps).clean _ hmem
  · exact ((horderly.group _ hg).clean _ hp).without _

theorem minimise_minimise (h : ∀ e ∈ table, e.pattern.Clean) :
    minimise (minimise table) = minimise table := by
  obtain ⟨groups, heq, horderly, hmerged⟩ := exists_groups_minimise h
  rw [heq]
  show ((Groups.ofTable groups.toTable).settle (Groups.ofTable groups.toTable).order).toTable = _
  rw [horderly.ofTable_toTable, Groups.settle_eq_self]
  intro r hr
  obtain ⟨patterns, hg⟩ := Groups.mem_order_iff.1 hr
  exact hmerged r (List.mem_map_of_mem hg)

/-- A table can be minimised whatever its entries are: every merge leaves a pattern less in its group,
and after some passes, at most one for each different entry, another one changes nothing. No entry
is repeated in the table that is left, nor are there more than there were different ones. Where two of
its entries of a route differ in one bit only, their merge would have a key in common with an entry
of another route. Minimising it again gives the same list. -/
theorem minimise_fixpoint (h : ∀ e ∈ table, e.pattern.Clean) :
    (∀ others patterns m, Merge.find? others patterns = some m →
      (m.apply patterns).length < patterns.length) ∧
    (∃ passes groups, groups = (Groups.pass (Groups.ofTable table).order)^[passes]
        (Groups.ofTable table) ∧ groups.pass (Groups.ofTable table).order = groups ∧
      minimise table = groups.toTable ∧
      passes + (minimise table).length ≤ table.dedup.length) ∧
    (minimise table).Nodup ∧ (minimise table).length ≤ table.dedup.length ∧
    (∀ a ∈ minimise table, ∀ b ∈ minimise table, a.route = b.route →
      ∀ i, Pattern.DifferIn i a.pattern b.pattern →
        ∃ c ∈ minimise table, c.route ≠ a.route ∧
          ∃ key, c.pattern.accepts key ∧ (a.pattern.without i).accepts key) ∧
    minimise (minimise table) = minimise table := by
  obtain ⟨groups, heq, horderly, hmerged⟩ := exists_groups_minimise h
  obtain ⟨passes, hsize, hpasses⟩ :=
    Groups.settle_eq_iterate (Groups.ofTable table).order (Groups.ofTable table)
  have hlength : passes + (minimise table).length ≤ table.dedup.length := by
    rw [← Groups.size_ofTable h]
    show passes + (Groups.toTable _).length ≤ _
    rwa [Groups.length_toTable]
  refine ⟨fun _ _ _ => Merge.length_apply_lt, ⟨passes, _, hpasses, ?_, rfl, hlength⟩, ?_, by omega,
    fun a ha b hb hroute i => exists_shadow_of_mergeable h ha hb hroute, minimise_minimise h⟩
  · exact Groups.pass_eq_self (Groups.mergedAt_settle _ _)
  · rw [heq]
    exact horderly.nodup_toTable

/-- Four entries for one route and, twice, one for another, which is in the way of a merge. -/
def crowdedTable : List Entry :=
  [⟨⟨0, 7⟩, ⟨1⟩⟩, ⟨⟨1, 7⟩, ⟨1⟩⟩, ⟨⟨3, 3⟩, ⟨2⟩⟩, ⟨⟨2, 7⟩, ⟨1⟩⟩, ⟨⟨3, 7⟩, ⟨1⟩⟩, ⟨⟨3, 3⟩, ⟨2⟩⟩]

theorem minimise_fixpoint_crowded :
    (∀ e ∈ crowdedTable, e.pattern.Clean) ∧
    minimise crowdedTable = [⟨⟨0, 6⟩, ⟨1⟩⟩, ⟨⟨2, 7⟩, ⟨1⟩⟩, ⟨⟨3, 7⟩, ⟨1⟩⟩, ⟨⟨3, 3⟩, ⟨2⟩⟩] ∧
    (∃ c ∈ minimise crowdedTable, c.route ≠ ⟨1⟩ ∧
      ∃ key, c.pattern.accepts key ∧ (Pattern.mk 2 6).accepts key) ∧
    minimise (minimise crowdedTable) = minimise crowdedTable := by
  have hclean : ∀ e ∈ crowdedTable, e.pattern.Clean := by decide
  have hshort : minimise crowdedTable =
      [⟨⟨0, 6⟩, ⟨1⟩⟩, ⟨⟨2, 7⟩, ⟨1⟩⟩, ⟨⟨3, 7⟩, ⟨1⟩⟩, ⟨⟨3, 3⟩, ⟨2⟩⟩] := by cbv
  obtain ⟨_, _, _, _, hshadow, htwice⟩ := minimise_fixpoint hclean
  refine ⟨hclean, hshort, ?_, htwice⟩
  exact hshadow ⟨⟨2, 7⟩, ⟨1⟩⟩ (by simp [hshort]) ⟨⟨3, 7⟩, ⟨1⟩⟩ (by simp [hshort]) rfl 0
    ⟨rfl, by decide, by decide⟩

end Minimise

end HexFabric
