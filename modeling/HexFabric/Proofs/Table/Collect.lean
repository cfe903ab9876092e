import HexFabric.Table.Collect
import HexFabric.Proofs.Containers
import HexFabric.Proofs.Outcome
import Mathlib.Data.List.Nodup

/-! The entries collected on each chip. Of the entries that trees call for on a chip with one
pattern, the first is kept, and all of them have its route: `collected_ofTrees`. Nothing else is the
matter where entries cannot be collected: `recorded_ofTrees`. -/

namespace HexFabric

/-- An entry that is called for on a chip. -/
structure Call where
  chip : Chip
  entry : TreeEntry

namespace Call

def ofNode (key : Pattern) (n : RouteNode) : Call := ⟨n.chip, .ofNode key n⟩

def pattern (c : Call) : Pattern := c.entry.entry.pattern

def route (c : Call) : RouteSet := c.entry.entry.route

/-- The first entry called for on a chip with a pattern. -/
def first (calls : List Call) (c : Chip) (p : Pattern) : Option TreeEntry :=
  (calls.find? fun call => call.chip = c ∧ call.pattern = p).map (·.entry)

/-- The entries that a tree calls for, in the order of its nodes. -/
def ofTree (keys : KeyAssignment) (t : RoutingTree) : List Call :=
  match keys.keyOf t.net with
  | .ok key => t.nodes.toList.map (ofNode key)
  | .error _ => []

/-- The entries that trees call for, in the order of trees. -/
def ofTrees (keys : KeyAssignment) (trees : List RoutingTree) : List Call :=
  trees.flatMap (ofTree keys)

/-- Adds an entry unless there is one with its pattern. -/
def addFirst (entries : List TreeEntry) (e : TreeEntry) : List TreeEntry :=
  if entries.any (·.entry.pattern = e.entry.pattern) then entries else entries ++ [e]

/-- The entries called for on a chip, the first with each pattern, in the order of calls. -/
def entriesOn (calls : List Call) (c : Chip) : List TreeEntry :=
  ((calls.filter (·.chip = c)).map (·.entry)).foldl addFirst []

/-- Calls on a chip with pattern `p` ask for different routes. -/
def Clash (calls : List Call) (c : Chip) (p : Pattern) : Prop :=
  ∃ a ∈ calls, ∃ b ∈ calls, a.chip = c ∧ b.chip = c ∧ a.pattern = p ∧ b.pattern = p ∧
    a.route ≠ b.route

variable {calls : List Call} {c : Chip} {p : Pattern} {e : TreeEntry}

theorem first_eq_some (h : first calls c p = some e) :
    e.entry.pattern = p ∧ ⟨c, e⟩ ∈ calls := by
  obtain ⟨call, hfind, rfl⟩ := Option.map_eq_some_iff.1 h
  obtain ⟨hchip, hpattern⟩ : call.chip = c ∧ call.pattern = p := by
    simpa using List.find?_some hfind
  exact ⟨hpattern, hchip ▸ List.mem_of_find?_eq_some hfind⟩

theorem first_eq_none_iff : first calls c p = none ↔ ∀ e, ⟨c, e⟩ ∈ calls → e.entry.pattern ≠ p := by
  rw [first, Option.map_eq_none_iff, List.find?_eq_none]
  constructor
  · intro h e he hp
    exact absurd (h ⟨c, e⟩ he) (by simp [pattern, hp])
  · intro h call hcall heq
    obtain ⟨rfl, hp⟩ : call.chip = c ∧ call.pattern = p := by simpa using heq
    exact h call.entry hcall hp

theorem exists_first (h : ⟨c, e⟩ ∈ calls) : ∃ e', first calls c e.entry.pattern = some e' := by
  refine Option.ne_none_iff_exists'.1 fun hnone => ?_
  exact first_eq_none_iff.1 hnone e h rfl

theorem first_append (calls : List Call) (call : Call) (c : Chip) (p : Pattern) :
    first (calls ++ [call]) c p = (first calls c p).or
      (if call.chip = c ∧ call.pattern = p then some call.entry else none) := by
  rw [first, List.find?_append, Option.map_or, first]
  congr 1
  by_cases h : call.chip = c ∧ call.pattern = p
  · simp [h]
  · rw [if_neg h, List.find?_singleton]
    simp [h]

theorem mem_ofTrees {keys : KeyAssignment} {trees : List RoutingTree} {call : Call} :
    call ∈ ofTrees keys trees ↔ ∃ t ∈ trees, ∃ key, keys.keyOf t.net = .ok key ∧
      ∃ n ∈ t.nodes, call = ofNode key n := by
  rw [ofTrees, List.mem_flatMap]
  refine exists_congr fun t => and_congr_right fun _ => ?_
  rw [ofTree]
  cases keys.keyOf t.net with
  | error d => simp
  | ok key => simp [eq_comm]

theorem addFirst_of_find?_eq_none {entries : List TreeEntry}
    (h : entries.find? (·.entry.pattern = e.entry.pattern) = none) :
    addFirst entries e = entries ++ [e] := by
  refine if_neg fun hany => ?_
  obtain ⟨e', he', hpattern⟩ := List.any_eq_true.1 hany
  exact List.find?_eq_none.1 h e' he' hpattern

theorem addFirst_of_find?_eq_some {entries : List TreeEntry} {e' : TreeEntry}
    (h : entries.find? (·.entry.pattern = e.entry.pattern) = some e') :
    addFirst entries e = entries :=
  if_pos (List.any_eq_true.2 ⟨e', List.mem_of_find?_eq_some h, List.find?_some h⟩)

theorem entriesOn_append (calls : List Call) (call : Call) (c : Chip) :
    entriesOn (calls ++ [call]) c =
      if call.chip = c then addFirst (entriesOn calls c) call.entry else entriesOn calls c := by
  rw [entriesOn, List.filter_append, List.map_append, List.foldl_append]
  by_cases hc : call.chip = c
  · simp [hc, entriesOn]
  · simp [hc, entriesOn]

theorem Clash.mono {more : List Call} (h : Clash calls c p) (hsub : calls ⊆ more) :
    Clash more c p := by
  obtain ⟨a, ha, b, hb, hclash⟩ := h
  exact ⟨a, hsub ha, b, hsub hb, hclash⟩

end Call

namespace EntriesByChip

/-- The entries of a chip. -/
def entriesAt (t : EntriesByChip) (c : Chip) : List TreeEntry := (t.get? c).getD []

theorem entriesAt_of_mem {t : EntriesByChip} {e : Chip × List TreeEntry} (he : e ∈ t.entries) :
    t.entriesAt e.1 = e.2 := by
  rw [entriesAt, SortedMap.get?_eq_some_iff.2 he, Option.getD_some]

/-- Calls on one chip with one pattern ask for one route. -/
def Consistent (calls : List Call) : Prop :=
  ∀ a ∈ calls, ∀ b ∈ calls, a.chip = b.chip → a.pattern = b.pattern → a.route = b.route

/-- `t` holds what has been called for. -/
structure Collected (calls : List Call) (t : EntriesByChip) : Prop where
  find_entriesAt : ∀ c p, (t.entriesAt c).find? (·.entry.pattern = p) = Call.first calls c p
  nodup : ∀ c, ((t.entriesAt c).map (·.entry.pattern)).Nodup
  same_route : ∀ call ∈ calls, ∀ e, Call.first calls call.chip call.pattern = some e →
    e.entry.route = call.route

theorem collected_empty : Collected [] SortedMap.empty where
  find_entriesAt _ _ := rfl
  nodup _ := List.nodup_nil
  same_route _ h := absurd h List.not_mem_nil

namespace Collected

variable {calls : List Call} {t : EntriesByChip}

theorem mem_entriesAt_iff (h : Collected calls t) {c : Chip} {e : TreeEntry} :
    e ∈ t.entriesAt c ↔ Call.first calls c e.entry.pattern = some e := by
  rw [← h.find_entriesAt]
  constructor
  · intro he
    cases hfind : (t.entriesAt c).find? (·.entry.pattern = e.entry.pattern) with
    | none => exact absurd (List.find?_eq_none.1 hfind e he) (by simp)
    | some e' =>
      have hmem : e' ∈ t.entriesAt c := List.mem_of_find?_eq_some hfind
      have hpattern : e'.entry.pattern = e.entry.pattern := by simpa using List.find?_some hfind
      rw [List.inj_on_of_nodup_map (h.nodup c) hmem he hpattern]
  · exact List.mem_of_find?_eq_some

/-- An entry of a chip is that of a node there. -/
theorem exists_node {keys : KeyAssignment} {trees : List RoutingTree}
    (h : Collected (Call.ofTrees keys trees) t) {c : Chip} {e : TreeEntry}
    (he : e ∈ t.entriesAt c) : ∃ tree ∈ trees, ∃ key, keys.keyOf tree.net = .ok key ∧
      ∃ n ∈ tree.nodes, n.chip = c ∧ e = .ofNode key n := by
  have hmem := (Call.first_eq_some (h.mem_entriesAt_iff.1 he)).2
  obtain ⟨tree, htree, key, hkey, n, hn, heq⟩ := Call.mem_ofTrees.1 hmem
  cases heq
  exact ⟨tree, htree, key, hkey, n, hn, rfl, rfl⟩

theorem same_route_append (h : Collected calls t) {call : Call}
    (hnew : ∀ e, Call.first calls call.chip call.pattern = some e → e.entry.route = call.route) :
    ∀ c ∈ calls ++ [call], ∀ e, Call.first (calls ++ [call]) c.chip c.pattern = some e →
      e.entry.route = c.route := by
  intro c hc e he
  rw [Call.first_append] at he
  rcases List.mem_append.1 hc with hc | hc
  · obtain ⟨e', he'⟩ := Call.exists_first hc
    rw [Call.pattern, he', Option.some_or] at he
    cases he
    exact h.same_route c hc e he'
  · rw [List.mem_singleton.1 hc, if_pos ⟨rfl, rfl⟩] at he
    rw [List.mem_singleton.1 hc]
    cases hfirst : Call.first calls call.chip call.pattern with
    | some e' =>
      rw [hfirst, Option.some_or] at he
      cases he
      exact hnew e hfirst
    | none =>
      rw [hfirst, Option.none_or] at he
      cases he
      rfl

/-- A call for what is there already. -/
theorem append_present (h : Collected calls t) {call : Call} {e : TreeEntry}
    (hfirst : Call.first calls call.chip call.pattern = some e)
    (hroute : e.entry.route = call.route) : Collected (calls ++ [call]) t where
  find_entriesAt c p := by
    rw [h.find_entriesAt, Call.first_append]
    by_cases hnew : call.chip = c ∧ call.pattern = p
    · rw [← hnew.1, ← hnew.2, hfirst, Option.some_or]
    · rw [if_neg hnew, Option.or_none]
  nodup := h.nodup
  same_route := by
    refine h.same_route_append fun e' he' => ?_
    rw [hfirst] at he'
    cases he'
    exact hroute

theorem entriesAt_insert (t : EntriesByChip) (call : Call) (c : Chip) :
    entriesAt (t.insert call.chip (t.entriesAt call.chip ++ [call.entry])) c =
      if c = call.chip then t.entriesAt c ++ [call.entry] else t.entriesAt c := by
  rw [entriesAt, SortedMap.get?_insert]
  by_cases hc : c = call.chip
  · rw [if_pos hc, if_pos hc, hc, Option.getD_some]
  · rw [if_neg hc, if_neg hc, entriesAt]

/-- A call for something new. -/
theorem append_new (h : Collected calls t) {call : Call}
    (hfirst : Call.first calls call.chip call.pattern = none) :
    Collected (calls ++ [call])
      (t.insert call.chip (t.entriesAt call.chip ++ [call.entry])) where
  find_entriesAt c p := by
    rw [entriesAt_insert, Call.first_append]
    by_cases hc : c = call.chip
    · rw [if_pos hc, List.find?_append, h.find_entriesAt, List.find?_singleton]
      congr 1
      simp [Call.pattern, hc]
    · have hne : ¬(call.chip = c ∧ call.pattern = p) := fun heq => hc heq.1.symm
      rw [if_neg hc, if_neg hne, Option.or_none, h.find_entriesAt]
  nodup c := by
    rw [entriesAt_insert]
    by_cases hc : c = call.chip
    · rw [if_pos hc, List.map_append, List.nodup_append]
      refine ⟨h.nodup c, List.nodup_singleton _, fun p hp q hq hpq => ?_⟩
      obtain ⟨e, he, rfl⟩ := List.mem_map.1 hp
      rw [List.map_singleton, List.mem_singleton] at hq
      have hmem := Call.first_eq_some (h.mem_entriesAt_iff.1 he)
      exact Call.first_eq_none_iff.1 hfirst e (hc ▸ hmem.2) (hpq.trans hq)
    · rw [if_neg hc]
      exact h.nodup c
  same_route := by
    refine h.same_route_append fun e he => ?_
    rw [hfirst] at he
    cases he

theorem consistent (h : Collected calls t) : Consistent calls := by
  intro a ha b hb hchip hpattern
  obtain ⟨e, he⟩ := Call.exists_first ha
  rw [← h.same_route a ha e he]
  rw [← Call.pattern, hchip, hpattern] at he
  exact h.same_route b hb e he

end Collected

variable {calls : List Call} {t : EntriesByChip}

theorem Consistent.not_clash (h : Consistent calls) (c : Chip) (p : Pattern) :
    ¬Call.Clash calls c p := by
  rintro ⟨a, ha, b, hb, hac, hbc, hap, hbp, hroute⟩
  exact hroute (h a ha b hb (hac.trans hbc.symm) (hap.trans hbp.symm))

/-- `t` holds what has been called for, in the order of calls. -/
structure Recorded (calls : List Call) (t : EntriesByChip) : Prop extends Collected calls t where
  entriesAt_eq : ∀ c, t.entriesAt c = Call.entriesOn calls c

theorem recorded_empty : Recorded [] SortedMap.empty where
  toCollected := collected_empty
  entriesAt_eq _ := rfl

/-- A failure that names a chip and a pattern with which calls there clash. -/
def IsClash (calls : List Call) (e : Error) : Prop :=
  ∃ c p, e = .multisourceRoute p.key p.mask c ∧ Call.Clash calls c p

theorem IsClash.mono {more : List Call} {e : Error} (h : IsClash calls e) (hsub : calls ⊆ more) :
    IsClash more e := by
  obtain ⟨c, p, rfl, hclash⟩ := h
  exact ⟨c, p, rfl, hclash.mono hsub⟩

namespace Recorded

variable (h : Recorded calls t) {call : Call} {e : TreeEntry}

include h

theorem find?_entriesOn (c : Chip) (p : Pattern) :
    (Call.entriesOn calls c).find? (·.entry.pattern = p) = Call.first calls c p := by
  rw [← h.entriesAt_eq, h.find_entriesAt]

theorem append_present (hfirst : Call.first calls call.chip call.pattern = some e)
    (hroute : e.entry.route = call.route) : Recorded (calls ++ [call]) t where
  toCollected := h.toCollected.append_present hfirst hroute
  entriesAt_eq c := by
    rw [h.entriesAt_eq, Call.entriesOn_append]
    split
    · subst c
      exact (Call.addFirst_of_find?_eq_some ((h.find?_entriesOn _ _).trans hfirst)).symm
    · rfl

theorem append_new (hfirst : Call.first calls call.chip call.pattern = none) :
    Recorded (calls ++ [call])
      (t.insert call.chip (t.entriesAt call.chip ++ [call.entry])) where
  toCollected := h.toCollected.append_new hfirst
  entriesAt_eq c := by
    rw [Collected.entriesAt_insert, h.entriesAt_eq, Call.entriesOn_append]
    by_cases hc : c = call.chip
    · subst hc
      rw [if_pos rfl, if_pos rfl]
      exact (Call.addFirst_of_find?_eq_none ((h.find?_entriesOn _ _).trans hfirst)).symm
    · rw [if_neg hc, if_neg (Ne.symm hc)]

theorem addNode (key : Pattern) (n : RouteNode) :
    Ends (EntriesByChip.addNode key t n) (IsClash (calls ++ [.ofNode key n]))
      (Recorded (calls ++ [.ofNode key n])) := by
  have hfind : ((t.get? n.chip).getD []).find?
      (·.entry.pattern = (TreeEntry.ofNode key n).entry.pattern) =
        Call.first calls n.chip (Call.ofNode key n).pattern :=
    h.find_entriesAt n.chip (Call.ofNode key n).pattern
  unfold EntriesByChip.addNode
  dsimp only
  rw [hfind]
  cases hfirst : Call.first calls n.chip (Call.ofNode key n).pattern with
  | none => exact h.append_new hfirst
  | some e =>
    dsimp only
    by_cases hroute : e.entry.route = (TreeEntry.ofNode key n).entry.route
    · rw [if_pos hroute]
      exact h.append_present hfirst hroute
    · rw [if_neg hroute]
      obtain ⟨hpattern, hmem⟩ := Call.first_eq_some hfirst
      exact ⟨n.chip, _, rfl, _, List.mem_append_left _ hmem, _,
        List.mem_append_right _ (List.mem_singleton_self _), rfl, rfl, hpattern, rfl, hroute⟩

end Recorded

theorem recorded_addNodes (h : Recorded calls t) (key : Pattern) (nodes : List RouteNode) :
    Ends (nodes.foldlM (addNode key) t) (IsClash (calls ++ nodes.map (.ofNode key)))
      (Recorded (calls ++ nodes.map (.ofNode key))) := by
  induction nodes generalizing calls t with
  | nil => exact .pure (by rwa [List.map_nil, List.append_nil])
  | cons n rest ih =>
    rw [List.foldlM_cons, List.map_cons, ← List.singleton_append, ← List.append_assoc]
    refine Ends.bind ((h.addNode key n).imp (fun _ he => ?_) fun _ => id) fun t' ht' => ih ht'
    exact he.mono (List.subset_append_left _ _)

theorem recorded_addTree (h : Recorded calls t) (keys : KeyAssignment) (tree : RoutingTree) :
    Ends (addTree keys t tree)
      (fun f => tree.net < keys.keys.size →
        ∃ e, f = .error e ∧ IsClash (calls ++ Call.ofTree keys tree) e)
      (Recorded (calls ++ Call.ofTree keys tree)) := by
  rw [addTree, Call.ofTree]
  cases hkey : keys.keyOf tree.net with
  | error d =>
    refine fun hlt => ?_
    rw [KeyAssignment.keyOf, fetch, Array.getElem?_eq_getElem hlt] at hkey
    cases hkey
  | ok key =>
    exact .liftError ((recorded_addNodes h key _).imp (fun e he _ => ⟨e, rfl, he⟩) fun _ => id)

theorem recorded_addTrees (h : Recorded calls t) (keys : KeyAssignment) (trees : List RoutingTree) :
    Ends (trees.foldlM (addTree keys) t)
      (fun f => (∀ tree ∈ trees, tree.net < keys.keys.size) →
        ∃ e, f = .error e ∧ IsClash (calls ++ Call.ofTrees keys trees) e)
      (Recorded (calls ++ Call.ofTrees keys trees)) := by
  induction trees generalizing calls t with
  | nil => exact .pure (by rwa [Call.ofTrees, List.flatMap_nil, List.append_nil])
  | cons tree rest ih =>
    rw [List.foldlM_cons, Call.ofTrees, List.flatMap_cons, ← List.append_assoc]
    refine Ends.bind ((recorded_addTree h keys tree).imp (fun f hf hkeys => ?_) fun _ => id)
      fun t' ht' => (ih ht').imp (fun f hf hkeys => ?_) fun _ => id
    · obtain ⟨e, rfl, he⟩ := hf (hkeys tree List.mem_cons_self)
      exact ⟨e, rfl, he.mono (List.subset_append_left _ _)⟩
    · exact hf fun tree htree => hkeys tree (List.mem_cons_of_mem _ htree)

/-- Collecting fails only if a net has no key or two nodes ask for different routes, and then it names
the chip and the pattern of two such nodes. -/
theorem recorded_ofTrees (keys : KeyAssignment) (trees : List RoutingTree) :
    Ends (ofTrees keys trees)
      (fun f => (∀ tree ∈ trees, tree.net < keys.keys.size) →
        ∃ e, f = .error e ∧ IsClash (Call.ofTrees keys trees) e)
      (Recorded (Call.ofTrees keys trees)) :=
  recorded_addTrees recorded_empty keys trees

theorem collected_ofTrees (keys : KeyAssignment) (trees : List RoutingTree) :
    Ends (ofTrees keys trees)
      (fun _ => ¬((∀ tree ∈ trees, tree.net < keys.keys.size) ∧
        Consistent (Call.ofTrees keys trees)))
      (Collected (Call.ofTrees keys trees)) := by
  refine (recorded_ofTrees keys trees).imp (fun f hf ⟨hkeys, hconsistent⟩ => ?_)
    fun t ht => ht.toCollected
  obtain ⟨_, _, c, p, _, hclash⟩ := hf hkeys
  exact hconsistent.not_clash c p hclash

end EntriesByChip

end HexFabric
