import HexFabric.Proofs.Route.Growth
import HexFabric.Proofs.Route.Shortest
import Mathlib

/-! Routing one net. Between chips of a machine, where a word can count them, a net ends up with a tree
of shortest ways to its destinations, or with the error that the first destination that is out of
reach is so: `Machine.routeNet_shortest`. -/

namespace HexFabric

/-- A tree over the hops of the machine, from `source` to the destinations `ds`. -/
structure RoutingTree.Serves (m : Machine) (source : Chip) (ds : List Destination)
    (t : RoutingTree) : Prop extends Branching m source t.nodes where
  delivers : Delivers t.nodes ds
  reaches : ∀ d ∈ ds, ∃ n ∈ t.nodes, n.chip = d.chip

variable {m : Machine} {source : Chip} {ds : List Destination} {marks : Array Mark}
  {rank : Chip → Nat}

/-! ### Bringing nodes into order -/

theorem nodeAt_tidy {nodes : Array RouteNode} {i : Nat} {c : Chip} {a : Option Link} :
    NodeAt (nodes.map (·.tidy)) i c a ↔ NodeAt nodes i c a := by
  simp [NodeAt, RouteNode.tidy]

theorem isChild_tidy {nodes : Array RouteNode} {i j : Nat} {l : Link} :
    IsChild (nodes.map (·.tidy)) i l j ↔ IsChild nodes i l j := by
  simp [IsChild, RouteNode.tidy, List.mem_mergeSort]

/-- Bringing nodes into order changes nothing of what they say. -/
theorem Growth.Sound.serves {t : Growth} (h : t.Sound m source ds)
    (hreach : ∀ d ∈ ds, t.Holds d.chip) (net : Nat) :
    RoutingTree.Serves m source ds ⟨net, t.nodes.map (·.tidy)⟩ := by
  refine ⟨h.toBranching.congr Array.size_map (fun _ _ _ => nodeAt_tidy) fun _ _ _ => isChild_tidy,
    fun n hn => ?_, fun d hd => ?_⟩
  · obtain ⟨k, hk, rfl⟩ := Array.mem_map.1 hn
    obtain ⟨hlocal, hexits⟩ := h.delivers k hk
    exact ⟨hlocal, fun l => Ascending.mem_ofList.trans (hexits l)⟩
  · obtain ⟨i, a, hi⟩ := hreach d hd
    obtain ⟨n, hn, hchip, _⟩ := nodeAt_tidy.2 hi
    exact ⟨n, Array.mem_of_getElem? hn, hchip⟩

theorem Pruned.tidy {nodes : Array RouteNode} {ends : Chip → Prop}
    (h : Pruned m.toGrid marks ends nodes) :
    Pruned m.toGrid marks ends (nodes.map (·.tidy)) := by
  refine h.congr (fun _ _ _ => nodeAt_tidy) (fun _ _ _ => isChild_tidy) fun n hn => ?_
  obtain ⟨k, hk, rfl⟩ := Array.mem_map.1 hn
  exact (List.mergeSort_perm _ _).nodup_iff.2 (h.nodup k hk)

/-- Children of different links are listed by rising link. -/
theorem RouteNode.pairwise_children_tidy {n : RouteNode} (hnodup : n.children.Nodup)
    (hlink : ∀ l j j', (l, j) ∈ n.children → (l, j') ∈ n.children → j = j') :
    (n.tidy.children.map (·.1)).Pairwise (· < ·) := by
  have hle : ∀ {a b : Link × Nat}, childLe a b = true ↔ a.1 < b.1 ∨ a.1 = b.1 ∧ a.2 ≤ b.2 :=
    decide_eq_true_iff
  have hsorted : n.tidy.children.Pairwise fun a b => childLe a b = true := by
    refine List.pairwise_mergeSort (fun a b c hab hbc => ?_) (fun a b => ?_) _
    · rw [hle] at hab hbc ⊢
      rcases hab with hab | ⟨hab, hab'⟩
      · rcases hbc with hbc | ⟨hbc, _⟩
        · exact .inl (StrictLinear.trans hab hbc)
        · exact .inl (hbc ▸ hab)
      · rcases hbc with hbc | ⟨hbc, hbc'⟩
        · exact .inl (hab ▸ hbc)
        · exact .inr ⟨hab.trans hbc, Nat.le_trans hab' hbc'⟩
    · rw [Bool.or_eq_true, hle, hle]
      by_cases hlt : a.1 < b.1
      · exact .inl (.inl hlt)
      by_cases hgt : b.1 < a.1
      · exact .inr (.inl hgt)
      have heq := StrictLinear.connected hlt hgt
      rcases Nat.le_total a.2 b.2 with h | h
      · exact .inl (.inr ⟨heq, h⟩)
      · exact .inr (.inr ⟨heq.symm, h⟩)
  have hperm : n.tidy.children.Perm n.children := List.mergeSort_perm _ _
  rw [List.pairwise_map]
  refine (hsorted.and (hperm.nodup_iff.2 hnodup)).imp_of_mem fun {a b} ha hb hab => ?_
  rcases hle.1 hab.1 with hlt | ⟨heq, _⟩
  · exact hlt
  · refine absurd (Prod.ext heq ?_) hab.2
    exact hlink a.1 a.2 b.2 (hperm.mem_iff.1 ha) (heq ▸ hperm.mem_iff.1 hb)

/-! ### The shape of a tree -/

namespace RoutingTree

variable {t : RoutingTree}

theorem returns_deepen (depth : Nat) {children : List (Link × Nat)} {depths : Array Nat}
    (hchildren : ∀ e ∈ children, e.2 < depths.size) :
    Returns (deepen depth children depths) fun depths' => depths'.size = depths.size ∧
      ∀ j : Nat, depths'[j]? = if j ∈ children.map (·.2) then some (depth + 1) else depths[j]? := by
  unfold deepen
  induction children generalizing depths with
  | nil => exact .pure ⟨rfl, fun j => by simp⟩
  | cons e rest ih =>
    have he := hchildren e List.mem_cons_self
    rw [List.foldlM_cons, store_of_lt he]
    have hrest : ∀ e' ∈ rest, e'.2 < (depths.setIfInBounds e.2 (depth + 1)).size := by
      rw [Array.size_setIfInBounds]
      exact fun e' he' => hchildren e' (List.mem_cons_of_mem _ he')
    refine (ih hrest).mono ?_
    rintro depths' ⟨hsize, hget⟩
    refine ⟨hsize.trans Array.size_setIfInBounds, fun j => ?_⟩
    rw [hget, Array.getElem?_setIfInBounds, List.map_cons]
    by_cases hj : e.2 = j
    · simp [← hj, he]
    · simp only [List.mem_cons, Ne.symm hj, false_or, if_neg hj]

/-- A numbering that rises by one from each node to its children, from zero at the first node, is
that of the depths. -/
theorem returns_depths (h : Branching m source t.nodes) (depth : Nat → Nat) (hroot : depth 0 = 0)
    (hchild : ∀ i l j, IsChild t.nodes i l j → depth j = depth i + 1) :
    Returns t.depths fun depths => depths.size = t.nodes.size ∧
      ∀ j < t.nodes.size, depths[j]? = some (depth j) := by
  have hsorted : t.nodes.toList.zipIdx.Pairwise fun a b => a.2 < b.2 := by
    rw [← List.pairwise_map, List.zipIdx_map_snd]
    exact List.pairwise_lt_range'
  have hnode : ∀ e ∈ t.nodes.toList.zipIdx, t.nodes[e.2]? = some e.1 := by
    intro e he
    rw [← Array.getElem?_toList]
    exact List.mem_zipIdx_iff_getElem?.1 he
  -- the depths of all but the children of nodes still to come are right
  have hloop := Ends.foldlM (E := fun _ : Defect => False) (l := t.nodes.toList.zipIdx)
    (f := fun depths e => do deepen (← fetch depths e.2) e.1.children depths)
    (b := Array.replicate t.nodes.size 0)
    (fun rest depths => rest <:+ t.nodes.toList.zipIdx ∧ depths.size = t.nodes.size ∧
      ∀ j < t.nodes.size, (∀ e ∈ rest, j ∉ e.1.children.map (·.2)) → depths[j]? = some (depth j))
    ⟨List.suffix_refl _, Array.size_replicate, fun j hj hnone => ?_⟩
    fun e he rest depths ⟨hsuffix, hsize, hdone⟩ => ?_
  · exact hloop.mono fun depths hdepths => ⟨hdepths.2.1, fun j hj => hdepths.2.2 j hj nofun⟩
  · have hzero : j = 0 := by
      refine Nat.eq_zero_of_not_pos fun hpos => ?_
      obtain ⟨i, l, n, hn, hmem⟩ := h.parent j hj hpos
      exact hnone (n, i) (List.mem_zipIdx_iff_getElem?.2 (by rwa [Array.getElem?_toList]))
        (List.mem_map_of_mem hmem)
    rw [Array.getElem?_replicate, if_pos hj, hzero, hroot]
  · obtain ⟨n, i⟩ := e
    have hn : t.nodes[i]? = some n := hnode _ he
    have hi : i < t.nodes.size := (Array.getElem?_eq_some_iff.1 hn).1
    have hnot : ∀ e ∈ (n, i) :: rest, i ∉ e.1.children.map (·.2) := by
      intro e he hmem
      have hle : i ≤ e.2 := by
        rcases List.mem_cons.1 he with rfl | he
        · exact Nat.le_refl _
        · exact Nat.le_of_lt ((List.pairwise_cons.1 (hsorted.sublist hsuffix.sublist)).1 e he)
      obtain ⟨⟨l, _⟩, hchild, rfl⟩ := List.mem_map.1 hmem
      exact Nat.not_lt_of_le hle (h.lt e.2 l _ ⟨e.1, hnode e (hsuffix.mem he), hchild⟩)
    refine Ends.bind (returns_fetch (hsize ▸ hi)) fun d hd => ?_
    rw [hdone i hi hnot, Option.some.injEq] at hd
    subst hd
    refine (returns_deepen (depth i) fun e he => ?_).mono ?_
    · rw [hsize]
      exact h.child_lt_size ⟨n, hn, he⟩
    · rintro depths' ⟨hsize', hget⟩
      refine ⟨(List.suffix_cons _ _).trans hsuffix, hsize'.trans hsize, fun j hj hlater => ?_⟩
      rw [hget]
      split
      · obtain ⟨⟨l, _⟩, hmem, rfl⟩ := List.mem_map.1 ‹j ∈ _›
        rw [hchild i l _ ⟨n, hn, hmem⟩]
      · exact hdone j hj (List.forall_mem_cons.2 ⟨‹_›, hlater⟩)

/-- The nodes to which links of the tree lead, link by link. -/
def linked (t : RoutingTree) : List Nat := t.nodes.toList.flatMap fun n => n.children.map (·.2)

theorem hops_eq_length_linked (t : RoutingTree) : t.hops = t.linked.length := by
  unfold hops linked
  induction t.nodes.toList with
  | nil => rfl
  | cons n rest ih =>
    rw [List.foldr_cons, ih, List.flatMap_cons, List.length_append, List.length_map]

theorem mem_linked (h : Branching m source t.nodes) {j : Nat} :
    j ∈ t.linked ↔ 0 < j ∧ j < t.nodes.size := by
  rw [linked, List.mem_flatMap]
  constructor
  · rintro ⟨n, hn, hj⟩
    obtain ⟨i, hi⟩ := Array.mem_iff_getElem?.1 (Array.mem_toList_iff.1 hn)
    obtain ⟨⟨l, _⟩, hmem, rfl⟩ := List.mem_map.1 hj
    exact ⟨Nat.zero_lt_of_lt (h.lt i l _ ⟨n, hi, hmem⟩), h.child_lt_size ⟨n, hi, hmem⟩⟩
  · rintro ⟨hpos, hlt⟩
    obtain ⟨i, l, n, hn, hmem⟩ := h.parent j hlt hpos
    exact ⟨n, Array.mem_toList_iff.2 (Array.mem_of_getElem? hn), List.mem_map_of_mem hmem⟩

theorem nodup_linked (h : Branching m source t.nodes) (hnodup : ∀ n ∈ t.nodes, n.children.Nodup) :
    t.linked.Nodup := by
  refine List.nodup_flatMap.2 ⟨fun n hn => ?_, List.pairwise_iff_getElem.2 fun i i' hi hi' hlt => ?_⟩
  · obtain ⟨i, hi⟩ := Array.mem_iff_getElem?.1 (Array.mem_toList_iff.1 hn)
    refine (hnodup n (Array.mem_toList_iff.1 hn)).map_on fun a ha b hb hab => Prod.ext ?_ hab
    exact (h.unique i i a.1 b.1 a.2 ⟨n, hi, ha⟩ ⟨n, hi, hab ▸ hb⟩).2
  · intro j hj hj'
    obtain ⟨e, hmem, rfl⟩ := List.mem_map.1 hj
    obtain ⟨e', hmem', heq⟩ := List.mem_map.1 hj'
    have hi : t.nodes[i]? = some t.nodes.toList[i] := by simp
    have hi' : t.nodes[i']? = some t.nodes.toList[i'] := by simp
    have hsame := h.unique i i' e.1 e'.1 e.2 ⟨_, hi, hmem⟩ ⟨_, hi', by rw [← heq]; exact hmem'⟩
    omega

/-- A packet takes one link to each node but the first. -/
theorem hops_add_one (h : Branching m source t.nodes) (hnodup : ∀ n ∈ t.nodes, n.children.Nodup) :
    t.hops + 1 = t.nodes.size := by
  have hmem : ∀ j, j ∈ t.linked ↔ j ∈ List.range' 1 (t.nodes.size - 1) := by
    intro j
    rw [mem_linked h, List.mem_range'_1]
    omega
  have hperm := (List.perm_ext_iff_of_nodup (nodup_linked h hnodup) List.nodup_range').2 hmem
  have hroot := h.root.lt_size
  rw [hops_eq_length_linked, hperm.length_eq, List.length_range']
  omega

/-- A tree of shortest ways from `source` to the destinations `ds`, with the deliveries to them. -/
structure Shortest (m : Machine) (source : Chip) (ds : List Destination) (t : RoutingTree) :
    Prop where
  root : ∃ n, t.nodes[0]? = some n ∧ n.chip = source ∧ n.arrivedOn = none
  distinct : (t.nodes.toList.map (·.chip)).Nodup
  orphan : ∀ i l, ¬IsChild t.nodes i l 0
  parent : ∀ j < t.nodes.size, 0 < j → ∃! e : Nat × Link, IsChild t.nodes e.1 e.2 j
  hop : ∀ n ∈ t.nodes, ∀ l j, (l, j) ∈ n.children → ∃ child, t.nodes[j]? = some child ∧
    m.hop n.chip l = some child.chip ∧ child.arrivedOn = some l.opposite
  links : ∀ n ∈ t.nodes, (n.children.map (·.1)).Pairwise (· < ·)
  depths : ∃ depths, t.depths = .ok depths ∧ depths.size = t.nodes.size ∧
    ∀ (j : Nat) (n : RouteNode), t.nodes[j]? = some n →
      ∃ d, depths[j]? = some d ∧ IsLeast {k | m.Walk source k n.chip} d
  hops : t.hops + 1 = t.nodes.size
  leaf : ∀ n ∈ t.nodes, n.children = [] → n.chip = source ∨ ∃ d ∈ ds, d.chip = n.chip
  reaches : ∀ d ∈ ds, ∃ n ∈ t.nodes, n.chip = d.chip
  isLocal : ∀ n ∈ t.nodes, (n.isLocal = true ↔ .cores n.chip ∈ ds)
  exits : ∀ n ∈ t.nodes, n.exits.Pairwise (· < ·) ∧ ∀ l, l ∈ n.exits ↔ .device n.chip l ∈ ds

theorem Shortest.reached (h : t.Shortest m source ds) {n : RouteNode} (hn : n ∈ t.nodes) :
    m.Reaches source n.chip := by
  obtain ⟨j, hj⟩ := Array.mem_iff_getElem?.1 hn
  obtain ⟨_, _, _, hget⟩ := h.depths
  obtain ⟨d, _, hleast⟩ := hget j n hj
  exact ⟨d, hleast.1⟩

end RoutingTree

section Shortest

variable {depth : Chip → Nat} {front : List Chip} {nodes : Array RouteNode} {ends : Chip → Prop}

/-- The search has seen the chips of all nodes. -/
theorem Pruned.seen (h : Pruned m.toGrid marks ends nodes) (hnodes : Branching m source nodes)
    (hmarked : Marked m source rank marks) {j : Nat} {c : Chip} {a : Option Link}
    (hj : NodeAt nodes j c a) : Seen m marks c := by
  rcases Nat.eq_zero_or_pos j with rfl | hpos
  · rw [hj.chip_eq hnodes.root]
    exact hmarked.seen_source
  · obtain ⟨i, l, hij⟩ := hnodes.parent j hj.lt_size hpos
    obtain ⟨_, _, next, _, _, hj', hmark⟩ := h.marked i l j hij
    simp [Seen, hj.chip_eq hj', hmark]

/-- The depths of nodes are those of their chips. -/
theorem Pruned.returns_depths {t : RoutingTree} (h : Pruned m.toGrid marks ends t.nodes)
    (hnodes : Branching m source t.nodes) (hmarked : Marked m source rank marks)
    (hlevels : Levels m source depth marks front) :
    Returns t.depths fun depths => depths.size = t.nodes.size ∧
      ∀ (j : Nat) (n : RouteNode), t.nodes[j]? = some n →
        ∃ d, depths[j]? = some d ∧ IsLeast {k | m.Walk source k n.chip} d := by
  have hdepth : ∀ {j c a}, NodeAt t.nodes j c a →
      (t.nodes[j]?.elim 0 fun n => depth n.chip) = depth c := by
    rintro j c a ⟨n, hn, rfl, _⟩
    rw [hn]
    rfl
  refine (RoutingTree.returns_depths hnodes (fun j => t.nodes[j]?.elim 0 fun n => depth n.chip) ?_
    fun i l j hij => ?_).mono ?_
  · rw [hdepth hnodes.root, hlevels.depth_source]
  · obtain ⟨c, a, next, b, hi, hj, hmark⟩ := h.marked i l j hij
    rw [hdepth hi, hdepth hj]
    exact hlevels.via next c l (hnodes.has j next b hj) hmark
  · rintro depths ⟨hsize, hget⟩
    refine ⟨hsize, fun j n hn => ?_⟩
    have hat := nodeAt_of_getElem? hn
    exact ⟨depth n.chip, by rw [hget j hat.lt_size, hdepth hat],
      hlevels.isLeast hmarked (hnodes.has _ _ _ hat) (h.seen hnodes hmarked hat)⟩

/-- A tree grown over the hops that a search by levels has marked is one of shortest ways. -/
theorem Growth.Sound.shortest {t : Growth} (h : t.Sound m source ds)
    (hreach : ∀ d ∈ ds, t.Holds d.chip) (hmarked : Marked m source rank marks)
    (hlevels : Levels m source depth marks front)
    (hpruned : Pruned m.toGrid marks (fun c => c = source ∨ ∃ d ∈ ds, d.chip = c) t.nodes)
    (net : Nat) : RoutingTree.Shortest m source ds ⟨net, t.nodes.map (·.tidy)⟩ := by
  have hserves := h.serves hreach net
  have htidy := hpruned.tidy
  refine ⟨hserves.root, hserves.nodup_chips,
    fun i l hl => absurd (hserves.lt i l 0 hl) (Nat.not_lt_zero _), fun j hj hpos => ?_,
    fun n hn l j hl => ?_, fun n hn => ?_,
    returns_iff.1 (htidy.returns_depths (t := ⟨net, _⟩) hserves.toBranching hmarked hlevels),
    RoutingTree.hops_add_one hserves.toBranching htidy.nodup, fun n hn hleaf => ?_,
    hserves.reaches, fun n hn => (hserves.delivers n hn).1,
    fun n hn => ⟨?_, (hserves.delivers n hn).2⟩⟩
  · obtain ⟨i, l, hij⟩ := hserves.parent j hj hpos
    refine ⟨(i, l), hij, fun e he => ?_⟩
    obtain ⟨hi, hl⟩ := hserves.unique e.1 i e.2 l j he hij
    exact Prod.ext hi hl
  · obtain ⟨i, hi⟩ := Array.mem_iff_getElem?.1 hn
    obtain ⟨c, _, next, hat, ⟨child, hchild, rfl, harrived⟩, hhop⟩ :=
      hserves.hop i l j ((isChild_iff hi).2 hl)
    rw [hat.chip_eq (nodeAt_of_getElem? hi)] at hhop
    exact ⟨child, hchild, hhop, harrived⟩
  · obtain ⟨k, hk, rfl⟩ := Array.mem_map.1 hn
    obtain ⟨i, hi⟩ := Array.mem_iff_getElem?.1 hk
    exact RouteNode.pairwise_children_tidy (hpruned.nodup k hk) fun l j j' hj hj' =>
      h.eq_of_link ((isChild_iff hi).2 hj) ((isChild_iff hi).2 hj')
  · obtain ⟨i, hi⟩ := Array.mem_iff_getElem?.1 hn
    refine (htidy.goes_on i _ _ (nodeAt_of_getElem? hi)).resolve_left ?_
    rintro ⟨l, j, hij⟩
    rw [isChild_iff hi, hleaf] at hij
    cases hij
  · obtain ⟨k, _, rfl⟩ := Array.mem_map.1 hn
    exact Ascending.pairwise_ofList _

end Shortest

/-! ### Routing -/

theorem Growth.returns_reachAll {t : Growth} (h : t.Sound m source [])
    (hmarks : Marked m source rank marks) {sinks : List Chip}
    (hsinks : ∀ c ∈ sinks, m.Has c ∧ Seen m marks c) {ends : Chip → Prop}
    (hpruned : Pruned m.toGrid marks ends t.nodes) (hends : ∀ c ∈ sinks, ends c) :
    Returns (sinks.foldlM (reach m.toGrid marks) t) fun t' => t'.Sound m source [] ∧
      Pruned m.toGrid marks ends t'.nodes ∧ ∀ c ∈ sinks, t'.Holds c := by
  have hloop := Ends.foldlM (E := fun _ : Defect => False) (f := reach m.toGrid marks)
    (fun rest t => t.Sound m source [] ∧ Pruned m.toGrid marks ends t.nodes ∧
      ∀ c ∈ sinks, c ∈ rest ∨ t.Holds c)
    ⟨h, hpruned, fun c hc => .inl hc⟩ fun c hc rest t ⟨ht, hpruned, hdone⟩ => ?_
  · exact hloop.mono fun t' ht' =>
      ⟨ht'.1, ht'.2.1, fun c hc => (ht'.2.2 c hc).resolve_left List.not_mem_nil⟩
  · refine (ht.returns_reach hpruned hmarks (hsinks c hc).1 (hsinks c hc).2).mono ?_
    rintro t' ⟨ht', hpruned', hc', hkeep⟩
    refine ⟨ht', hpruned'.mono fun x hx => hx.elim id (· ▸ hends c hc), fun c'' hc'' => ?_⟩
    rcases hdone c'' hc'' with hmem | hold
    · rcases List.mem_cons.1 hmem with rfl | hmem
      · exact .inr hc'
      · exact .inl hmem
    · exact .inr (hkeep c'' hold)

theorem Growth.returns_deliverAll {t : Growth} (h : t.Sound m source []) {ends : Chip → Prop}
    (hpruned : Pruned m.toGrid marks ends t.nodes) (hds : ∀ d ∈ ds, t.Holds d.chip) :
    Returns (ds.foldlM (deliver m.toGrid) t) fun t' => t'.Sound m source ds ∧
      Pruned m.toGrid marks ends t'.nodes ∧ ∀ d ∈ ds, t'.Holds d.chip := by
  have hloop := Ends.foldlM (E := fun _ : Defect => False) (f := deliver m.toGrid)
    (fun rest t => ∃ done, done ++ rest = ds ∧ t.Sound m source done ∧
      Pruned m.toGrid marks ends t.nodes ∧ ∀ d ∈ ds, t.Holds d.chip)
    ⟨[], rfl, h, hpruned, hds⟩ fun d hd rest t ⟨done, heq, ht, hpruned, hholds⟩ => ?_
  · refine hloop.mono ?_
    rintro t' ⟨done, heq, ht', hrest⟩
    rw [List.append_nil] at heq
    exact ⟨heq ▸ ht', hrest⟩
  · refine (ht.returns_deliver (hholds d hd)).mono ?_
    rintro t' ⟨ht', hpruned', hkeep⟩
    exact ⟨done ++ [d], by rw [List.append_assoc, List.singleton_append, heq], ht',
      hpruned' _ _ hpruned, fun d' hd' => (hkeep _).2 (hholds d' hd')⟩

/-- The first of the destinations `ds` to which no hops lead, and that it is out of reach. -/
def Machine.OutOfReach (m : Machine) (net : Nat) (source : Chip) (ds : List Destination)
    (f : Failure) : Prop :=
  ∃ before d after, ds = before ++ d :: after ∧ (∀ d' ∈ before, m.Reaches source d'.chip) ∧
    ¬m.Reaches source d.chip ∧ f = .error (.unroutable net source d.chip)

theorem Machine.OutOfReach.expected {net : Nat} {f : Failure} (h : m.OutOfReach net source ds f) :
    f.Expected := by
  obtain ⟨_, _, _, _, _, _, rfl⟩ := h
  trivial

/-- The first destination that a search has not come to is the first that is out of reach. -/
theorem Search.Finished.outOfReach {s : Search} (hmarked : Marked m source rank s.marks)
    (hds : ∀ d ∈ ds, m.Has d.chip)
    (h : s.Finished m source (InsertionSet.ofList (ds.map (·.chip))).elems) {sink : Chip}
    (hsink : (InsertionSet.ofList (ds.map (·.chip))).elems.find?
      (fun c => markAt m.toGrid s.marks c = .unseen) = some sink) (net : Nat) :
    m.OutOfReach net source ds (.error (.unroutable net source sink)) := by
  have hqueue : s.queue = [] := by
    refine h.done.resolve_left fun hall => ?_
    have hunseen := List.find?_some hsink
    exact hall sink (List.mem_of_find?_eq_some hsink) (of_decide_eq_true hunseen)
  obtain ⟨depth, hlevels⟩ := h.levels
  rw [hqueue] at hlevels
  rw [InsertionSet.find?_elems_ofList, List.find?_map, Option.map_eq_some_iff] at hsink
  obtain ⟨d, hd, rfl⟩ := hsink
  obtain ⟨hunseen, before, after, heq, hbefore⟩ := List.find?_eq_some_iff_append.1 hd
  have hseen : ∀ d' ∈ ds, Seen m s.marks d'.chip ↔ m.Reaches source d'.chip :=
    fun d' hd' => hlevels.seen_iff hmarked (hds d' hd')
  refine ⟨before, d, after, heq, fun d' hd' => ?_, ?_, rfl⟩
  · refine (hseen d' (heq ▸ List.mem_append_left _ hd')).1 ?_
    simpa using hbefore d' hd'
  · refine (hseen d (heq ▸ List.mem_append_cons_self)).not.1 (not_not.2 ?_)
    simpa using hunseen

namespace Machine

/-- Routing one net ends in a tree over the hops that the search has marked, with shortest ways, or
in the error that a destination is out of reach. -/
theorem ends_routeNet_marked (hsize : m.size < 2 ^ 32) (hsource : m.Has source)
    {destinations : InsertionSet Destination} (hds : ∀ d ∈ destinations.elems, m.Has d.chip) (net : Nat) :
    Ends (m.routeNet net source destinations) (m.OutOfReach net source destinations.elems) fun t =>
      (t.net = net ∧ t.Serves m source destinations.elems ∧
        t.Shortest m source destinations.elems) ∧
      ∃ search rank, Search.fromSource m source
          (InsertionSet.ofList (destinations.elems.map (·.chip))).elems = .ok search ∧
        Marked m source rank search.marks ∧
        Pruned m.toGrid search.marks (fun c => c = source ∨ ∃ d ∈ destinations.elems, d.chip = c)
          t.nodes := by
  unfold routeNet
  extract_lets sinks
  have hsink : ∀ c, c ∈ sinks ↔ ∃ d ∈ destinations.elems, d.chip = c := by
    simp [sinks, InsertionSet.mem_elems_ofList]
  have hhas : ∀ c ∈ sinks, m.Has c := by
    intro c hc
    obtain ⟨d, hd, rfl⟩ := (hsink c).1 hc
    exact hds d hd
  obtain ⟨search, hrun, hsearch⟩ :=
    returns_iff.1 (Search.returns_fromSource hsize hsource hhas (InsertionSet.distinct _))
  rw [hrun, liftM_ok_bind]
  obtain ⟨rank, hmarked⟩ := hsearch.marked
  obtain ⟨depth, hlevels⟩ := hsearch.levels
  refine Ends.bind (Search.returns_firstUnseen hmarked hhas).lift fun first hfirst => ?_
  cases first with
  | some sink => exact hsearch.outOfReach hmarked hds hfirst.symm net
  | none =>
    have hseen : ∀ c ∈ sinks, m.Has c ∧ Seen m search.marks c := by
      intro c hc
      exact ⟨hhas c hc, by simpa using List.find?_eq_none.1 hfirst.symm c hc⟩
    refine Ends.bind (Growth.returns_root hsize hsource).lift fun t ht => ?_
    have hroot : Pruned m.toGrid search.marks
        (fun c => c = source ∨ ∃ d ∈ destinations.elems, d.chip = c) t.nodes :=
      (ht.2 _).mono fun _ => .inl
    refine Ends.bind (Growth.returns_reachAll ht.1 hmarked hseen hroot
      fun c hc => .inr ((hsink c).1 hc)).lift ?_
    rintro grown ⟨hgrown, hpruned, hholds⟩
    refine Ends.bind (Growth.returns_deliverAll hgrown hpruned
      fun d hd => hholds _ ((hsink _).2 ⟨d, hd, rfl⟩)).lift ?_
    rintro done ⟨hdone, hpruned', hholds'⟩
    have hshortest := hdone.shortest hholds' hmarked hlevels hpruned' net
    exact .pure ⟨⟨rfl, hdone.serves hholds' net, hshortest⟩,
      search, rank, rfl, hmarked, hpruned'.tidy⟩

/-- Routing one net ends in a tree of shortest ways, or in the error that a destination is out of
reach. -/
theorem ends_routeNet (hsize : m.size < 2 ^ 32) (hsource : m.Has source)
    {destinations : InsertionSet Destination} (hds : ∀ d ∈ destinations.elems, m.Has d.chip) (net : Nat) :
    Ends (m.routeNet net source destinations) (m.OutOfReach net source destinations.elems) fun t =>
      t.net = net ∧ t.Serves m source destinations.elems ∧ t.Shortest m source destinations.elems :=
  (ends_routeNet_marked hsize hsource hds net).mono fun _ => And.left

/-- On a machine whose chips a word can count, routing one net fails if and only if some destination
is out of reach, and then names the first one that is. Otherwise the tree is one of shortest ways to
the destinations. -/
theorem routeNet_shortest (hsize : m.size < 2 ^ 32) (hsource : m.Has source)
    {destinations : InsertionSet Destination} (hds : ∀ d ∈ destinations.elems, m.Has d.chip) (net : Nat) :
    ((∃ f, m.routeNet net source destinations = .error f) ↔
      ∃ d ∈ destinations.elems, ¬m.Reaches source d.chip) ∧
    (∀ f, m.routeNet net source destinations = .error f →
      ∃ before d after, destinations.elems = before ++ d :: after ∧
        (∀ d' ∈ before, m.Reaches source d'.chip) ∧ ¬m.Reaches source d.chip ∧
        f = .error (.unroutable net source d.chip)) ∧
    ∀ t, m.routeNet net source destinations = .ok t →
      t.net = net ∧ t.Shortest m source destinations.elems := by
  have hends := ends_routeNet hsize hsource hds net
  have herror : ∀ f, m.routeNet net source destinations = .error f →
      m.OutOfReach net source destinations.elems f := fun f hf => hends.of_eq_error hf
  refine ⟨⟨fun ⟨f, hf⟩ => ?_, fun ⟨d, hd, hout⟩ => ?_⟩, herror,
    fun t ht => ⟨(hends.of_eq_ok ht).1, (hends.of_eq_ok ht).2.2⟩⟩
  · obtain ⟨before, d, after, heq, _, hout, _⟩ := herror f hf
    exact ⟨d, heq ▸ List.mem_append_cons_self, hout⟩
  · cases ht : m.routeNet net source destinations with
    | error f => exact ⟨f, rfl⟩
    | ok t =>
      have hshortest := (hends.of_eq_ok ht).2.2
      obtain ⟨n, hn, hchip⟩ := hshortest.reaches d hd
      exact absurd (hchip ▸ hshortest.reached hn) hout

end Machine

/-- Two rows of three chips. The one in the middle of the lower row is dead, and from the first chip
no packet goes north-east, though one from there can come in. -/
def detour : Machine where
  toBlueprint := { Blueprint.uniform ⟨3, 2, .mesh⟩ with
    deadChips := .ofList [⟨1, 0⟩]
    deadLinks := .ofList [(⟨0, 0⟩, .northEast)] }
  valid := Blueprint.fault?_eq_none_iff.1 (by decide +kernel)

def stops : InsertionSet Destination :=
  .ofList [.cores ⟨1, 1⟩, .device ⟨2, 0⟩ .east, .cores ⟨2, 0⟩]

def detourTree : RoutingTree where
  net := 7
  nodes := #[⟨⟨0, 0⟩, none, [(.north, 1)], false, []⟩, ⟨⟨0, 1⟩, some .south, [(.east, 2)], false, []⟩,
    ⟨⟨1, 1⟩, some .west, [(.east, 3)], true, []⟩, ⟨⟨2, 1⟩, some .west, [(.south, 4)], false, []⟩,
    ⟨⟨2, 0⟩, some .north, [], true, [.east]⟩]

theorem Machine.routeNet_shortest_detour :
    detour.size < 2 ^ 32 ∧ detour.Has ⟨0, 0⟩ ∧ (∀ d ∈ stops.elems, detour.Has d.chip) ∧
    detour.routeNet 7 ⟨0, 0⟩ stops = .ok detourTree ∧
    IsLeast {k | detour.Walk ⟨0, 0⟩ k ⟨2, 0⟩} 4 := by
  have hsize : detour.size < 2 ^ 32 := by decide
  have hsource : detour.Has ⟨0, 0⟩ := by decide
  have hstops : ∀ d ∈ stops.elems, detour.Has d.chip := by decide
  have hroute : detour.routeNet 7 ⟨0, 0⟩ stops = .ok detourTree := by cbv
  obtain ⟨_, hshortest⟩ := (routeNet_shortest hsize hsource hstops 7).2.2 _ hroute
  obtain ⟨depths, hdepths, _, hget⟩ := hshortest.depths
  obtain ⟨d, hd, hleast⟩ := hget 4 ⟨⟨2, 0⟩, some .north, [], true, [.east]⟩ rfl
  have hfour : detourTree.depths = .ok #[0, 1, 2, 3, 4] := by cbv
  rw [hdepths] at hfour
  cases hfour
  cases hd
  exact ⟨hsize, hsource, hstops, hroute, hleast⟩

/-- There is no mark for any chip of a machine with one chip more than a word can count, so that not
even a net from a chip to itself is routed. -/
theorem Machine.routeNet_fails_on_uncounted :
    uncounted.Has ⟨0, 0⟩ ∧ uncounted.Reaches ⟨0, 0⟩ ⟨0, 0⟩ ∧
    uncounted.routeNet 0 ⟨0, 0⟩ (.ofList [.cores ⟨0, 0⟩]) = .error (.defect .indexOutOfRange) :=
  ⟨by decide, ⟨0, .start⟩, by cbv⟩

end HexFabric
