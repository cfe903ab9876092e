import HexFabric.Proofs.Route.Tree
import Mathlib

/-! Routing one net to more destinations. Searches from one source for different chips differ only in
when they stop, so what one of them has marked the other marks the same or not at all. A tree is
grown from the ends of its ways back over the marked hops: where a longer search has more
destinations, its tree takes in the other one as it is, `Machine.routeNet_mono`. All that needs a cell
of its own for every destination: `Machine.routeNet_order_outside`,
`Machine.routeNet_loses_overlapping`. -/

namespace HexFabric

/-! ### Searches for different chips -/

/-- What is known of a chip in `marks` is known of it in `marks'`. -/
def Keeps (marks marks' : Array Mark) : Prop :=
  ∀ (i : Nat) (k : Mark), marks[i]? = some k → k ≠ .unseen → marks'[i]? = some k

namespace Keeps

variable {marks marks' marks'' : Array Mark}

theorem refl (marks : Array Mark) : Keeps marks marks := fun _ _ hk _ => hk

theorem trans (h : Keeps marks marks') (h' : Keeps marks' marks'') : Keeps marks marks'' :=
  fun i k hk hne => h' i k (h i k hk hne) hne

theorem setIfInBounds {i : Nat} (k : Mark) (hunseen : marks[i]? = some .unseen) :
    Keeps marks (marks.setIfInBounds i k) := by
  intro j k' hk' hne
  have hij : i ≠ j := by
    rintro rfl
    rw [hunseen, Option.some.injEq] at hk'
    exact hne hk'.symm
  rw [Array.getElem?_setIfInBounds_ne hij, hk']

theorem markAt_eq (h : Keeps marks marks') {g : Grid} {c : Chip}
    (hseen : markAt g marks c ≠ .unseen) : markAt g marks' c = markAt g marks c := by
  unfold markAt at hseen ⊢
  cases hk : marks[g.cell c]? with
  | none => simp [hk] at hseen
  | some k =>
    rw [hk, Option.getD_some] at hseen
    rw [h _ k hk hseen]

end Keeps

namespace Search

variable {m : Machine} {source chip : Chip} {sinks sinks' : List Chip} {s s' t t' : Search}
  {l : Link} {fuel : Nat}

theorem follow_eq_ok (h : follow m sinks chip s l = .ok s') :
    (s' = s ∧ ∀ next, m.hop chip l = some next → s.marks[m.cell next]? ≠ some .unseen) ∨
    ∃ next, m.hop chip l = some next ∧ s.marks[m.cell next]? = some .unseen ∧
      s' = s.noted m sinks chip l next := by
  unfold follow at h
  cases hhop : m.hop chip l with
  | none =>
    rw [hhop] at h
    exact .inl ⟨(pure_eq_ok.1 h).symm, fun _ hnext => by cases hnext⟩
  | some next =>
    simp only [hhop, bind_eq_ok, fetch_eq_ok] at h
    obtain ⟨k, hk, h⟩ := h
    have hsame : k ≠ .unseen → ∀ next', some next = some next' →
        s.marks[m.cell next']? ≠ some .unseen := by
      rintro hne _ ⟨rfl⟩ hunseen
      rw [hk, Option.some.injEq] at hunseen
      exact hne hunseen
    cases k with
    | source => exact .inl ⟨(pure_eq_ok.1 h).symm, hsame (by simp)⟩
    | via o l' => exact .inl ⟨(pure_eq_ok.1 h).symm, hsame (by simp)⟩
    | unseen =>
      have hlt : m.cell next < s.marks.size := (Array.getElem?_eq_some_iff.1 hk).1
      simp only [store_of_lt hlt] at h
      exact .inr ⟨next, rfl, hk, (pure_eq_ok.1 h).symm⟩

theorem keeps_follow (h : follow m sinks chip s l = .ok s') : Keeps s.marks s'.marks := by
  rcases follow_eq_ok h with ⟨rfl, _⟩ | ⟨next, _, hunseen, rfl⟩
  · exact .refl _
  · exact .setIfInBounds _ hunseen

/-- The same is known, and the same chips are next. -/
structure Abreast (s t : Search) : Prop where
  marks : s.marks = t.marks
  queue : s.queue = t.queue

theorem Abreast.follow (h : Abreast s t) (hs : follow m sinks chip s l = .ok s')
    (ht : Search.follow m sinks' chip t l = .ok t') : Abreast s' t' := by
  rcases follow_eq_ok hs with ⟨rfl, hstay⟩ | ⟨next, hhop, hunseen, rfl⟩
  · rcases follow_eq_ok ht with ⟨rfl, _⟩ | ⟨next, hhop, hunseen, rfl⟩
    · exact h
    · exact absurd (h.marks ▸ hunseen) (hstay next hhop)
  · rcases follow_eq_ok ht with ⟨rfl, hstay⟩ | ⟨next', hhop', _, rfl⟩
    · exact absurd (h.marks ▸ hunseen) (hstay next hhop)
    · rw [hhop, Option.some.injEq] at hhop'
      subst hhop'
      exact ⟨by rw [noted, noted, h.marks], by rw [noted, noted, h.queue]⟩

theorem run_succ_eq_ok (h : run m sinks (fuel + 1) s = .ok s') :
    (s' = s ∧ (s.pending = 0 ∨ s.queue = [])) ∨
    ∃ chip queue next, s.queue = chip :: queue ∧
      Link.all.foldlM (follow m sinks chip) ⟨s.marks, queue, s.pending⟩ = .ok next ∧
      run m sinks fuel next = .ok s' := by
  obtain ⟨marks, queue, pending⟩ := s
  unfold run at h
  split at h
  · exact .inl ⟨(pure_eq_ok.1 h).symm, .inl ‹_›⟩
  · cases queue with
    | nil => exact .inl ⟨(pure_eq_ok.1 h).symm, .inr rfl⟩
    | cons chip queue =>
      obtain ⟨next, hnext, hrun⟩ := bind_eq_ok.1 h
      exact .inr ⟨chip, queue, next, rfl, hnext, hrun⟩

theorem keeps_followAll {links : List Link} (h : links.foldlM (follow m sinks chip) s = .ok s') :
    Keeps s.marks s'.marks := by
  induction links generalizing s with
  | nil =>
    rw [List.foldlM_nil, pure_eq_ok] at h
    exact h ▸ .refl _
  | cons l links ih =>
    rw [List.foldlM_cons, bind_eq_ok] at h
    obtain ⟨next, hnext, hrest⟩ := h
    exact (keeps_follow hnext).trans (ih hrest)

theorem keeps_run (h : run m sinks fuel s = .ok s') : Keeps s.marks s'.marks := by
  induction fuel generalizing s with
  | zero =>
    cases h
    exact .refl _
  | succ fuel ih =>
    rcases run_succ_eq_ok h with ⟨rfl, _⟩ | ⟨_, _, next, _, hnext, hrun⟩
    · exact .refl _
    · exact (keeps_followAll hnext).trans (ih hrun)

theorem Abreast.followAll {links : List Link} (h : Abreast s t)
    (hs : links.foldlM (Search.follow m sinks chip) s = .ok s')
    (ht : links.foldlM (Search.follow m sinks' chip) t = .ok t') : Abreast s' t' := by
  induction links generalizing s t with
  | nil =>
    rw [List.foldlM_nil, pure_eq_ok] at hs ht
    exact hs ▸ ht ▸ h
  | cons l links ih =>
    rw [List.foldlM_cons, bind_eq_ok] at hs ht
    obtain ⟨s₁, hs₁, hs⟩ := hs
    obtain ⟨t₁, ht₁, ht⟩ := ht
    exact ih (h.follow hs₁ ht₁) hs ht

/-- Two searches take the same steps until one of them stops; after that the other one only marks
more chips. -/
theorem Abreast.run (h : Abreast s t) (hs : run m sinks fuel s = .ok s')
    (ht : Search.run m sinks' fuel t = .ok t') :
    Keeps s'.marks t'.marks ∨ Keeps t'.marks s'.marks := by
  induction fuel generalizing s t with
  | zero =>
    cases hs
    cases ht
    exact .inl (h.marks ▸ .refl _)
  | succ fuel ih =>
    rcases run_succ_eq_ok hs with ⟨rfl, _⟩ | ⟨chip, queue, next, hqueue, hnext, hrun⟩
    · exact .inl (h.marks ▸ keeps_run ht)
    rcases run_succ_eq_ok ht with ⟨rfl, _⟩ | ⟨chip', queue', next', hqueue', hnext', hrun'⟩
    · exact .inr (h.marks ▸ keeps_run hs)
    rw [h.queue, hqueue'] at hqueue
    cases hqueue
    have hfront : Abreast ⟨s.marks, queue, s.pending⟩ ⟨t.marks, queue, t.pending⟩ := ⟨h.marks, rfl⟩
    exact ih (hfront.followAll hnext hnext') hrun hrun'

theorem fromSource_keeps (hs : fromSource m source sinks = .ok s)
    (ht : fromSource m source sinks' = .ok t) : Keeps s.marks t.marks ∨ Keeps t.marks s.marks := by
  simp only [fromSource, start, bind_eq_ok, pure_eq_ok] at hs ht
  obtain ⟨_, ⟨marks, hmarks, rfl⟩, hs⟩ := hs
  obtain ⟨_, ⟨marks', hmarks', rfl⟩, ht⟩ := ht
  rw [hmarks] at hmarks'
  cases hmarks'
  have hstart : Abreast ⟨marks, [source], (sinks.filter (· ≠ source)).length⟩
      ⟨marks, [source], (sinks'.filter (· ≠ source)).length⟩ := ⟨rfl, rfl⟩
  exact hstart.run hs ht

/-- Chips that both searches have seen are marked the same. -/
theorem markAt_eq_of_seen (hs : fromSource m source sinks = .ok s)
    (ht : fromSource m source sinks' = .ok t) {c : Chip} (hc : Seen m s.marks c)
    (hc' : Seen m t.marks c) : markAt m.toGrid s.marks c = markAt m.toGrid t.marks c := by
  rcases fromSource_keeps hs ht with hkeep | hkeep
  · exact (hkeep.markAt_eq hc).symm
  · exact hkeep.markAt_eq hc'

end Search

/-! ### Ways back through a tree -/

section Trees

variable {m : Machine} {source c o : Chip} {a a' : Option Link} {marks marks' : Array Mark}
  {rank rank' : Chip → Nat} {ends ends' : Chip → Prop} {nodes nodes' : Array RouteNode} {i j : Nat}
  {l : Link}

theorem Branching.arrivedOn_source (h : Branching m source nodes) (hi : NodeAt nodes i source a) :
    a = none := by
  obtain rfl := h.distinct i 0 source a none hi h.root
  obtain ⟨n, hn, _, rfl⟩ := hi
  obtain ⟨n', hn', _, harrived⟩ := h.root
  rw [hn', Option.some.injEq] at hn
  exact hn ▸ harrived

/-- The node of a chip that is marked with a hop is the child at the end of this hop. -/
theorem Pruned.child_of_via (h : Pruned m.toGrid marks ends nodes) (hnodes : Branching m source nodes)
    (hmarked : Marked m source rank marks) (hj : NodeAt nodes j c a)
    (hmark : markAt m.toGrid marks c = .via o l) :
    a = some l.opposite ∧ ∃ i b, NodeAt nodes i o b ∧ IsChild nodes i l j := by
  have hpos : 0 < j := by
    refine Nat.pos_of_ne_zero ?_
    rintro rfl
    rw [hj.chip_eq hnodes.root, hmarked.markAt_source] at hmark
    cases hmark
  obtain ⟨i, l', hij⟩ := hnodes.parent j hj.lt_size hpos
  obtain ⟨o', b, next, _, hi, hj', hmark'⟩ := h.marked i l' j hij
  rw [← hj.chip_eq hj', hmark] at hmark'
  cases hmark'
  obtain ⟨_, _, _, _, ⟨n, hn, _, harrived⟩, _⟩ := hnodes.hop i l j hij
  obtain ⟨n', hn', _, rfl⟩ := hj
  rw [hn, Option.some.injEq] at hn'
  exact ⟨hn' ▸ harrived, i, b, hi, hij⟩

/-- Two trees grown from `source` over marked hops, where chips of both are marked the same. -/
structure Akin (m : Machine) (source : Chip) (marks marks' : Array Mark) (ends ends' : Chip → Prop)
    (nodes nodes' : Array RouteNode) : Prop where
  branching : Branching m source nodes
  branching' : Branching m source nodes'
  marked : ∃ rank, Marked m source rank marks
  marked' : ∃ rank, Marked m source rank marks'
  pruned : Pruned m.toGrid marks ends nodes
  pruned' : Pruned m.toGrid marks' ends' nodes'
  agree : ∀ c, Seen m marks c → Seen m marks' c →
    markAt m.toGrid marks c = markAt m.toGrid marks' c

namespace Akin

variable (h : Akin m source marks marks' ends ends' nodes nodes')
include h

theorem markAt_eq (hi : NodeAt nodes i c a) (hj : NodeAt nodes' j c a') :
    markAt m.toGrid marks c = markAt m.toGrid marks' c := by
  obtain ⟨rank, hmarked⟩ := h.marked
  obtain ⟨rank', hmarked'⟩ := h.marked'
  exact h.agree c (h.pruned.seen h.branching hmarked hi) (h.pruned'.seen h.branching' hmarked' hj)

/-- Where a child has a node in the other tree, so has its parent, with this child. -/
theorem exists_parent {next : Chip} {b : Option Link} {j' : Nat} (hi : NodeAt nodes i c a)
    (hj : NodeAt nodes j next b) (hij : IsChild nodes i l j) (hj' : NodeAt nodes' j' next a') :
    ∃ i' b', NodeAt nodes' i' c b' ∧ IsChild nodes' i' l j' := by
  obtain ⟨rank', hmarked'⟩ := h.marked'
  obtain ⟨c', _, next', _, hi', hnext', hmark⟩ := h.pruned.marked i l j hij
  rw [← hi.chip_eq hi', ← hj.chip_eq hnext', h.markAt_eq hj hj'] at hmark
  exact (h.pruned'.child_of_via h.branching' hmarked' hj' hmark).2

/-- The other tree has nodes on all chips if it has them where ways end. -/
theorem exists_nodeAt (hends : ∀ c, ends c → ∃ i a, NodeAt nodes' i c a)
    (hi : NodeAt nodes i c a) : ∃ i' a', NodeAt nodes' i' c a' := by
  -- children have higher numbers, so this is an induction from the last node down
  induction hn : nodes.size - i using Nat.strong_induction_on generalizing i c a with
  | h n ih =>
    rcases h.pruned.goes_on i c a hi with ⟨l, j, hij⟩ | hend
    · obtain ⟨_, _, next, _, hj, _⟩ := h.branching.hop i l j hij
      have hlt := h.branching.lt i l j hij
      have hsize := h.branching.child_lt_size hij
      obtain ⟨j', a', hj'⟩ := ih (nodes.size - j) (by omega) hj rfl
      obtain ⟨i', b', hi', _⟩ := h.exists_parent hi hj hij hj'
      exact ⟨i', b', hi'⟩
    · exact hends c hend

/-- Packets come to a chip of both trees on the same link. -/
theorem arrivedOn_eq (hi : NodeAt nodes i c a) (hj : NodeAt nodes' j c a') : a = a' := by
  obtain ⟨rank, hmarked⟩ := h.marked
  obtain ⟨rank', hmarked'⟩ := h.marked'
  have heq := h.markAt_eq hi hj
  cases hmark : markAt m.toGrid marks c with
  | unseen => exact absurd hmark (h.pruned.seen h.branching hmarked hi)
  | source =>
    obtain rfl := hmarked.eq_source c (h.branching.has i c a hi) hmark
    rw [h.branching.arrivedOn_source hi, h.branching'.arrivedOn_source hj]
  | via o l =>
    rw [(h.pruned.child_of_via h.branching hmarked hi hmark).1,
      (h.pruned'.child_of_via h.branching' hmarked' hj (heq ▸ hmark)).1]

end Akin

end Trees

/-! ### Trees with more destinations -/

namespace RoutingTree

variable {m : Machine} {source : Chip} {t t' : RoutingTree} {ds ds' : List Destination}

/-- The links on which packets go on from a node, each with the chip that it leads to. -/
def onward (t : RoutingTree) (n : RouteNode) : List (Link × Option Chip) :=
  n.children.map fun e => (e.1, (t.nodes[e.2]?).map (·.chip))

/-- `t'` has all the chips of `t`. Packets come to them as in `t`, and go on and are delivered
wherever they do in `t`. -/
structure Within (t t' : RoutingTree) : Prop where
  covers : ∀ n ∈ t.nodes, ∃ n' ∈ t'.nodes, n'.chip = n.chip
  arrivedOn : ∀ n ∈ t.nodes, ∀ n' ∈ t'.nodes, n'.chip = n.chip → n'.arrivedOn = n.arrivedOn
  onward : ∀ n ∈ t.nodes, ∀ n' ∈ t'.nodes, n'.chip = n.chip → t.onward n ⊆ t'.onward n'
  isLocal : ∀ n ∈ t.nodes, ∀ n' ∈ t'.nodes, n'.chip = n.chip →
    n.isLocal = true → n'.isLocal = true
  exits : ∀ n ∈ t.nodes, ∀ n' ∈ t'.nodes, n'.chip = n.chip → n.exits ⊆ n'.exits

/-- The trees have the same chips, and what they say of each of them is the same. -/
structure Agrees (t t' : RoutingTree) : Prop where
  chips : ∀ c, (∃ n ∈ t.nodes, n.chip = c) ↔ ∃ n' ∈ t'.nodes, n'.chip = c
  arrivedOn : ∀ n ∈ t.nodes, ∀ n' ∈ t'.nodes, n'.chip = n.chip → n'.arrivedOn = n.arrivedOn
  onward : ∀ n ∈ t.nodes, ∀ n' ∈ t'.nodes, n'.chip = n.chip → t'.onward n' = t.onward n
  isLocal : ∀ n ∈ t.nodes, ∀ n' ∈ t'.nodes, n'.chip = n.chip → n'.isLocal = n.isLocal
  exits : ∀ n ∈ t.nodes, ∀ n' ∈ t'.nodes, n'.chip = n.chip → n'.exits = n.exits

theorem within_of_akin {marks marks' : Array Mark} {ends ends' : Chip → Prop}
    (h : Akin m source marks marks' ends ends' t.nodes t'.nodes)
    (hends : ∀ c, ends c → ∃ i a, NodeAt t'.nodes i c a) (hds : Delivers t.nodes ds)
    (hds' : Delivers t'.nodes ds') (hsub : ds ⊆ ds') : t.Within t' := by
  have hcovers : ∀ {i c a}, NodeAt t.nodes i c a → ∃ i' a', NodeAt t'.nodes i' c a' :=
    h.exists_nodeAt hends
  refine ⟨fun n hn => ?_, fun n hn n' hn' hchip => ?_, fun n hn n' hn' hchip e he => ?_,
    fun n hn n' hn' hchip hlocal => ?_, fun n hn n' hn' hchip l hl => ?_⟩
  · obtain ⟨i, hi⟩ := Array.mem_iff_getElem?.1 hn
    obtain ⟨i', a', n', hn', hchip, _⟩ := hcovers (nodeAt_of_getElem? hi)
    exact ⟨n', Array.mem_of_getElem? hn', hchip⟩
  · obtain ⟨i, hi⟩ := Array.mem_iff_getElem?.1 hn
    obtain ⟨i', hi'⟩ := Array.mem_iff_getElem?.1 hn'
    exact (h.arrivedOn_eq (nodeAt_of_getElem? hi) ⟨n', hi', hchip, rfl⟩).symm
  · obtain ⟨i, hi⟩ := Array.mem_iff_getElem?.1 hn
    obtain ⟨i', hi'⟩ := Array.mem_iff_getElem?.1 hn'
    obtain ⟨⟨l, j⟩, hmem, rfl⟩ := List.mem_map.1 he
    have hij : IsChild t.nodes i l j := (isChild_iff hi).2 hmem
    obtain ⟨_, _, next, _, hj, _⟩ := h.branching.hop i l j hij
    obtain ⟨j', a', hj'⟩ := hcovers hj
    obtain ⟨k, b, hk, hkj⟩ := h.exists_parent (nodeAt_of_getElem? hi) hj hij hj'
    obtain rfl := h.branching'.distinct k i' n.chip b n'.arrivedOn hk ⟨n', hi', hchip, rfl⟩
    obtain ⟨child, hchild, rfl, _⟩ := hj
    obtain ⟨child', hchild', heq, _⟩ := hj'
    refine List.mem_map.2 ⟨(l, j'), (isChild_iff hi').1 hkj, ?_⟩
    rw [hchild, hchild', Option.map_some, Option.map_some, heq]
  · rw [(hds' n' hn').1, hchip]
    exact hsub ((hds n hn).1.1 hlocal)
  · rw [(hds' n' hn').2, hchip]
    exact hsub (((hds n hn).2 l).1 hl)

theorem Shortest.pairwise_onward (h : t.Shortest m source ds) {n : RouteNode} (hn : n ∈ t.nodes) :
    (t.onward n).Pairwise fun e e' => e.1 < e'.1 := by
  rw [RoutingTree.onward, List.pairwise_map]
  exact List.pairwise_map.1 (h.links n hn)

/-- Of two trees within each other, each says the same as the other one. -/
theorem Within.agrees (h : t.Within t') (h' : t'.Within t) (ht : t.Shortest m source ds)
    (ht' : t'.Shortest m source ds') : t.Agrees t' := by
  refine ⟨fun c => ⟨?_, ?_⟩, h.arrivedOn, fun n hn n' hn' hchip => ?_, fun n hn n' hn' hchip => ?_,
    fun n hn n' hn' hchip => ?_⟩
  · rintro ⟨n, hn, rfl⟩
    exact h.covers n hn
  · rintro ⟨n', hn', rfl⟩
    exact h'.covers n' hn'
  · exact Ascending.eq_of_subset (ht'.pairwise_onward hn') (ht.pairwise_onward hn)
      (h'.onward n' hn' n hn hchip.symm) (h.onward n hn n' hn' hchip)
  · rw [Bool.eq_iff_iff]
    exact ⟨h'.isLocal n' hn' n hn hchip.symm, h.isLocal n hn n' hn' hchip⟩
  · exact Ascending.eq_of_subset (ht'.exits n' hn').1 (ht.exits n hn).1
      (h'.exits n' hn' n hn hchip.symm) (h.exits n hn n' hn' hchip)

end RoutingTree

namespace Machine

variable {m : Machine} {source : Chip} {few many : InsertionSet Destination} {net net' : Nat}
  {t t' : RoutingTree}

theorem within_routeNet (hsize : m.size < 2 ^ 32) (hsource : m.Has source)
    (hmany : ∀ d ∈ many.elems, m.Has d.chip) (hsub : few.elems ⊆ many.elems)
    (ht : m.routeNet net source few = .ok t) (ht' : m.routeNet net' source many = .ok t') :
    t.Within t' := by
  have hfew : ∀ d ∈ few.elems, m.Has d.chip := fun d hd => hmany d (hsub hd)
  obtain ⟨⟨_, hserves, _⟩, search, rank, hrun, hmarked, hpruned⟩ :=
    (ends_routeNet_marked hsize hsource hfew net).of_eq_ok ht
  obtain ⟨⟨_, hserves', _⟩, search', rank', hrun', hmarked', hpruned'⟩ :=
    (ends_routeNet_marked hsize hsource hmany net').of_eq_ok ht'
  have hakin : Akin m source search.marks search'.marks _ _ t.nodes t'.nodes :=
    ⟨hserves.toBranching, hserves'.toBranching, ⟨rank, hmarked⟩, ⟨rank', hmarked'⟩, hpruned,
      hpruned', fun c hc hc' => Search.markAt_eq_of_seen hrun hrun' hc hc'⟩
  refine RoutingTree.within_of_akin hakin ?_ hserves.delivers hserves'.delivers hsub
  rintro c (rfl | ⟨d, hd, rfl⟩)
  · exact ⟨0, none, hserves'.root⟩
  · obtain ⟨n, hn, hchip⟩ := hserves'.reaches d (hsub hd)
    obtain ⟨i, hi⟩ := Array.mem_iff_getElem?.1 hn
    exact ⟨i, n.arrivedOn, n, hi, hchip, rfl⟩

/-- On a machine whose chips a word can count, a net that can be routed to many destinations can be
routed to a few of them, and its tree to the many takes in its tree to the few. Its trees to the same
destinations in two orders say the same of every chip. -/
theorem routeNet_mono (hsize : m.size < 2 ^ 32) (hsource : m.Has source)
    (hmany : ∀ d ∈ many.elems, m.Has d.chip) (hsub : few.elems ⊆ many.elems)
    (ht' : m.routeNet net' source many = .ok t') (net : Nat) :
    ∃ t, m.routeNet net source few = .ok t ∧ t.Within t' ∧
      (many.elems ⊆ few.elems → t.Agrees t') := by
  have hfew : ∀ d ∈ few.elems, m.Has d.chip := fun d hd => hmany d (hsub hd)
  have hshortest' := ((ends_routeNet hsize hsource hmany net').of_eq_ok ht').2.2
  cases ht : m.routeNet net source few with
  | error f =>
    obtain ⟨before, d, after, heq, _, hout, _⟩ := (ends_routeNet hsize hsource hfew net).of_eq_error ht
    obtain ⟨n, hn, hchip⟩ := hshortest'.reaches d (hsub (heq ▸ List.mem_append_cons_self))
    exact absurd (hchip ▸ hshortest'.reached hn) hout
  | ok t =>
    have hwithin := within_routeNet hsize hsource hmany hsub ht ht'
    refine ⟨t, rfl, hwithin, fun hback => ?_⟩
    have hshortest := ((ends_routeNet hsize hsource hfew net).of_eq_ok ht).2.2
    exact hwithin.agrees (within_routeNet hsize hsource hfew hback ht' ht) hshortest hshortest'

end Machine

/-- The last stop alone, and the stops from the last to the first. -/
def lastStop : InsertionSet Destination := .ofList [.cores ⟨2, 0⟩]

def stopsBackwards : InsertionSet Destination :=
  .ofList [.cores ⟨2, 0⟩, .device ⟨2, 0⟩ .east, .cores ⟨1, 1⟩]

theorem Machine.routeNet_mono_detour :
    (detour.size < 2 ^ 32 ∧ detour.Has ⟨0, 0⟩ ∧ (∀ d ∈ stops.elems, detour.Has d.chip) ∧
      lastStop.elems ⊆ stops.elems ∧ detour.routeNet 7 ⟨0, 0⟩ stops = .ok detourTree ∧
      ∃ t, detour.routeNet 8 ⟨0, 0⟩ lastStop = .ok t ∧ t.Within detourTree) ∧
    stopsBackwards.elems ⊆ stops.elems ∧
      ∃ t, detour.routeNet 7 ⟨0, 0⟩ stopsBackwards = .ok t ∧ t.Agrees detourTree := by
  have hsize : detour.size < 2 ^ 32 := by decide
  have hsource : detour.Has ⟨0, 0⟩ := by decide
  have hstops : ∀ d ∈ stops.elems, detour.Has d.chip := by decide
  have hlast : lastStop.elems ⊆ stops.elems := by decide
  have hback : stopsBackwards.elems ⊆ stops.elems := by decide
  have hroute : detour.routeNet 7 ⟨0, 0⟩ stops = .ok detourTree := by cbv
  obtain ⟨t, ht, hwithin, _⟩ := routeNet_mono hsize hsource hstops hlast hroute 8
  obtain ⟨t', ht', _, hagrees⟩ := routeNet_mono hsize hsource hstops hback hroute 7
  exact ⟨⟨hsize, hsource, hstops, hlast, hroute, t, ht, hwithin⟩, hback, t', ht', hagrees (by decide)⟩

/-- Two rows of two chips. -/
def square : Machine where
  toBlueprint := Blueprint.uniform ⟨2, 2, .mesh⟩
  valid := Blueprint.fault?_eq_none_iff.1 (by decide +kernel)

/-- A chip outside of the grid shares its cell with one inside. Of the two, the destination that
comes first gives the node its chip. -/
theorem Machine.routeNet_order_outside :
    let inside : Destination := .cores ⟨1, 0⟩
    let outside : Destination := .cores ⟨0, 2⟩
    square.Has ⟨0, 0⟩ ∧ ¬square.Has outside.chip ∧
    (InsertionSet.ofList [inside, outside]).sameElems (.ofList [outside, inside]) = true ∧
    ∃ t t', square.routeNet 0 ⟨0, 0⟩ (.ofList [inside, outside]) = .ok t ∧
      square.routeNet 0 ⟨0, 0⟩ (.ofList [outside, inside]) = .ok t' ∧ ¬t.Within t' := by
  refine ⟨by decide, by decide, by decide,
    ⟨0, #[⟨⟨0, 0⟩, none, [(.east, 1)], false, []⟩, ⟨⟨1, 0⟩, some .west, [], true, []⟩]⟩,
    ⟨0, #[⟨⟨0, 0⟩, none, [(.east, 1)], false, []⟩, ⟨⟨0, 2⟩, some .west, [], true, []⟩]⟩,
    by cbv, by cbv, fun h => ?_⟩
  obtain ⟨n', hn', hchip⟩ := h.covers ⟨⟨1, 0⟩, some .west, [], true, []⟩ (by simp)
  rcases List.mem_pair.1 (Array.mem_toList_iff.2 hn') with rfl | rfl <;> cases hchip

/-- A machine of which nothing leads away from the first two chips, of whose cells other chips have a
share. -/
def nook : Machine where
  toBlueprint := { Machine.overlapping.toBlueprint with
    deadLinks := .ofList [(⟨0, 0⟩, .east), (⟨0, 0⟩, .northEast), (⟨0, 1⟩, .east),
      (⟨0, 1⟩, .northEast), (⟨0, 1⟩, .north)] }
  valid := Blueprint.fault?_eq_none_iff.1 (by decide +kernel)

/-- With more chips than a word can count, chips of the grid share cells as well. The tree to two of
them has no node for the second one, and the first one is not where its way leads. -/
theorem Machine.routeNet_loses_overlapping :
    let near : Destination := .cores ⟨0, 0⟩
    let far : Destination := .cores ⟨1, 2147483647⟩
    nook.Has ⟨0, 1⟩ ∧ nook.Has near.chip ∧ nook.Has far.chip ∧
    ∃ t t', nook.routeNet 0 ⟨0, 1⟩ (.ofList [near]) = .ok t ∧
      nook.routeNet 0 ⟨0, 1⟩ (.ofList [far, near]) = .ok t' ∧ ¬t.Within t' := by
  refine ⟨by decide, by decide, by decide,
    ⟨0, #[⟨⟨0, 1⟩, none, [(.south, 1)], false, []⟩, ⟨⟨0, 0⟩, some .north, [], true, []⟩]⟩,
    ⟨0, #[⟨⟨0, 1⟩, none, [(.south, 1)], false, []⟩,
      ⟨⟨1, 2147483647⟩, some .north, [], true, []⟩]⟩, by cbv, by cbv, fun h => ?_⟩
  obtain ⟨n', hn', hchip⟩ := h.covers ⟨⟨0, 0⟩, some .north, [], true, []⟩ (by simp)
  rcases List.mem_pair.1 (Array.mem_toList_iff.2 hn') with rfl | rfl <;> cases hchip

end HexFabric
