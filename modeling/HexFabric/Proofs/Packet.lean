import HexFabric.Proofs.Route.Net
import HexFabric.Proofs.Table.Unshared
import Mathlib.Data.List.Nodup
import Mathlib.Data.List.Perm.Subperm
import Mathlib.Logic.Relation

/-! The journey of a packet through a machine, from chip to chip by the routing tables. Where every
chip of a tree sends a packet on as the tree says, the packet makes its way down the tree: it comes
to each chip of the tree once, is delivered there if the tree says so, and leaves the machine at the
exits: `Branching.exactly_journey`. So a packet goes to the destinations of its net, and nowhere
else: `RoutingTree.Serves.journey`. -/

namespace HexFabric

/-- What may happen to a packet. -/
inductive Event where
  /-- It comes to a chip. -/
  | visit (chip : Chip)
  /-- It is handed to the cores of a chip. -/
  | deliver (chip : Chip)
  /-- It leaves a chip over a link that leads to no live chip. -/
  | emit (chip : Chip) (link : Link)
  /-- It comes to a chip with no hops left. -/
  | expire (chip : Chip)
  deriving DecidableEq

/-- Where it happens. -/
def Event.chip : Event → Chip
  | visit c => c
  | deliver c => c
  | emit c _ => c
  | expire c => c

/-- What happens to a packet with key `w` that comes to a chip, there and from there on, if it may
come to at most so many chips one after the other. -/
def journey (m : Machine) (tables : RoutingTables) (w : BitVec 32) :
    Nat → Chip → Option Link → List Event
  | 0, c, _ => [.expire c]
  | hops + 1, c, arrivedOn =>
    let r := tables.forward c arrivedOn w
    .visit c :: ((if r.isLocal then [.deliver c] else []) ++ r.links.flatMap fun l =>
      match m.hop c l with
      | none => [.emit c l]
      | some next => journey m tables w hops next (some l.opposite))

/-- What happens to a packet at a node of its tree. -/
def RouteNode.Happens (n : RouteNode) : Event → Prop
  | .visit c => c = n.chip
  | .deliver c => c = n.chip ∧ n.isLocal
  | .emit c l => c = n.chip ∧ l ∈ n.exits
  | .expire _ => False

theorem RouteNode.Happens.chip_eq {n : RouteNode} {e : Event} (h : n.Happens e) :
    e.chip = n.chip := by
  cases e with
  | visit c => exact h
  | deliver c => exact h.1
  | emit c l => exact h.1
  | expire c => exact h.elim

theorem RouteNode.happens_iff {n : RouteNode} {e : Event} :
    n.Happens e ↔ e = .visit n.chip ∨ n.isLocal ∧ e = .deliver n.chip ∨
      ∃ l ∈ n.exits, e = .emit n.chip l := by
  cases e with
  | visit c => simp [Happens]
  | deliver c => simp [Happens, and_comm]
  | emit c l => simp [Happens, and_comm]
  | expire c => simp [Happens]

/-! ### Subtrees -/

/-- Node `j` is in the subtree of node `i`. -/
def Below (nodes : Array RouteNode) : Nat → Nat → Prop :=
  Relation.ReflTransGen fun i j => ∃ l, IsChild nodes i l j

/-- What happens to a packet in the subtree of node `i`. -/
def Due (nodes : Array RouteNode) (i : Nat) (e : Event) : Prop :=
  ∃ j n, Below nodes i j ∧ nodes[j]? = some n ∧ n.Happens e

namespace Branching

variable {m : Machine} {source : Chip} {nodes : Array RouteNode} {i j j' k : Nat} {l l' : Link}
  {n : RouteNode} {e : Event}

theorem le_of_below (h : Branching m source nodes) (hij : Below nodes i j) : i ≤ j := by
  induction hij with
  | refl => exact Nat.le_refl i
  | tail _ hchild ih =>
    obtain ⟨l, hchild⟩ := hchild
    exact Nat.le_trans ih (Nat.le_of_lt (h.lt _ l _ hchild))

theorem below_root (h : Branching m source nodes) (hj : j < nodes.size) : Below nodes 0 j := by
  induction j using Nat.strongRecOn with
  | _ j ih =>
    by_cases hpos : 0 < j
    · obtain ⟨i, l, hij⟩ := h.parent j hj hpos
      have hlt := h.lt i l j hij
      exact (ih i hlt (Nat.lt_trans hlt hj)).tail ⟨l, hij⟩
    · rw [Nat.eq_zero_of_not_pos hpos]
      exact .refl

/-- Of two subtrees with a node in common, one is in the other. -/
theorem below_or_below (h : Branching m source nodes) (hik : Below nodes i k)
    (hjk : Below nodes j k) : Below nodes i j ∨ Below nodes j i := by
  have hunique : Relator.RightUnique (Function.swap fun i j => ∃ l, IsChild nodes i l j) := by
    rintro k i j ⟨l, hi⟩ ⟨l', hj⟩
    exact (h.unique i j l l' k hi hj).1
  rcases Relation.ReflTransGen.total_of_right_unique hunique
    (Relation.reflTransGen_swap.2 hik) (Relation.reflTransGen_swap.2 hjk) with hij | hji
  · exact .inr (Relation.reflTransGen_swap.1 hij)
  · exact .inl (Relation.reflTransGen_swap.1 hji)

/-- The subtrees of two children of one node have no node in common. -/
theorem eq_of_below (h : Branching m source nodes) (hj : IsChild nodes i l j)
    (hj' : IsChild nodes i l' j') (hjk : Below nodes j k) (hjk' : Below nodes j' k) : j = j' := by
  have hcase : ∀ {j j' l l'}, IsChild nodes i l j → IsChild nodes i l' j' → Below nodes j j' →
      j = j' := by
    intro j j' l l' hj hj' hjj'
    rcases Relation.ReflTransGen.cases_tail hjj' with heq | ⟨i', hji', l'', hi'⟩
    · exact heq.symm
    · -- the parent of `j'` is the parent of `j` too, and comes before it
      rw [(h.unique i' i l'' l' j' hi' hj').1] at hji'
      exact absurd (h.le_of_below hji') (Nat.not_le.2 (h.lt i l j hj))
  rcases h.below_or_below hjk hjk' with hjj' | hj'j
  · exact hcase hj hj' hjj'
  · exact (hcase hj' hj hj'j).symm

theorem due_iff (hn : nodes[i]? = some n) :
    Due nodes i e ↔ n.Happens e ∨ ∃ l j, (l, j) ∈ n.children ∧ Due nodes j e := by
  constructor
  · rintro ⟨j, k, hij, hk, he⟩
    rcases Relation.ReflTransGen.cases_head hij with rfl | ⟨j', ⟨l, n', hn', hmem⟩, hj'j⟩
    · rw [hn] at hk
      cases hk
      exact .inl he
    · rw [hn] at hn'
      cases hn'
      exact .inr ⟨l, j', hmem, j, k, hj'j, hk, he⟩
  · rintro (he | ⟨l, j, hmem, k, n', hjk, hn', he⟩)
    · exact ⟨i, n, .refl, hn, he⟩
    · exact ⟨k, n', .head ⟨l, n, hn, hmem⟩ hjk, hn', he⟩

/-- What happens below a node happens elsewhere. -/
theorem chip_ne_of_due (h : Branching m source nodes) (hn : nodes[i]? = some n)
    (hchild : (l, j) ∈ n.children) (he : Due nodes j e) : e.chip ≠ n.chip := by
  obtain ⟨k, n', hjk, hn', he⟩ := he
  intro heq
  have hki : k = i := h.distinct k i n.chip _ _ ⟨n', hn', he.chip_eq.symm.trans heq, rfl⟩
    ⟨n, hn, rfl, rfl⟩
  have hij : i < j := h.lt i l j ⟨n, hn, hchild⟩
  have := h.le_of_below hjk
  omega

theorem link_eq_of_due (h : Branching m source nodes) (hn : nodes[i]? = some n)
    (hchild : (l, j) ∈ n.children) (hchild' : (l', j') ∈ n.children) (he : Due nodes j e)
    (he' : Due nodes j' e) : l = l' := by
  obtain ⟨k, a, hjk, ha, hae⟩ := he
  obtain ⟨k', b, hjk', hb, hbe⟩ := he'
  have hkk' : k = k' := h.distinct k k' e.chip _ _ ⟨a, ha, hae.chip_eq.symm, rfl⟩
    ⟨b, hb, hbe.chip_eq.symm, rfl⟩
  have hj : IsChild nodes i l j := ⟨n, hn, hchild⟩
  have hj' : IsChild nodes i l' j' := ⟨n, hn, hchild'⟩
  rw [← hkk'] at hjk'
  rw [← h.eq_of_below hj hj' hjk hjk'] at hj'
  exact (h.unique i i l l' j hj hj').2

/-- What happens to a packet once it has left a node over a link. -/
def DueOver (nodes : Array RouteNode) (n : RouteNode) (l : Link) (e : Event) : Prop :=
  l ∈ n.exits ∧ e = .emit n.chip l ∨ ∃ j, (l, j) ∈ n.children ∧ Due nodes j e

theorem due_iff_dueOver (hn : nodes[i]? = some n) :
    Due nodes i e ↔ e = .visit n.chip ∨ (n.isLocal ∧ e = .deliver n.chip) ∨
      ∃ l ∈ n.route.links, DueOver nodes n l e := by
  have hlinks : (∃ l ∈ n.route.links, DueOver nodes n l e) ↔
      (∃ l ∈ n.exits, e = .emit n.chip l) ∨ ∃ l j, (l, j) ∈ n.children ∧ Due nodes j e := by
    constructor
    · rintro ⟨l, _, ⟨hl, he⟩ | ⟨j, hlj, he⟩⟩
      · exact .inl ⟨l, hl, he⟩
      · exact .inr ⟨l, j, hlj, he⟩
    · rintro (⟨l, hl, he⟩ | ⟨l, j, hlj, he⟩)
      · exact ⟨l, n.mem_links_route.2 (.inr hl), .inl ⟨hl, he⟩⟩
      · exact ⟨l, n.mem_links_route.2 (.inl ⟨j, hlj⟩), .inr ⟨j, hlj, he⟩⟩
  rw [due_iff hn, RouteNode.happens_iff, hlinks, or_assoc, or_assoc]

theorem ne_of_dueOver (h : Branching m source nodes) (hn : nodes[i]? = some n)
    (he : DueOver nodes n l e) : e ≠ .visit n.chip ∧ e ≠ .deliver n.chip := by
  rcases he with ⟨_, rfl⟩ | ⟨j, hlj, hdue⟩
  · exact ⟨nofun, nofun⟩
  · have hne := h.chip_ne_of_due hn hlj hdue
    exact ⟨fun heq => hne (heq ▸ rfl), fun heq => hne (heq ▸ rfl)⟩

/-- Nothing happens on two links of a node. -/
theorem link_eq_of_dueOver (h : Branching m source nodes) (hn : nodes[i]? = some n)
    (he : DueOver nodes n l e) (he' : DueOver nodes n l' e) : l = l' := by
  rcases he with ⟨_, rfl⟩ | ⟨j, hlj, hdue⟩
  · rcases he' with ⟨_, heq⟩ | ⟨j', hlj', hdue'⟩
    · cases heq
      rfl
    · exact absurd rfl (h.chip_ne_of_due hn hlj' hdue')
  · rcases he' with ⟨_, rfl⟩ | ⟨j', hlj', hdue'⟩
    · exact absurd rfl (h.chip_ne_of_due hn hlj hdue)
    · exact h.link_eq_of_due hn hlj hlj' hdue hdue'

/-- A tree has no more nodes than the machine has chips. -/
theorem size_le (h : Branching m source nodes) : nodes.size ≤ m.size := by
  have hnodup : (nodes.toList.map fun n => n.chip.x * m.height + n.chip.y).Nodup := by
    rw [List.nodup_iff_getElem?_ne_getElem?]
    intro i j hij hj heq
    rw [List.length_map, Array.length_toList] at hj
    have hi := Array.getElem?_eq_getElem (Nat.lt_trans hij hj)
    have hj := Array.getElem?_eq_getElem hj
    simp only [List.getElem?_map, Array.getElem?_toList, hi, hj, Option.map_some,
      Option.some.injEq] at heq
    have hi : NodeAt nodes i _ _ := ⟨_, hi, rfl, rfl⟩
    have hj : NodeAt nodes j _ _ := ⟨_, hj, rfl, rfl⟩
    rw [(Grid.place_inj (h.has i _ _ hi) (h.has j _ _ hj)).1 heq] at hi
    exact Nat.ne_of_lt hij (h.distinct i j _ _ _ hi hj)
  have hsub : (nodes.toList.map fun n => n.chip.x * m.height + n.chip.y) ⊆ List.range m.size := by
    intro place hplace
    obtain ⟨n, hn, rfl⟩ := List.mem_map.1 hplace
    obtain ⟨i, hi⟩ := Array.mem_iff_getElem?.1 (Array.mem_toList_iff.1 hn)
    exact List.mem_range.2 (Grid.place_lt (h.has i n.chip n.arrivedOn ⟨n, hi, rfl, rfl⟩))
  have hle := (hnodup.subperm hsub).length_le
  rwa [List.length_map, Array.length_toList, List.length_range] at hle

end Branching

/-! ### The way down -/

/-- The events are those of which `P` holds, each of them once. -/
structure Exactly (events : List Event) (P : Event → Prop) : Prop where
  nodup : events.Nodup
  mem_iff : ∀ e, e ∈ events ↔ P e

section Journey

variable (m : Machine) (tables : RoutingTables) (w : BitVec 32) (hops : Nat) (c : Chip)

/-- What happens to a packet once it has left a chip over a link. -/
def beyond (l : Link) : List Event :=
  match m.hop c l with
  | none => [.emit c l]
  | some next => journey m tables w hops next (some l.opposite)

theorem journey_succ (arrivedOn : Option Link) :
    journey m tables w (hops + 1) c arrivedOn =
      .visit c :: ((if (tables.forward c arrivedOn w).isLocal then [.deliver c] else []) ++
        (tables.forward c arrivedOn w).links.flatMap (beyond m tables w hops c)) :=
  rfl

end Journey

namespace Branching

variable {m : Machine} {source : Chip} {nodes : Array RouteNode} {i : Nat} {n : RouteNode}
  {tables : RoutingTables} {w : BitVec 32} {hops : Nat}

theorem exists_child (h : Branching m source nodes) (hn : nodes[i]? = some n) {l : Link} {j : Nat}
    (hlj : (l, j) ∈ n.children) :
    ∃ k, nodes[j]? = some k ∧ m.hop n.chip l = some k.chip ∧ k.arrivedOn = some l.opposite := by
  obtain ⟨c, a, next, ⟨n', hn', rfl, _⟩, ⟨k, hk, rfl, harrived⟩, hhop⟩ := h.hop i l j ⟨n, hn, hlj⟩
  rw [hn] at hn'
  cases hn'
  exact ⟨k, hk, hhop, harrived⟩

/-- The step of a packet from a node to what is below it. -/
theorem exactly_journey_succ (h : Branching m source nodes) (hn : nodes[i]? = some n)
    (hforward : tables.forward n.chip n.arrivedOn w = n.route)
    (hbeyond : ∀ l ∈ n.route.links, Exactly (beyond m tables w hops n.chip l) (DueOver nodes n l)) :
    Exactly (journey m tables w (hops + 1) n.chip n.arrivedOn) (Due nodes i) := by
  have hdeliver : ∀ e, e ∈ (if n.isLocal then [Event.deliver n.chip] else []) ↔
      n.isLocal ∧ e = .deliver n.chip := by
    intro e
    by_cases hlocal : n.isLocal
    · simp [hlocal]
    · simp [hlocal]
  have hover : ∀ e, e ∈ n.route.links.flatMap (beyond m tables w hops n.chip) ↔
      ∃ l ∈ n.route.links, DueOver nodes n l e := by
    intro e
    rw [List.mem_flatMap]
    exact exists_congr fun l => and_congr_right fun hl => (hbeyond l hl).mem_iff e
  rw [journey_succ, hforward, n.isLocal_route]
  constructor
  · rw [List.nodup_cons, List.nodup_append, List.nodup_flatMap]
    refine ⟨fun hvisit => ?_, ?_, ⟨fun l hl => (hbeyond l hl).nodup, ?_⟩, fun a ha b hb hab => ?_⟩
    · rcases List.mem_append.1 hvisit with hvisit | hvisit
      · cases ((hdeliver _).1 hvisit).2
      · obtain ⟨l, _, he⟩ := (hover _).1 hvisit
        exact (h.ne_of_dueOver hn he).1 rfl
    · split
      · exact List.nodup_singleton _
      · exact List.nodup_nil
    · have hnodup : n.route.links.Nodup := List.filter_sublist.nodup (by decide)
      refine List.Pairwise.imp_of_mem ?_ hnodup
      intro l l' hl hl' hne e he he'
      exact hne (h.link_eq_of_dueOver hn (((hbeyond l hl).mem_iff e).1 he)
        (((hbeyond l' hl').mem_iff e).1 he'))
    · obtain ⟨l, _, he⟩ := (hover b).1 hb
      exact (h.ne_of_dueOver hn he).2 (hab ▸ ((hdeliver a).1 ha).2)
  · intro e
    rw [due_iff_dueOver hn, List.mem_cons, List.mem_append, hdeliver, hover]

/-- A packet that comes to a node of a tree does what is due in the subtree. -/
theorem exactly_journey_node (h : Branching m source nodes)
    (hforward : ∀ n ∈ nodes, tables.forward n.chip n.arrivedOn w = n.route)
    (hexits : ∀ n ∈ nodes, ∀ l ∈ n.exits, m.hop n.chip l = none) (hn : nodes[i]? = some n)
    (hhops : nodes.size ≤ hops + i) :
    Exactly (journey m tables w hops n.chip n.arrivedOn) (Due nodes i) := by
  -- children come after their parent, so the hops that are left suffice for them
  induction hops generalizing i n with
  | zero =>
    have := (Array.getElem?_eq_some_iff.1 hn).1
    omega
  | succ hops ih =>
    have hmem : n ∈ nodes := Array.mem_of_getElem? hn
    refine h.exactly_journey_succ hn (hforward n hmem) fun l hl => ?_
    rcases n.mem_links_route.1 hl with ⟨j, hlj⟩ | hl
    · obtain ⟨k, hk, hhop, harrived⟩ := h.exists_child hn hlj
      have hlt := h.lt i l j ⟨n, hn, hlj⟩
      have hbelow : Exactly (journey m tables w hops k.chip k.arrivedOn) (Due nodes j) :=
        ih hk (by omega)
      rw [beyond, hhop, ← harrived]
      refine ⟨hbelow.nodup, fun e => (hbelow.mem_iff e).trans ⟨fun he => .inr ⟨j, hlj, he⟩, ?_⟩⟩
      rintro (⟨hexit, _⟩ | ⟨j', hlj', he⟩)
      · rw [hexits n hmem l hexit] at hhop
        cases hhop
      · obtain ⟨k', hk', hhop', _⟩ := h.exists_child hn hlj'
        rw [hhop, Option.some.injEq] at hhop'
        rwa [h.distinct j j' k.chip _ _ ⟨k, hk, rfl, rfl⟩ ⟨k', hk', hhop'.symm, rfl⟩]
    · rw [beyond, hexits n hmem l hl]
      refine ⟨List.nodup_singleton _, fun e => ?_⟩
      rw [List.mem_singleton]
      refine ⟨fun he => .inl ⟨hl, he⟩, ?_⟩
      rintro (⟨_, he⟩ | ⟨j, hlj, _⟩)
      · exact he
      · obtain ⟨_, _, hhop, _⟩ := h.exists_child hn hlj
        rw [hexits n hmem l hl] at hhop
        cases hhop

/-- A packet that starts at the root of a tree does all that is due in the tree. -/
theorem exactly_journey (h : Branching m source nodes)
    (hforward : ∀ n ∈ nodes, tables.forward n.chip n.arrivedOn w = n.route)
    (hexits : ∀ n ∈ nodes, ∀ l ∈ n.exits, m.hop n.chip l = none) (hhops : m.size ≤ hops) :
    Exactly (journey m tables w hops source none) fun e => ∃ n ∈ nodes, n.Happens e := by
  obtain ⟨n, hn, hchip, harrived⟩ := h.root
  have hroot := h.exactly_journey_node hforward hexits hn (Nat.le_trans h.size_le hhops)
  rw [hchip, harrived] at hroot
  refine ⟨hroot.nodup, fun e => (hroot.mem_iff e).trans ?_⟩
  constructor
  · rintro ⟨j, k, _, hk, he⟩
    exact ⟨k, Array.mem_of_getElem? hk, he⟩
  · rintro ⟨k, hk, he⟩
    obtain ⟨j, hj⟩ := Array.mem_iff_getElem?.1 hk
    exact ⟨j, k, h.below_root (Array.getElem?_eq_some_iff.1 hj).1, hj, he⟩

end Branching

/-- A packet of a net goes to the destinations of the net, and is not dropped on the way. -/
theorem RoutingTree.Serves.journey {m : Machine} {source : Chip} {ds : List Destination}
    {t : RoutingTree} {tables : RoutingTables} {w : BitVec 32} {hops : Nat}
    (h : t.Serves m source ds)
    (hforward : ∀ n ∈ t.nodes, tables.forward n.chip n.arrivedOn w = n.route)
    (hdevice : ∀ c l, .device c l ∈ ds → m.hop c l = none) (hhops : m.size ≤ hops) :
    (journey m tables w hops source none).Nodup ∧
      (∀ c, .expire c ∉ journey m tables w hops source none) ∧
      (∀ c, .deliver c ∈ journey m tables w hops source none ↔ .cores c ∈ ds) ∧
      ∀ c l, .emit c l ∈ journey m tables w hops source none ↔ .device c l ∈ ds := by
  have hexits : ∀ n ∈ t.nodes, ∀ l ∈ n.exits, m.hop n.chip l = none :=
    fun n hn l hl => hdevice n.chip l (((h.delivers n hn).2 l).1 hl)
  obtain ⟨hnodup, hmem⟩ := h.toBranching.exactly_journey hforward hexits hhops
  refine ⟨hnodup, fun c hc => ?_, fun c => (hmem _).trans ⟨?_, fun hc => ?_⟩,
    fun c l => (hmem _).trans ⟨?_, fun hc => ?_⟩⟩
  · obtain ⟨_, _, himpossible⟩ := (hmem _).1 hc
    exact himpossible
  · rintro ⟨n, hn, rfl, hlocal⟩
    exact (h.delivers n hn).1.1 hlocal
  · obtain ⟨n, hn, rfl⟩ := h.reaches _ hc
    exact ⟨n, hn, rfl, (h.delivers n hn).1.2 hc⟩
  · rintro ⟨n, hn, rfl, hl⟩
    exact ((h.delivers n hn).2 l).1 hl
  · obtain ⟨n, hn, hchip⟩ := h.reaches _ hc
    have hchip : n.chip = c := hchip
    rw [← hchip] at hc ⊢
    exact ⟨n, hn, rfl, ((h.delivers n hn).2 l).2 hc⟩

end HexFabric
