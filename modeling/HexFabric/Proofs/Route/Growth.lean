import HexFabric.Route.Growth
import HexFabric.Proofs.Containers
import HexFabric.Proofs.Route.Search

/-! Growing a routing tree. `Branching` says that some nodes make a tree over the hops of a machine:
they are on different chips, and each of them except the first is the child of exactly one node, one
hop before it. `Pruned` says that the hops are those that a search has marked, and on which chips
ways may end. The way that a search has marked back from a chip meets the tree, so it can be added to
it: `Growth.Sound.returns_reach`. -/

namespace HexFabric

/-- Node `i` is on chip `c`, and packets come to it on `a`. -/
def NodeAt (nodes : Array RouteNode) (i : Nat) (c : Chip) (a : Option Link) : Prop :=
  ∃ n, nodes[i]? = some n ∧ n.chip = c ∧ n.arrivedOn = a

/-- Node `i` has the child `j` on link `l`. -/
def IsChild (nodes : Array RouteNode) (i : Nat) (l : Link) (j : Nat) : Prop :=
  ∃ n, nodes[i]? = some n ∧ (l, j) ∈ n.children

theorem NodeAt.lt_size {nodes : Array RouteNode} {i : Nat} {c : Chip} {a : Option Link}
    (h : NodeAt nodes i c a) : i < nodes.size := by
  obtain ⟨n, hn, _⟩ := h
  exact (Array.getElem?_eq_some_iff.1 hn).1

theorem NodeAt.chip_eq {nodes : Array RouteNode} {i : Nat} {c c' : Chip} {a a' : Option Link}
    (h : NodeAt nodes i c a) (h' : NodeAt nodes i c' a') : c = c' := by
  obtain ⟨n, hn, rfl, _⟩ := h
  obtain ⟨n', hn', rfl, _⟩ := h'
  rw [hn] at hn'
  cases hn'
  rfl

theorem nodeAt_of_getElem? {nodes : Array RouteNode} {i : Nat} {n : RouteNode}
    (h : nodes[i]? = some n) : NodeAt nodes i n.chip n.arrivedOn :=
  ⟨n, h, rfl, rfl⟩

theorem isChild_iff {nodes : Array RouteNode} {i j : Nat} {l : Link} {n : RouteNode}
    (h : nodes[i]? = some n) : IsChild nodes i l j ↔ (l, j) ∈ n.children := by
  simp [IsChild, h]

theorem getElem?_leaf {source : Chip} {a : Option Link} {i : Nat} {n : RouteNode} :
    (#[RouteNode.leaf source a])[i]? = some n ↔ i = 0 ∧ n = .leaf source a := by
  cases i with
  | zero => simp [eq_comm]
  | succ i => simp

theorem nodeAt_leaf {source c : Chip} {a : Option Link} {i : Nat} :
    NodeAt #[.leaf source none] i c a ↔ i = 0 ∧ c = source ∧ a = none := by
  unfold NodeAt
  simp only [getElem?_leaf, and_assoc, exists_and_left, exists_eq_left]
  simp [RouteNode.leaf, eq_comm]

theorem not_isChild_leaf {source : Chip} {a : Option Link} {i j : Nat} {l : Link} :
    ¬IsChild #[.leaf source a] i l j := by
  rintro ⟨n, hn, hmem⟩
  rw [(getElem?_leaf.1 hn).2] at hmem
  cases hmem

/-- The nodes make a tree over the hops of the machine. -/
structure Branching (m : Machine) (source : Chip) (nodes : Array RouteNode) : Prop where
  root : NodeAt nodes 0 source none
  has : ∀ i c a, NodeAt nodes i c a → m.Has c
  distinct : ∀ i j c a b, NodeAt nodes i c a → NodeAt nodes j c b → i = j
  lt : ∀ i l j, IsChild nodes i l j → i < j
  hop : ∀ i l j, IsChild nodes i l j → ∃ c a next, NodeAt nodes i c a ∧
    NodeAt nodes j next (some l.opposite) ∧ m.hop c l = some next
  parent : ∀ j < nodes.size, 0 < j → ∃ i l, IsChild nodes i l j
  unique : ∀ i i' l l' j, IsChild nodes i l j → IsChild nodes i' l' j → i = i' ∧ l = l'

namespace Branching

variable {m : Machine} {source next : Chip} {nodes nodes' : Array RouteNode} {link : Link}
  {parent : Nat}

theorem congr (h : Branching m source nodes) (hsize : nodes'.size = nodes.size)
    (hat : ∀ i c a, NodeAt nodes' i c a ↔ NodeAt nodes i c a)
    (hchild : ∀ i l j, IsChild nodes' i l j ↔ IsChild nodes i l j) :
    Branching m source nodes' where
  root := (hat 0 source none).2 h.root
  has i c a hi := h.has i c a ((hat i c a).1 hi)
  distinct i j c a b hi hj := h.distinct i j c a b ((hat i c a).1 hi) ((hat j c b).1 hj)
  lt i l j hij := h.lt i l j ((hchild i l j).1 hij)
  hop i l j hij := by
    obtain ⟨c, a, next, hi, hj, hhop⟩ := h.hop i l j ((hchild i l j).1 hij)
    exact ⟨c, a, next, (hat i c a).2 hi, (hat j next _).2 hj, hhop⟩
  parent j hj hpos := by
    obtain ⟨i, l, hij⟩ := h.parent j (hsize ▸ hj) hpos
    exact ⟨i, l, (hchild i l j).2 hij⟩
  unique i i' l l' j hij hij' :=
    h.unique i i' l l' j ((hchild i l j).1 hij) ((hchild i' l' j).1 hij')

theorem nodup_chips (h : Branching m source nodes) : (nodes.toList.map (·.chip)).Nodup := by
  rw [List.Nodup, List.pairwise_map, List.pairwise_iff_getElem]
  intro i j hi hj hlt heq
  have hij := h.distinct i j _ _ _ ⟨_, by simp, rfl, rfl⟩ ⟨_, by simp, heq.symm, rfl⟩
  omega

/-- The links of a node lead to different nodes. -/
theorem eq_of_link (h : Branching m source nodes) {i j j' : Nat} {l : Link}
    (hj : IsChild nodes i l j) (hj' : IsChild nodes i l j') : j = j' := by
  obtain ⟨c, _, next, hi, hat, hhop⟩ := h.hop i l j hj
  obtain ⟨c', _, next', hi', hat', hhop'⟩ := h.hop i l j' hj'
  rw [hi.chip_eq hi', hhop', Option.some.injEq] at hhop
  exact h.distinct j j' next _ _ hat (hhop ▸ hat')

theorem child_lt_size (h : Branching m source nodes) {i j : Nat} {l : Link}
    (hij : IsChild nodes i l j) : j < nodes.size := by
  obtain ⟨_, _, _, _, hj, _⟩ := h.hop i l j hij
  exact hj.lt_size

/-- The source alone. -/
theorem leaf (h : m.Has source) : Branching m source #[.leaf source none] where
  root := nodeAt_leaf.2 ⟨rfl, rfl, rfl⟩
  has i c a hi := by
    rw [(nodeAt_leaf.1 hi).2.1]
    exact h
  distinct i j c a b hi hj := by rw [(nodeAt_leaf.1 hi).1, (nodeAt_leaf.1 hj).1]
  lt i l j hij := absurd hij not_isChild_leaf
  hop i l j hij := absurd hij not_isChild_leaf
  parent j hj hpos := absurd (Nat.lt_one_iff.1 hj) (Nat.ne_of_gt hpos)
  unique i i' l l' j hij := absurd hij not_isChild_leaf

/-- The nodes with one more, the child of `parent` on a link. -/
def grown (nodes : Array RouteNode) (parent : Nat) (link : Link) (next : Chip) : Array RouteNode :=
  (nodes.push (.leaf next (some link.opposite))).modify parent (·.addChild link nodes.size)

theorem getElem?_grown (hparent : parent < nodes.size) (i : Nat) :
    (grown nodes parent link next)[i]? =
      if i = nodes.size then some (.leaf next (some link.opposite))
      else if i = parent then (nodes[i]?).map (·.addChild link nodes.size)
      else nodes[i]? := by
  unfold grown
  rw [Array.getElem?_modify, Array.getElem?_push]
  by_cases hi : i = nodes.size
  · rw [if_neg (by omega), if_pos hi, if_pos hi]
  · rw [if_neg hi, if_neg hi]
    by_cases hp : i = parent
    · rw [if_pos hp.symm, if_pos hp]
    · rw [if_neg (Ne.symm hp), if_neg hp]

theorem nodeAt_grown (hparent : parent < nodes.size) {i : Nat} {c : Chip} {a : Option Link} :
    NodeAt (grown nodes parent link next) i c a ↔
      NodeAt nodes i c a ∨ i = nodes.size ∧ c = next ∧ a = some link.opposite := by
  unfold NodeAt
  rw [getElem?_grown hparent]
  split_ifs with hi hp
  · rw [hi, Array.getElem?_eq_none (Nat.le_refl _)]
    simp [RouteNode.leaf, eq_comm]
  · simp [hi, RouteNode.addChild]
  · simp [hi]

theorem isChild_grown (hparent : parent < nodes.size) {i j : Nat} {l : Link} :
    IsChild (grown nodes parent link next) i l j ↔
      IsChild nodes i l j ∨ i = parent ∧ l = link ∧ j = nodes.size := by
  unfold IsChild
  rw [getElem?_grown hparent]
  split_ifs with hi hp
  · rw [hi, Array.getElem?_eq_none (Nat.le_refl _)]
    simp [RouteNode.leaf]
    omega
  · rw [hp, Array.getElem?_eq_getElem hparent]
    simp [RouteNode.addChild]
  · simp [hp]

/-- A hop from the tree to a chip that is not in it. -/
theorem grow (h : Branching m source nodes) {c : Chip} {a : Option Link}
    (hc : NodeAt nodes parent c a) (hhop : m.hop c link = some next)
    (hnew : ∀ i a, ¬NodeAt nodes i next a) :
    Branching m source (grown nodes parent link next) := by
  have hparent := hc.lt_size
  have hold : ∀ {i c a}, NodeAt nodes i c a → NodeAt (grown nodes parent link next) i c a :=
    fun hi => (nodeAt_grown hparent).2 (.inl hi)
  have hlast : NodeAt (grown nodes parent link next) nodes.size next (some link.opposite) :=
    (nodeAt_grown hparent).2 (.inr ⟨rfl, rfl, rfl⟩)
  refine ⟨hold h.root, fun i c a hi => ?_, fun i j c a b hi hj => ?_, fun i l j hij => ?_,
    fun i l j hij => ?_, fun j hj hpos => ?_, fun i i' l l' j hij hij' => ?_⟩
  · rcases (nodeAt_grown hparent).1 hi with hi | ⟨_, rfl, _⟩
    · exact h.has i c a hi
    · exact (m.live_of_hop hhop).2.1
  · rcases (nodeAt_grown hparent).1 hi with hi | ⟨hi, hc, _⟩
    · rcases (nodeAt_grown hparent).1 hj with hj | ⟨_, hc, _⟩
      · exact h.distinct i j c a b hi hj
      · exact absurd (hc ▸ hi) (hnew i a)
    · rcases (nodeAt_grown hparent).1 hj with hj | ⟨hj, _, _⟩
      · exact absurd (hc ▸ hj) (hnew j b)
      · rw [hi, hj]
  · rcases (isChild_grown hparent).1 hij with hij | ⟨rfl, _, rfl⟩
    · exact h.lt i l j hij
    · exact hparent
  · rcases (isChild_grown hparent).1 hij with hij | ⟨rfl, rfl, rfl⟩
    · obtain ⟨c', a', next', hi, hj, hstep⟩ := h.hop i l j hij
      exact ⟨c', a', next', hold hi, hold hj, hstep⟩
    · exact ⟨c, a, next, hold hc, hlast, hhop⟩
  · rw [grown, Array.size_modify, Array.size_push] at hj
    by_cases heq : j = nodes.size
    · exact ⟨parent, link, (isChild_grown hparent).2 (.inr ⟨rfl, rfl, heq⟩)⟩
    · obtain ⟨i, l, hij⟩ := h.parent j (by omega) hpos
      exact ⟨i, l, (isChild_grown hparent).2 (.inl hij)⟩
  · rcases (isChild_grown hparent).1 hij with hold | ⟨hi, hl, hj⟩
    · rcases (isChild_grown hparent).1 hij' with hold' | ⟨_, _, hj'⟩
      · exact h.unique i i' l l' j hold hold'
      · exact absurd (h.child_lt_size hold) (by omega)
    · rcases (isChild_grown hparent).1 hij' with hold' | ⟨hi', hl', _⟩
      · exact absurd (h.child_lt_size hold') (by omega)
      · exact ⟨hi.trans hi'.symm, hl.trans hl'.symm⟩

end Branching

/-- The hops between the nodes are marked, no child is listed twice, and where ways end `ends`
holds. -/
structure Pruned (g : Grid) (marks : Array Mark) (ends : Chip → Prop) (nodes : Array RouteNode) :
    Prop where
  marked : ∀ i l j, IsChild nodes i l j → ∃ c a next b, NodeAt nodes i c a ∧
    NodeAt nodes j next b ∧ markAt g marks next = .via c l
  goes_on : ∀ i c a, NodeAt nodes i c a → (∃ l j, IsChild nodes i l j) ∨ ends c
  nodup : ∀ n ∈ nodes, n.children.Nodup

namespace Pruned

variable {m : Machine} {source c next : Chip} {marks : Array Mark} {ends ends' : Chip → Prop}
  {nodes nodes' : Array RouteNode}

theorem mono (h : Pruned m.toGrid marks ends nodes) (hends : ∀ c, ends c → ends' c) :
    Pruned m.toGrid marks ends' nodes :=
  ⟨h.marked, fun i c a hi => (h.goes_on i c a hi).imp_right (hends c), h.nodup⟩

theorem congr (h : Pruned m.toGrid marks ends nodes)
    (hat : ∀ i c a, NodeAt nodes' i c a ↔ NodeAt nodes i c a)
    (hchild : ∀ i l j, IsChild nodes' i l j ↔ IsChild nodes i l j)
    (hnodup : ∀ n ∈ nodes', n.children.Nodup) : Pruned m.toGrid marks ends nodes' where
  marked i l j hij := by
    obtain ⟨c, a, next, b, hi, hj, hmark⟩ := h.marked i l j ((hchild i l j).1 hij)
    exact ⟨c, a, next, b, (hat i c a).2 hi, (hat j next b).2 hj, hmark⟩
  goes_on i c a hi := by
    rcases h.goes_on i c a ((hat i c a).1 hi) with ⟨l, j, hij⟩ | hends
    · exact .inl ⟨l, j, (hchild i l j).2 hij⟩
    · exact .inr hends
  nodup := hnodup

theorem leaf : Pruned m.toGrid marks (· = source) #[.leaf source none] where
  marked i l j hij := absurd hij not_isChild_leaf
  goes_on i c a hi := .inr (nodeAt_leaf.1 hi).2.1
  nodup n hn := by
    rw [Array.mem_singleton.1 hn]
    exact List.nodup_nil

/-- A marked hop from `c`, where a way may end until then. -/
theorem grow (h : Pruned m.toGrid marks (fun x => ends x ∨ x = c) nodes)
    (hnodes : Branching m source nodes) {parent : Nat} {a : Option Link} {link : Link}
    (hc : NodeAt nodes parent c a) (hmark : markAt m.toGrid marks next = .via c link) :
    Pruned m.toGrid marks (fun x => ends x ∨ x = next)
      (Branching.grown nodes parent link next) := by
  have hparent := hc.lt_size
  have hat : ∀ {i x b}, NodeAt (Branching.grown nodes parent link next) i x b ↔ _ :=
    Branching.nodeAt_grown hparent
  have hchild : ∀ {i l j}, IsChild (Branching.grown nodes parent link next) i l j ↔ _ :=
    Branching.isChild_grown hparent
  refine ⟨fun i l j hij => ?_, fun i x b hi => ?_, fun n hn => ?_⟩
  · rcases hchild.1 hij with hij | ⟨rfl, rfl, rfl⟩
    · obtain ⟨c', a', next', b', hi, hj, hmark'⟩ := h.marked i l j hij
      exact ⟨c', a', next', b', hat.2 (.inl hi), hat.2 (.inl hj), hmark'⟩
    · exact ⟨c, a, next, _, hat.2 (.inl hc), hat.2 (.inr ⟨rfl, rfl, rfl⟩), hmark⟩
  · rcases hat.1 hi with hi | ⟨_, rfl, _⟩
    · rcases h.goes_on i x b hi with ⟨l, j, hij⟩ | hends | rfl
      · exact .inl ⟨l, j, hchild.2 (.inl hij)⟩
      · exact .inr (.inl hends)
      · exact .inl ⟨link, nodes.size, hchild.2 (.inr ⟨hnodes.distinct i parent x b a hi hc, rfl, rfl⟩)⟩
    · exact .inr (.inr rfl)
  · obtain ⟨i, hi⟩ := Array.mem_iff_getElem?.1 hn
    rw [Branching.getElem?_grown hparent] at hi
    split_ifs at hi
    · cases hi
      exact List.nodup_nil
    · obtain ⟨k, hk, rfl⟩ := Option.map_eq_some_iff.1 hi
      refine List.nodup_append.2 ⟨h.nodup k (Array.mem_of_getElem? hk), by simp,
        fun e he e' he' heq => ?_⟩
      rw [heq, List.mem_singleton.1 he'] at he
      exact absurd (hnodes.child_lt_size ⟨k, hk, he⟩) (Nat.lt_irrefl _)
    · exact h.nodup n (Array.mem_of_getElem? hi)

end Pruned

/-- The deliveries noted at the nodes are those to some destinations. -/
def Delivers (nodes : Array RouteNode) (ds : List Destination) : Prop :=
  ∀ n ∈ nodes, (n.isLocal = true ↔ .cores n.chip ∈ ds) ∧ ∀ l, l ∈ n.exits ↔ .device n.chip l ∈ ds

section Delivers

variable {nodes : Array RouteNode} {ds : List Destination} {i : Nat} {n : RouteNode}

theorem Delivers.leaf {source : Chip} {a : Option Link} : Delivers #[.leaf source a] [] := by
  intro n hn
  rw [Array.mem_singleton.1 hn]
  simp [RouteNode.leaf]

theorem Delivers.grown (h : Delivers nodes []) (hi : i < nodes.size) {link : Link} {next : Chip} :
    Delivers (Branching.grown nodes i link next) [] := by
  intro k hk
  obtain ⟨j, hj⟩ := Array.mem_iff_getElem?.1 hk
  rw [Branching.getElem?_grown hi] at hj
  split_ifs at hj with hlast hp
  · cases hj
    simp [RouteNode.leaf]
  · obtain ⟨k', hk', rfl⟩ := Option.map_eq_some_iff.1 hj
    exact h k' (Array.mem_of_getElem? hk')
  · exact h k (Array.mem_of_getElem? hj)

/-- A delivery changes neither where nodes are nor what their children are. -/
theorem nodeAt_deliver {d : Destination} {j : Nat} {c : Chip} {a : Option Link} :
    NodeAt (nodes.modify i (·.deliver d)) j c a ↔ NodeAt nodes j c a := by
  unfold NodeAt
  rw [Array.getElem?_modify]
  split_ifs
  · cases d <;> simp [RouteNode.deliver]
  · rfl

theorem isChild_deliver {d : Destination} {j k : Nat} {l : Link} :
    IsChild (nodes.modify i (·.deliver d)) j l k ↔ IsChild nodes j l k := by
  unfold IsChild
  rw [Array.getElem?_modify]
  split_ifs
  · cases d <;> simp [RouteNode.deliver]
  · rfl

/-- The children of each node are those of a node before. -/
theorem exists_children_deliver {d : Destination} {j : Nat}
    (hn : (nodes.modify i (·.deliver d))[j]? = some n) : ∃ k ∈ nodes, k.children = n.children := by
  rw [Array.getElem?_modify] at hn
  split_ifs at hn
  · obtain ⟨k, hk, rfl⟩ := Option.map_eq_some_iff.1 hn
    exact ⟨k, Array.mem_of_getElem? hk, by cases d <;> rfl⟩
  · exact ⟨n, Array.mem_of_getElem? hn, rfl⟩

theorem Delivers.deliver (h : Delivers nodes ds) {d : Destination} {a : Option Link}
    (hd : NodeAt nodes i d.chip a)
    (hdistinct : ∀ j b, NodeAt nodes j d.chip b → j = i) :
    Delivers (nodes.modify i (·.deliver d)) (ds ++ [d]) := by
  obtain ⟨n, hn, hchip, _⟩ := hd
  intro k hk
  obtain ⟨j, hj⟩ := Array.mem_iff_getElem?.1 hk
  rw [Array.getElem?_modify] at hj
  by_cases heq : i = j
  · subst heq
    rw [if_pos rfl, hn] at hj
    cases hj
    obtain ⟨hlocal, hexits⟩ := h n (Array.mem_of_getElem? hn)
    cases d with
    | cores c =>
      have hc : n.chip = c := hchip
      rw [hc] at hexits
      simp [RouteNode.deliver, hc, hexits]
    | device c l =>
      have hc : n.chip = c := hchip
      rw [hc] at hlocal hexits
      simp [RouteNode.deliver, hlocal, hexits, hc]
  · rw [if_neg heq] at hj
    obtain ⟨hlocal, hexits⟩ := h k (Array.mem_of_getElem? hj)
    have hne : k.chip ≠ d.chip :=
      fun hk' => heq (hdistinct j k.arrivedOn ⟨k, hj, hk', rfl⟩).symm
    have hother : ∀ d', d'.chip = k.chip → (d' ∈ ds ++ [d] ↔ d' ∈ ds) := by
      intro d' hd'
      rw [List.mem_append, List.mem_singleton]
      refine or_iff_left fun heq => hne ?_
      rw [← heq, hd']
    exact ⟨by rw [hlocal, hother _ rfl], fun l => by rw [hexits, hother _ rfl]⟩

end Delivers

namespace Growth

/-- A tree with deliveries to the destinations `ds`, and where each chip, which has a cell of its own,
is in it. -/
structure Sound (m : Machine) (source : Chip) (ds : List Destination) (t : Growth) : Prop
    extends Branching m source t.nodes where
  small : m.size < 2 ^ 32
  size_nodeOf : t.nodeOf.size = m.cells
  nodeOf : ∀ c, m.Has c → ∀ i,
    t.nodeOf[m.cell c]? = some (some i) ↔ ∃ a, NodeAt t.nodes i c a
  delivers : Delivers t.nodes ds

/-- The chip `c` has a node. -/
def Holds (t : Growth) (c : Chip) : Prop := ∃ i a, NodeAt t.nodes i c a

variable {m : Machine} {source c : Chip} {ds : List Destination} {t : Growth}

theorem Sound.holds_iff (h : t.Sound m source ds) (hc : m.Has c) :
    t.Holds c ↔ ∃ i, t.nodeOf[m.cell c]? = some (some i) :=
  exists_congr fun i => (h.nodeOf c hc i).symm

theorem Sound.has_of_holds (h : t.Sound m source ds) (hc : t.Holds c) : m.Has c := by
  obtain ⟨i, a, hi⟩ := hc
  exact h.has i c a hi

theorem returns_root (small : m.size < 2 ^ 32) (h : m.Has source) :
    Returns (root m.toGrid source) fun t => t.Sound m source [] ∧
      ∀ marks, Pruned m.toGrid marks (· = source) t.nodes := by
  have hlt := Grid.cell_lt small h
  unfold root
  rw [store_of_lt (by rwa [Array.size_replicate])]
  refine .pure ⟨⟨.leaf h, small, ?_, fun c hc i => ?_, .leaf⟩, fun _ => .leaf⟩
  · rw [Array.size_setIfInBounds, Array.size_replicate]
  · simp only [nodeAt_leaf, exists_and_left, exists_eq, and_true]
    rw [Array.getElem?_setIfInBounds, Array.getElem?_replicate, Array.size_replicate]
    by_cases heq : source = c
    · subst heq
      simp [hlt, eq_comm]
    · rw [if_neg ((Grid.cell_inj small h hc).not.2 heq), if_pos (Grid.cell_lt small hc)]
      simp [Ne.symm heq]

theorem Sound.returns_nodeAt (h : t.Sound m source ds) (hc : t.Holds c) :
    Returns (t.nodeAt m.toGrid c) fun i => ∃ a, NodeAt t.nodes i c a := by
  have hhas := h.has_of_holds hc
  obtain ⟨i, hi⟩ := (h.holds_iff hhas).1 hc
  refine Ends.bind (returns_fetch (h.size_nodeOf ▸ Grid.cell_lt h.small hhas)) fun r hr => ?_
  rw [hi] at hr
  cases hr
  exact .pure ((h.nodeOf c hhas i).1 hi)

/-! ### Adding a way -/

/-- One hop from the tree to a chip that is not in it. -/
theorem Sound.returns_extend (h : t.Sound m source []) {hop : Hop} (horigin : t.Holds hop.origin)
    (hhop : m.hop hop.origin hop.link = some hop.chip) (hnew : ¬t.Holds hop.chip) :
    Returns (extend m.toGrid t hop) fun t' => t'.Sound m source [] ∧
      (∃ parent a, NodeAt t.nodes parent hop.origin a ∧
        t'.nodes = Branching.grown t.nodes parent hop.link hop.chip) ∧
      ∀ c, t'.Holds c ↔ t.Holds c ∨ c = hop.chip := by
  have hnext : m.Has hop.chip := (m.live_of_hop hhop).2.1
  have hlt : m.cell hop.chip < t.nodeOf.size := h.size_nodeOf ▸ Grid.cell_lt h.small hnext
  unfold extend
  refine Ends.bind (h.returns_nodeAt horigin) ?_
  rintro parent ⟨a, hat⟩
  have hparent := hat.lt_size
  dsimp only
  rw [adjust_of_lt (by rw [Array.size_push]; omega), store_of_lt hlt]
  have hnodes : ∀ i c a, NodeAt (Branching.grown t.nodes parent hop.link hop.chip) i c a ↔
      NodeAt t.nodes i c a ∨ i = t.nodes.size ∧ c = hop.chip ∧ a = some hop.link.opposite :=
    fun _ _ _ => Branching.nodeAt_grown hparent
  have hbranching := h.toBranching.grow hat hhop fun i a hi => hnew ⟨i, a, hi⟩
  refine .pure ⟨⟨hbranching, h.small, by rw [Array.size_setIfInBounds, h.size_nodeOf], fun c hc i => ?_,
    h.delivers.grown hparent⟩, ⟨parent, a, hat, rfl⟩, fun c => ?_⟩
  · refine Iff.trans ?_ (exists_congr fun a => hnodes i c a).symm
    rw [exists_or, ← h.nodeOf c hc i, Array.getElem?_setIfInBounds]
    by_cases heq : hop.chip = c
    · subst heq
      have hnone : t.nodeOf[m.cell hop.chip]? ≠ some (some i) :=
        fun hi => hnew ((h.holds_iff hnext).2 ⟨i, hi⟩)
      rw [if_pos rfl, if_pos hlt, or_iff_right hnone]
      simp [eq_comm]
    · rw [if_neg ((Grid.cell_inj h.small hnext hc).not.2 heq)]
      simp [Ne.symm heq]
  · refine (exists_congr fun i => exists_congr fun a => hnodes i c a).trans ?_
    simp [exists_or, Holds]

/-- Marked hops go on from a chip, each from where the one before it leads, to `target`. -/
def Leads (m : Machine) (marks : Array Mark) (target : Chip) : Chip → List Hop → Prop
  | c, [] => c = target
  | c, hop :: way => hop.origin = c ∧ m.Has hop.chip ∧
    markAt m.toGrid marks hop.chip = .via c hop.link ∧ Leads m marks target hop.chip way

/-- A marked way from a chip to `target`, over chips that are not in the tree. -/
structure Outward (m : Machine) (marks : Array Mark) (target : Chip) (t : Growth) (way : List Hop)
    (c : Chip) : Prop where
  leads : Leads m marks target c way
  nodup : (way.map (·.chip)).Nodup
  fresh : ∀ hop ∈ way, ¬t.Holds hop.chip

section Ways

variable {rank : Chip → Nat} {marks : Array Mark} {target : Chip} {ends : Chip → Prop}

/-- A way that leads on from a chip where ways may end is added up to its target. -/
theorem Sound.returns_extendAll {way : List Hop} (h : t.Sound m source [])
    (hpruned : Pruned m.toGrid marks (fun x => ends x ∨ x = c) t.nodes)
    (hmarks : Marked m source rank marks) (hc : t.Holds c)
    (hway : Outward m marks target t way c) :
    Returns (way.foldlM (extend m.toGrid) t) fun t' => t'.Sound m source [] ∧
      Pruned m.toGrid marks (fun x => ends x ∨ x = target) t'.nodes ∧ t'.Holds target ∧
      ∀ c, t.Holds c → t'.Holds c := by
  induction way generalizing t c with
  | nil =>
    have heq : c = target := hway.leads
    exact .pure ⟨h, heq ▸ hpruned, heq ▸ hc, fun _ => id⟩
  | cons hop way ih =>
    obtain ⟨horigin, hhas, hmark, hleads⟩ := hway.leads
    subst horigin
    have hnodup := hway.nodup
    rw [List.map_cons, List.nodup_cons] at hnodup
    rw [List.foldlM_cons]
    refine Ends.bind (h.returns_extend hc (hmarks.hop _ _ _ hhas hmark)
      (hway.fresh hop List.mem_cons_self)) ?_
    rintro t' ⟨ht', ⟨parent, a, hat, hnodes⟩, hholds⟩
    have hrest : Outward m marks target t' way hop.chip := by
      refine ⟨hleads, hnodup.2, fun e he => ?_⟩
      rw [hholds, not_or]
      exact ⟨hway.fresh e (List.mem_cons_of_mem _ he), fun heq =>
        hnodup.1 (List.mem_map.2 ⟨e, he, heq⟩)⟩
    refine (ih ht' (hnodes ▸ hpruned.grow h.toBranching hat hmark) ((hholds _).2 (.inr rfl))
      hrest).mono ?_
    rintro t'' ⟨ht'', hpruned', htarget, hkeep⟩
    exact ⟨ht'', hpruned', htarget, fun c hc => hkeep c ((hholds c).2 (.inl hc))⟩

/-- The way that is found back from a chip that has been seen. -/
theorem Sound.returns_trace (h : t.Sound m source ds) (hmarks : Marked m source rank marks)
    {fuel : Nat} {way : List Hop} (hc : m.Has c) (hseen : markAt m.toGrid marks c ≠ .unseen)
    (hfuel : rank c < fuel) (hway : Outward m marks target t way c)
    (hrank : ∀ hop ∈ way, rank c < rank hop.chip) :
    Returns (trace m.toGrid marks t fuel c way) fun way => ∃ c', t.Holds c' ∧
      Outward m marks target t way c' := by
  induction fuel generalizing c way with
  | zero => exact absurd hfuel (Nat.not_lt_zero _)
  | succ fuel ih =>
    unfold trace
    refine Ends.bind (returns_fetch (h.size_nodeOf ▸ Grid.cell_lt h.small hc)) fun r hr => ?_
    cases r with
    | some i => exact .pure ⟨c, (h.holds_iff hc).2 ⟨i, hr⟩, hway⟩
    | none =>
      have hfresh : ¬t.Holds c := by
        rw [h.holds_iff hc]
        rintro ⟨i, hi⟩
        rw [hr] at hi
        cases hi
      refine Ends.bind (hmarks.returns_fetch hc) fun k hk => ?_
      cases k with
      | unseen => exact absurd hk.symm hseen
      | source => exact absurd (hmarks.eq_source c hc hk.symm ▸ ⟨0, none, h.root⟩) hfresh
      | via origin link =>
        have hhop := hmarks.hop c origin link hc hk.symm
        have hlower := hmarks.lower c origin link hc hk.symm
        refine ih (m.live_of_hop hhop).1.1 (hmarks.seen c origin link hc hk.symm) (by omega)
          ⟨⟨rfl, hc, hk.symm, hway.leads⟩, ?_, ?_⟩ ?_
        · rw [List.map_cons, List.nodup_cons]
          refine ⟨fun hmem => ?_, hway.nodup⟩
          obtain ⟨hop, hop_mem, heq⟩ := List.mem_map.1 hmem
          have hlt := hrank hop hop_mem
          rw [heq] at hlt
          exact Nat.lt_irrefl _ hlt
        · exact List.forall_mem_cons.2 ⟨hfresh, hway.fresh⟩
        · exact List.forall_mem_cons.2
            ⟨hlower, fun hop hop_mem => Nat.lt_trans hlower (hrank hop hop_mem)⟩

/-- Every chip that has been seen can be reached. -/
theorem Sound.returns_reach (h : t.Sound m source []) (hpruned : Pruned m.toGrid marks ends t.nodes)
    (hmarks : Marked m source rank marks) (hc : m.Has c)
    (hseen : markAt m.toGrid marks c ≠ .unseen) :
    Returns (reach m.toGrid marks t c) fun t' => t'.Sound m source [] ∧
      Pruned m.toGrid marks (fun x => ends x ∨ x = c) t'.nodes ∧ t'.Holds c ∧
      ∀ c', t.Holds c' → t'.Holds c' := by
  have hfuel : rank c < m.size + 1 :=
    Nat.lt_succ_of_lt (Nat.lt_of_lt_of_le (hmarks.rank_lt c hc hseen) (seenCount_le hmarks))
  refine Ends.bind (h.returns_trace hmarks hc hseen hfuel ⟨rfl, List.nodup_nil, nofun⟩ nofun) ?_
  rintro way ⟨c', hc', hway⟩
  exact h.returns_extendAll (hpruned.mono fun _ => .inl) hmarks hc' hway

end Ways

/-! ### Deliveries -/

theorem Sound.returns_deliver (h : t.Sound m source ds) {d : Destination} (hd : t.Holds d.chip) :
    Returns (deliver m.toGrid t d) fun t' => t'.Sound m source (ds ++ [d]) ∧
      (∀ marks ends, Pruned m.toGrid marks ends t.nodes → Pruned m.toGrid marks ends t'.nodes) ∧
      ∀ c, t'.Holds c ↔ t.Holds c := by
  unfold deliver
  refine Ends.bind (h.returns_nodeAt hd) ?_
  rintro i ⟨a, hi⟩
  dsimp only
  rw [adjust_of_lt hi.lt_size]
  refine .pure ⟨⟨h.toBranching.congr Array.size_modify (fun _ _ _ => nodeAt_deliver)
    fun _ _ _ => isChild_deliver, h.small, h.size_nodeOf, fun c hc j => ?_,
    h.delivers.deliver hi fun j b hj => h.distinct j i d.chip b a hj hi⟩,
    fun marks ends hpruned => hpruned.congr (fun _ _ _ => nodeAt_deliver)
      (fun _ _ _ => isChild_deliver) fun n hn => ?_, fun c => ?_⟩
  · exact (h.nodeOf c hc j).trans (exists_congr fun b => nodeAt_deliver).symm
  · obtain ⟨j, hj⟩ := Array.mem_iff_getElem?.1 hn
    obtain ⟨k, hk, heq⟩ := exists_children_deliver hj
    exact heq ▸ hpruned.nodup k hk
  · exact exists_congr fun j => exists_congr fun b => nodeAt_deliver

end Growth

end HexFabric
