import HexFabric.Proofs.Partition.Cut

/-! Cutting a graph that makes sense. The outcome is an error of the input or a partitioned graph in
which slices, ranges and nets refer to what is there, and the slices of each vertex make it up. -/

namespace HexFabric

/-! ### Faults -/

namespace Vertex

/-- What is promised of a vertex that has passed its checks. -/
structure Sensible (v : Vertex) : Prop where
  extent : v.extent ≠ 0
  granularity : v.granularity ≠ 0
  most : ∀ most ∈ v.maxSlice, v.granularity ≤ most

theorem vertexFault?_eq_none_iff {v : Vertex} : Graph.vertexFault? v = none ↔ v.Sensible := by
  have hmost : v.maxSlice.any (· < v.granularity) = false ↔
      ∀ most ∈ v.maxSlice, v.granularity ≤ most := by
    cases v.maxSlice <;> simp
  unfold Graph.vertexFault?
  constructor
  · intro h
    split_ifs at h with hextent hgranularity hany
    exact ⟨hextent, hgranularity, hmost.1 (eq_false_of_ne_true hany)⟩
  · rintro ⟨hextent, hgranularity, h⟩
    rw [if_neg hextent, if_neg hgranularity, hmost.2 h, if_neg Bool.false_ne_true]

end Vertex

namespace Graph

/-- What is promised of a graph that has passed its checks. -/
structure Sound (g : Graph) : Prop where
  extent : ∀ v ∈ g.vertices, v.extent ≠ 0
  granularity : ∀ v ∈ g.vertices, v.granularity ≠ 0
  source : ∀ n ∈ g.nets, n.source < g.vertices.length
  sinks : ∀ n ∈ g.nets, ∀ s ∈ n.sinks, s < g.vertices.length

theorem netFault?_eq_none {g : Graph} {n : Net} {i : Nat} (h : g.netFault? n i = none) :
    n.source < g.vertices.length ∧ ∀ s ∈ n.sinks, s < g.vertices.length := by
  unfold netFault? at h
  by_contra hn
  rw [if_pos hn] at h
  cases h

theorem sound_of_fault?_eq_none {g : Graph} {m : Machine} (h : g.fault? m = none) : g.Sound := by
  unfold fault? at h
  simp only [Option.or_eq_none_iff, List.findSome?_eq_none_iff] at h
  obtain ⟨⟨⟨⟨hvertices, hnets⟩, _⟩, _⟩, _⟩ := h
  have hnet : ∀ n ∈ g.nets,
      n.source < g.vertices.length ∧ ∀ s ∈ n.sinks, s < g.vertices.length := by
    intro n hn
    obtain ⟨i, hi, rfl⟩ := List.getElem_of_mem hn
    have hmem : (g.nets[i], i) ∈ g.nets.zipIdx :=
      List.mk_mem_zipIdx_iff_getElem?.2 (List.getElem?_eq_getElem hi)
    exact netFault?_eq_none (hnets (g.nets[i], i) hmem)
  have hvertex : ∀ v ∈ g.vertices, v.Sensible :=
    fun v hv => Vertex.vertexFault?_eq_none_iff.1 (hvertices v hv)
  exact ⟨fun v hv => (hvertex v hv).extent, fun v hv => (hvertex v hv).granularity,
    fun n hn => (hnet n hn).1, fun n hn => (hnet n hn).2⟩

theorem validate_eq_ok_iff {g : Graph} {m : Machine} : g.validate m = .ok () ↔ g.fault? m = none := by
  unfold validate
  cases g.fault? m with
  | none => exact iff_of_true rfl rfl
  | some fault => exact iff_of_false nofun nofun

/-- A vertex is pinned to a live chip. -/
theorem live_of_validate {g : Graph} {m : Machine} (h : g.validate m = .ok ()) {v : Nat} {c : Chip}
    (hc : g.location? v = some c) : m.Live c := by
  have hfault := validate_eq_ok_iff.1 h
  unfold fault? at hfault
  simp only [Option.or_eq_none_iff, List.findSome?_eq_none_iff] at hfault
  have hpin := hfault.1.1.2 (v, c) (InsertionMap.get?_eq_some_iff.1 hc)
  by_contra hdead
  cases hvertex : g.vertices[v]? with
  | none => simp [locationFault?, hvertex] at hpin
  | some vertex => simp [locationFault?, hvertex, hdead] at hpin

theorem ends_validate (g : Graph) (m : Machine) :
    Ends (g.validate m) (fun e => (Failure.error e).Expected) fun _ => g.Sound := by
  unfold validate
  cases h : g.fault? m with
  | none => exact .ok (sound_of_fault?_eq_none h)
  | some fault => exact .throw trivial

end Graph

/-! ### The whole graph -/

namespace Partitioning

/-- What a partitioned graph refers to is there. -/
structure Sound (g : Graph) (p : Partitioning) : Prop where
  vertex : ∀ s ∈ p.slices, s.vertex < g.vertices.length
  source : ∀ n ∈ p.nets, n.source < p.slices.size
  sinks : ∀ n ∈ p.nets, ∀ s ∈ n.sinks, s < p.slices.size

theorem Sound.terminals_lt {g : Graph} {p : Partitioning} (h : p.Sound g) {n : SlicedNet}
    (hn : n ∈ p.nets) {s : Nat} (hs : s ∈ n.source :: n.sinks) : s < p.slices.size := by
  rcases List.mem_cons.1 hs with rfl | hs
  · exact h.source n hn
  · exact h.sinks n hn s hs

/-- The slices whose numbers are in a range. -/
def slicesFrom (p : Partitioning) (r : Nat × Nat) : List Slice := (p.slices.toList.take r.2).drop r.1

/-- Some vertices have been cut, and the slices of each follow those of the one before it. -/
structure Cut (profiles : List Resources) (vertices : List Vertex) (p : Partitioning) : Prop where
  consecutive : Consecutive 0 p.ranges.toList p.slices.size
  vertex : ∀ s ∈ p.slices, s.vertex < vertices.length
  tiled : List.Forall₂ (fun e r => r.2 ≤ p.slices.size ∧ e.1.Tiled profiles e.2 (p.slicesFrom r))
    vertices.zipIdx p.ranges.toList

variable {p : Partitioning} {profiles : List Resources} {vertices : List Vertex}

theorem Cut.size_ranges (h : p.Cut profiles vertices) : p.ranges.size = vertices.length := by
  have := h.tiled.length_eq
  simpa using this.symm

theorem Cut.ranges (h : p.Cut profiles vertices) {r : Nat × Nat} (hr : r ∈ p.ranges) :
    r.2 ≤ p.slices.size := by
  obtain ⟨_, _, hle, _⟩ := forall_right h.tiled (Array.mem_toList_iff.2 hr)
  exact hle

theorem cut_empty (profiles : List Resources) : empty.Cut profiles [] :=
  ⟨rfl, by simp [empty], .nil⟩

theorem toList_slices_addSlices (p : Partitioning) (new : List Slice) :
    (p.addSlices new).slices.toList = p.slices.toList ++ new := by
  simp [addSlices]

theorem toList_ranges_addSlices (p : Partitioning) (new : List Slice) :
    (p.addSlices new).ranges.toList =
      p.ranges.toList ++ [(p.slices.size, p.slices.size + new.length)] := by
  simp [addSlices]

/-- The slices of one more vertex come after all others. -/
theorem Cut.addSlices (h : p.Cut profiles vertices) {v : Vertex} {new : List Slice}
    (hnew : v.Tiled profiles vertices.length new) :
    (p.addSlices new).Cut profiles (vertices ++ [v]) := by
  have hsize : (p.addSlices new).slices.size = p.slices.size + new.length := by
    rw [← Array.length_toList, toList_slices_addSlices, List.length_append, Array.length_toList]
  have hold : ∀ r : Nat × Nat, r.2 ≤ p.slices.size →
      (p.addSlices new).slicesFrom r = p.slicesFrom r := by
    intro r hr
    rw [slicesFrom, toList_slices_addSlices, List.take_append_of_le_length (by simpa using hr),
      slicesFrom]
  refine ⟨?_, fun s hs => ?_, ?_⟩
  · rw [toList_ranges_addSlices, hsize]
    exact h.consecutive.append ⟨rfl, rfl⟩
  · rw [← Array.mem_toList_iff, toList_slices_addSlices, List.mem_append] at hs
    rw [List.length_append, List.length_singleton, Nat.lt_succ_iff_lt_or_eq]
    exact hs.imp (fun hs => h.vertex s (Array.mem_toList_iff.1 hs)) (hnew.vertex_eq s)
  · rw [toList_ranges_addSlices, List.zipIdx_append, hsize]
    refine List.rel_append (h.tiled.imp fun e r hr => ?_) (.cons ⟨Nat.le_refl _, ?_⟩ .nil)
    · rw [hold r hr.1]
      exact ⟨Nat.le_add_right_of_le hr.1, hr.2⟩
    · rw [slicesFrom, toList_slices_addSlices, ← Array.length_toList, ← List.length_append,
        List.take_length, List.drop_left, Nat.zero_add]
      exact hnew

theorem Cut.returns_slicesIn (h : p.Cut profiles vertices) {v : Nat} (hv : v < vertices.length) :
    Returns (p.slicesIn v) fun slices => ∀ s ∈ slices, s < p.slices.size := by
  refine Ends.bind (returns_fetch (h.size_ranges ▸ hv)) fun r hr => .pure fun s hs => ?_
  have hle := h.ranges (Array.mem_of_getElem? hr)
  have := List.mem_range'_1.1 hs
  omega

/-- Cutting goes on with the vertices that follow those that have been cut. -/
theorem Cut.ends_cutAll (h : p.Cut profiles vertices) (hnets : p.nets = #[]) {rest : List Vertex}
    (hextent : ∀ v ∈ rest, v.extent ≠ 0) (hgranularity : ∀ v ∈ rest, v.granularity ≠ 0) :
    Ends ((rest.zipIdx vertices.length).foldlM (fun p e => do
        let ranges ← e.1.cut profiles 0 e.1.extent
        return p.addSlices (← Partitioning.slicesOf e.1 e.2 ranges)) p : Outcome Partitioning)
      Failure.Expected fun p => p.Cut profiles (vertices ++ rest) ∧ p.nets = #[] := by
  induction rest generalizing p vertices with
  | nil => exact .pure ⟨by rwa [List.append_nil], hnets⟩
  | cons v rest ih =>
    have hv := hextent v List.mem_cons_self
    rw [List.zipIdx_cons, List.foldlM_cons]
    have hfirst : Ends (do
        let ranges ← v.cut profiles 0 v.extent
        return p.addSlices (← slicesOf v vertices.length ranges) : Outcome Partitioning)
        Failure.Expected fun p => p.Cut profiles (vertices ++ [v]) ∧ p.nets = #[] := by
      refine Ends.bind (v.ends_cut (hgranularity v List.mem_cons_self) profiles
        (Nat.pos_of_ne_zero hv) (Nat.le_refl _) (Nat.dvd_zero _)) fun ranges hranges => ?_
      refine Ends.bind (returns_slicesOf hv hranges.1 hranges.2).lift fun new hnew => ?_
      exact .pure ⟨h.addSlices ⟨ranges, hnew, hranges⟩, hnets⟩
    refine hfirst.bind fun p hp => ?_
    have hrest := ih hp.1 hp.2 (fun v hv => hextent v (List.mem_cons_of_mem _ hv))
      (fun v hv => hgranularity v (List.mem_cons_of_mem _ hv))
    rwa [List.length_append, List.length_singleton, List.append_assoc] at hrest

/-- All vertices of a graph have been cut, and the nets so far join slices. -/
structure Netted (g : Graph) (profiles : List Resources) (p : Partitioning) : Prop
    extends Sound g p, Cut profiles g.vertices p

theorem Cut.netted {g : Graph} (h : p.Cut profiles g.vertices) (hnets : p.nets = #[]) :
    p.Netted g profiles where
  toCut := h
  source := by simp [hnets]
  sinks := by simp [hnets]

theorem Netted.returns_addNets {g : Graph} (hg : g.Sound) (h : p.Netted g profiles) {n : Net}
    (hn : n ∈ g.nets) (i : Nat) : Returns (p.addNets n i) (Netted g profiles) := by
  have hsinks := Ends.mapM (f := p.slicesIn) fun v hv => h.returns_slicesIn (hg.sinks n hn v hv)
  refine Ends.bind hsinks fun sinks hsinks => ?_
  refine Ends.bind (h.returns_slicesIn (hg.source n hn)) fun sources hsources => .pure ?_
  have hsink : ∀ s ∈ (InsertionSet.ofList sinks.flatten).elems, s < p.slices.size := by
    intro s hs
    obtain ⟨slices, hslices, hs⟩ := List.mem_flatten.1 (InsertionSet.mem_elems_ofList.1 hs)
    obtain ⟨_, _, hall⟩ := forall_right hsinks hslices
    exact hall s hs
  refine { h with source := fun net hnet => ?_, sinks := fun net hnet => ?_ }
  all_goals
    rw [← Array.mem_toList_iff, Array.toList_appendList, List.mem_append, Array.mem_toList_iff,
      List.mem_map] at hnet
    rcases hnet with hnet | ⟨s, hs, rfl⟩
  · exact h.source net hnet
  · exact hsources s hs
  · exact h.sinks net hnet
  · exact hsink

/-! ### Nets -/

/-- The numbers of the slices of vertex number `v`. -/
def numbersOf (p : Partitioning) (v : Nat) : List Nat :=
  match p.ranges[v]? with
  | some r => List.range' r.1 (r.2 - r.1)
  | none => []

/-- The slices of the sinks of a flow, each once. -/
def sinksOf (p : Partitioning) (n : Net) : List Nat :=
  (InsertionSet.ofList (n.sinks.flatMap p.numbersOf)).elems

/-- The nets of flow number `i`: one from each slice of its source, to all slices of its sinks. -/
def netsOf (p : Partitioning) (n : Net) (i : Nat) : List SlicedNet :=
  (p.numbersOf n.source).map fun s => ⟨s, p.sinksOf n, n.weight, i⟩

theorem slicesIn_eq_ok {v : Nat} {slices : List Nat} (h : p.slicesIn v = .ok slices) :
    p.numbersOf v = slices := by
  obtain ⟨r, hr, hslices⟩ := bind_eq_ok.1 h
  rw [numbersOf, fetch_eq_ok.1 hr]
  exact pure_eq_ok.1 hslices

theorem addNets_eq_ok {p' : Partitioning} {n : Net} {i : Nat} (h : p.addNets n i = .ok p') :
    p' = { p with nets := p.nets ++ p.netsOf n i } := by
  obtain ⟨sinks, hsinks, h⟩ := bind_eq_ok.1 h
  obtain ⟨sources, hsources, h⟩ := bind_eq_ok.1 h
  have hall : n.sinks.map p.numbersOf = sinks := by
    rw [← List.forall₂_eq_eq_eq, List.forall₂_map_left_iff]
    exact (mapM_eq_ok.1 hsinks).imp fun _ _ => slicesIn_eq_ok
  rw [netsOf, sinksOf, slicesIn_eq_ok hsources, List.flatMap_def, hall]
  exact (pure_eq_ok.1 h).symm

theorem foldlM_addNets_eq_ok {p' : Partitioning} {flows : List (Net × Nat)}
    (h : flows.foldlM (fun p e => p.addNets e.1 e.2) p = .ok p') :
    p' = { p with nets := p.nets ++ flows.flatMap fun e => p.netsOf e.1 e.2 } := by
  induction flows generalizing p with
  | nil =>
    rw [← pure_eq_ok.1 h]
    simp
  | cons e rest ih =>
    rw [List.foldlM_cons] at h
    obtain ⟨p₁, hfirst, hrest⟩ := bind_eq_ok.1 h
    -- nets do not change which slices a vertex has
    have hnets : p₁.netsOf = p.netsOf := by rw [addNets_eq_ok hfirst]; rfl
    have happend : ∀ l l' : List SlicedNet, p.nets ++ l ++ l' = p.nets ++ (l ++ l') :=
      fun l l' => Array.toList_inj.1 (by simp)
    rw [ih hrest, hnets, addNets_eq_ok hfirst, List.flatMap_cons, happend]

/-- All vertices of a graph have been cut, and the nets are those of each flow in turn. -/
structure Expanded (g : Graph) (profiles : List Resources) (p : Partitioning) : Prop
    extends Netted g profiles p where
  nets : p.nets.toList = g.nets.zipIdx.flatMap fun e => p.netsOf e.1 e.2

end Partitioning

/-- Partitioning ends in an error of the input or in a partitioned graph, with the nets of all
flows. -/
theorem Graph.ends_partition_expanded (g : Graph) (m : Machine) :
    Ends (g.partition m) Failure.Expected fun p =>
      g.Sound ∧ p.Expanded g (g.usable m).capacityProfiles := by
  unfold partition
  refine Ends.bind (.liftError (g.ends_validate m)) fun _ hg => ?_
  extract_lets profiles jp
  have hrest : ∀ u, Ends (jp u) Failure.Expected fun p => g.Sound ∧ p.Expanded g profiles := by
    intro u
    refine Ends.bind ((Partitioning.cut_empty profiles).ends_cutAll rfl hg.extent hg.granularity)
      fun sliced hsliced => ?_
    have hnets := Ends.foldlM (l := g.nets.zipIdx) (E := fun _ => False)
      (f := fun p e => Partitioning.addNets p e.1 e.2) (fun _ => Partitioning.Netted g profiles)
      (hsliced.1.netted hsliced.2)
      fun e he _ p hp => hp.returns_addNets hg (List.fst_mem_of_mem_zipIdx he) e.2
    refine (Returns.lift hnets.and_eq).mono fun p ⟨heq, hp⟩ => ⟨hg, hp, ?_⟩
    rw [Partitioning.foldlM_addNets_eq_ok heq, hsliced.2]
    exact Array.toList_appendList
  by_cases hnone : profiles = [] ∧ g.vertices ≠ []
  · rw [if_pos hnone]
    exact (Failure.expected_fail (e := .invalidMachine .noLiveChips) (Q := fun _ => False)
      trivial).bind fun _ h => h.elim
  · rw [if_neg hnone]
    exact hrest ()

theorem Graph.ends_partition_netted (g : Graph) (m : Machine) :
    Ends (g.partition m) Failure.Expected fun p =>
      g.Sound ∧ p.Netted g (g.usable m).capacityProfiles :=
  (g.ends_partition_expanded m).mono fun _ hp => ⟨hp.1, hp.2.toNetted⟩

theorem Graph.ends_partition (g : Graph) (m : Machine) :
    Ends (g.partition m) Failure.Expected (Partitioning.Sound g) :=
  (g.ends_partition_netted m).mono fun _ hp => hp.2.toSound

end HexFabric
