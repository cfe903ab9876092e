import HexFabric.Proofs.Partition.Incidence
import HexFabric.Proofs.Partition.Tiling

/-! The nets of a partitioned graph join what its flows join, atom by atom: each atom of a flow's
source is the source of one net of the flow, in whose sinks each atom of a sink vertex has one place
(`Graph.partition_connects`). -/

namespace HexFabric

namespace Consecutive

variable {a b x : Nat} {l : List (Nat × Nat)}

theorem exists_covers (h : Consecutive a l b) (ha : a ≤ x) (hb : x < b) :
    ∃ (i : Nat) (r : Nat × Nat), l[i]? = some r ∧ r.1 ≤ x ∧ x < r.2 := by
  induction l generalizing a with
  | nil =>
    have hab : a = b := h
    omega
  | cons r rest ih =>
    have hstart : r.1 = a := h.1
    by_cases hx : x < r.2
    · exact ⟨0, r, rfl, by omega, hx⟩
    · obtain ⟨i, r', hi, hr'⟩ := ih h.2 (Nat.le_of_not_lt hx)
      exact ⟨i + 1, r', hi, hr'⟩

theorem pairwise (h : Consecutive a l b) (hl : ∀ r ∈ l, r.1 ≤ r.2) :
    l.Pairwise fun r r' => r.2 ≤ r'.1 := by
  induction l generalizing a with
  | nil => exact .nil
  | cons r rest ih =>
    have hrest : ∀ r ∈ rest, r.1 ≤ r.2 := fun r hr => hl r (List.mem_cons_of_mem _ hr)
    exact .cons (fun r' hr' => (h.2.bounds hrest hr').1) (ih h.2 hrest)

end Consecutive

theorem Vertex.Tiled.pairwise {w : Vertex} {profiles : List Resources} {v : Nat}
    {slices : List Slice} (h : w.Tiled profiles v slices) :
    slices.Pairwise fun s s' => s.hi ≤ s'.lo := by
  obtain ⟨pieces, rfl, hconsecutive, hpieces⟩ := h
  exact List.pairwise_map.2 (hconsecutive.pairwise fun r hr => Nat.le_of_lt (hpieces r hr).nonempty)

theorem Vertex.Tiled.exists_covers {w : Vertex} {profiles : List Resources} {v a : Nat}
    {slices : List Slice} (h : w.Tiled profiles v slices) (ha : a < w.extent) :
    ∃ (i : Nat) (s : Slice), slices[i]? = some s ∧ s.vertex = v ∧ s.lo ≤ a ∧ a < s.hi := by
  obtain ⟨pieces, rfl, hconsecutive, _⟩ := h
  obtain ⟨i, r, hi, hlo, hhi⟩ := hconsecutive.exists_covers (Nat.zero_le a) ha
  exact ⟨i, w.slice v r, by rw [List.getElem?_map, hi]; rfl, rfl, hlo, hhi⟩

namespace Partitioning

/-- Slice number `s` has atom number `a` of vertex number `v`. -/
def HasAtom (p : Partitioning) (s v a : Nat) : Prop :=
  ∃ slice, p.slices[s]? = some slice ∧ slice.vertex = v ∧ slice.lo ≤ a ∧ a < slice.hi

variable {p : Partitioning} {profiles : List Resources} {vertices : List Vertex} {g : Graph}

/-! ### Slices -/

theorem mem_numbersOf {v s : Nat} :
    s ∈ p.numbersOf v ↔ ∃ r, p.ranges[v]? = some r ∧ r.1 ≤ s ∧ s < r.2 := by
  unfold numbersOf
  cases p.ranges[v]? with
  | none => simp
  | some r =>
    simp only [List.mem_range'_1, Option.some.injEq, exists_eq_left']
    omega

theorem pairwise_numbersOf (p : Partitioning) (v : Nat) : (p.numbersOf v).Pairwise (· < ·) := by
  unfold numbersOf
  cases p.ranges[v]? with
  | none => exact .nil
  | some r => exact List.pairwise_lt_range'

theorem getElem?_slicesFrom (p : Partitioning) {r : Nat × Nat} {s : Nat} (hlo : r.1 ≤ s)
    (hhi : s < r.2) : (p.slicesFrom r)[s - r.1]? = p.slices[s]? := by
  rw [slicesFrom, List.getElem?_drop, Nat.add_sub_cancel' hlo, List.getElem?_take_of_lt hhi,
    Array.getElem?_toList]

namespace Cut

variable {v s s' a : Nat} {w : Vertex} {r : Nat × Nat} {slice slice' : Slice}

theorem exists_tiled (h : p.Cut profiles vertices) (hr : p.ranges[v]? = some r) :
    ∃ w, vertices[v]? = some w ∧ r.2 ≤ p.slices.size ∧ w.Tiled profiles v (p.slicesFrom r) := by
  obtain ⟨_, he, hle, htiled⟩ := exists_left h.tiled (Array.getElem?_toList.trans hr)
  rw [List.getElem?_zipIdx] at he
  obtain ⟨w, hw, rfl⟩ := Option.map_eq_some_iff.1 he
  rw [Nat.zero_add] at htiled
  exact ⟨w, hw, hle, htiled⟩

/-- A slice belongs to the vertex in whose range its number lies. -/
theorem exists_of_mem_numbersOf (h : p.Cut profiles vertices) (hs : s ∈ p.numbersOf v) :
    ∃ slice, p.slices[s]? = some slice ∧ slice.vertex = v := by
  obtain ⟨r, hr, hlo, hhi⟩ := mem_numbersOf.1 hs
  obtain ⟨w, _, hle, htiled⟩ := h.exists_tiled hr
  have hslice : p.slices[s]? = some p.slices[s] := Array.getElem?_eq_getElem (by omega)
  have hmem := (p.getElem?_slicesFrom hlo hhi).trans hslice
  exact ⟨p.slices[s], hslice, htiled.vertex_eq _ (List.mem_of_getElem? hmem)⟩

theorem mem_numbersOf_iff (h : p.Cut profiles vertices) :
    s ∈ p.numbersOf v ↔ ∃ slice, p.slices[s]? = some slice ∧ slice.vertex = v := by
  refine ⟨h.exists_of_mem_numbersOf, ?_⟩
  rintro ⟨slice, hslice, rfl⟩
  have hlt : s < p.slices.size := (Array.getElem?_eq_some_iff.1 hslice).1
  obtain ⟨i, r, hr, hlo, hhi⟩ := h.consecutive.exists_covers (Nat.zero_le s) hlt
  have hmem : s ∈ p.numbersOf i :=
    mem_numbersOf.2 ⟨r, Array.getElem?_toList.symm.trans hr, hlo, hhi⟩
  obtain ⟨slice', hslice', hvertex⟩ := h.exists_of_mem_numbersOf hmem
  cases hslice.symm.trans hslice'
  rwa [hvertex]

/-- Of two slices of one vertex the one with the lower number ends before the other begins. -/
theorem hi_le_lo (h : p.Cut profiles vertices) (hs : p.slices[s]? = some slice)
    (hs' : p.slices[s']? = some slice') (hvertex : slice.vertex = slice'.vertex) (hlt : s < s') :
    slice.hi ≤ slice'.lo := by
  have hnumber : ∀ {s slice}, p.slices[s]? = some slice → s ∈ p.numbersOf slice.vertex :=
    fun hs => h.mem_numbersOf_iff.2 ⟨_, hs, rfl⟩
  obtain ⟨r, hr, hlo, _⟩ := mem_numbersOf.1 (hnumber hs)
  obtain ⟨r', hr', _, hhi⟩ := mem_numbersOf.1 (hvertex ▸ hnumber hs')
  cases hr.symm.trans hr'
  obtain ⟨w, _, _, htiled⟩ := h.exists_tiled hr
  have hat := (p.getElem?_slicesFrom hlo (by omega)).trans hs
  have hat' := (p.getElem?_slicesFrom (by omega) hhi).trans hs'
  obtain ⟨hi, rfl⟩ := List.getElem?_eq_some_iff.1 hat
  obtain ⟨hi', rfl⟩ := List.getElem?_eq_some_iff.1 hat'
  exact List.pairwise_iff_getElem.1 htiled.pairwise _ _ hi hi' (by omega)

theorem existsUnique_hasAtom (h : p.Cut profiles vertices) (hw : vertices[v]? = some w)
    (ha : a < w.extent) : ∃! s, p.HasAtom s v a := by
  have hv : v < p.ranges.size := h.size_ranges ▸ (List.getElem?_eq_some_iff.1 hw).1
  have hr : p.ranges[v]? = some p.ranges[v] := Array.getElem?_eq_getElem hv
  generalize p.ranges[v] = r at hr
  obtain ⟨w', hw', hle, htiled⟩ := h.exists_tiled hr
  cases hw.symm.trans hw'
  obtain ⟨i, slice, hi, hcovers⟩ := htiled.exists_covers ha
  have hlength : i < (p.slicesFrom r).length := (List.getElem?_eq_some_iff.1 hi).1
  rw [slicesFrom, List.length_drop, List.length_take] at hlength
  have hslice : p.slices[r.1 + i]? = some slice := by
    rw [← p.getElem?_slicesFrom (Nat.le_add_right r.1 i) (by omega), Nat.add_sub_cancel_left, hi]
  refine ⟨r.1 + i, ⟨slice, hslice, hcovers⟩, ?_⟩
  -- another slice with the atom would end before this one begins, or begin after its end
  rintro s ⟨other, hother, hcovers'⟩
  have hvertex : slice.vertex = other.vertex := hcovers.1.trans hcovers'.1.symm
  rcases Nat.lt_trichotomy s (r.1 + i) with hlt | heq | hlt
  · have := h.hi_le_lo hother hslice hvertex.symm hlt
    omega
  · exact heq
  · have := h.hi_le_lo hslice hother hvertex hlt
    omega

end Cut

/-! ### Nets -/

theorem mem_sinksOf (h : p.Cut profiles vertices) {n : Net} {s : Nat} :
    s ∈ p.sinksOf n ↔ ∃ slice, p.slices[s]? = some slice ∧ slice.vertex ∈ n.sinks := by
  simp only [sinksOf, InsertionSet.mem_elems_ofList, List.mem_flatMap, h.mem_numbersOf_iff]
  constructor
  · rintro ⟨v, hv, slice, hslice, rfl⟩
    exact ⟨slice, hslice, hv⟩
  · rintro ⟨slice, hslice, hv⟩
    exact ⟨slice.vertex, hv, slice, hslice, rfl⟩

theorem nodup_sinksOf (p : Partitioning) (n : Net) : (p.sinksOf n).Nodup := InsertionSet.distinct _

theorem mem_netsOf {n : Net} {i : Nat} {net : SlicedNet} :
    net ∈ p.netsOf n i ↔
      net.source ∈ p.numbersOf n.source ∧ net = ⟨net.source, p.sinksOf n, n.weight, i⟩ := by
  rw [netsOf, List.mem_map]
  constructor
  · rintro ⟨s, hs, rfl⟩
    exact ⟨hs, rfl⟩
  · rintro ⟨hs, hnet⟩
    exact ⟨net.source, hs, hnet.symm⟩

theorem existsUnique_getElem? {α : Type} {l : List α} (hl : l.Nodup) {P : α → Prop}
    (h : ∃! a, a ∈ l ∧ P a) : ∃! i : Nat, ∃ a, l[i]? = some a ∧ P a := by
  obtain ⟨a, ⟨ha, hP⟩, hunique⟩ := h
  obtain ⟨i, hi⟩ := List.mem_iff_getElem?.1 ha
  refine ⟨i, ⟨a, hi, hP⟩, ?_⟩
  rintro j ⟨b, hj, hb⟩
  have hlt : j < l.length := (List.getElem?_eq_some_iff.1 hj).1
  rw [hunique b ⟨List.mem_of_getElem? hj, hb⟩, ← hi] at hj
  exact (List.getElem?_inj hlt hl).1 hj

namespace Expanded

variable {n : Net} {i : Nat} {net : SlicedNet}

theorem mem_nets (h : p.Expanded g profiles) :
    net ∈ p.nets ↔ ∃ n, g.nets[net.origin]? = some n ∧ net ∈ p.netsOf n net.origin := by
  rw [← Array.mem_toList_iff, h.nets, List.mem_flatMap]
  constructor
  · rintro ⟨⟨n, i⟩, he, hnet⟩
    have hi : net.origin = i := by rw [(mem_netsOf.1 hnet).2]
    subst hi
    exact ⟨n, List.mk_mem_zipIdx_iff_getElem?.1 he, hnet⟩
  · rintro ⟨n, hn, hnet⟩
    exact ⟨(n, net.origin), List.mk_mem_zipIdx_iff_getElem?.2 hn, hnet⟩

/-- Nets stand by flow, and those of a flow by source. -/
theorem pairwise_nets (h : p.Expanded g profiles) :
    p.nets.toList.Pairwise fun a b =>
      a.origin < b.origin ∨ a.origin = b.origin ∧ a.source < b.source := by
  have horigin : ∀ {n i}, ∀ net ∈ p.netsOf n i, net.origin = i :=
    fun net hnet => by rw [(mem_netsOf.1 hnet).2]
  rw [h.nets, List.pairwise_flatMap]
  refine ⟨fun e _ => ?_, (pairwise_zipIdx _).imp fun hlt a ha b hb => .inl ?_⟩
  · exact List.pairwise_map.2 ((p.pairwise_numbersOf _).imp fun hlt => .inr ⟨rfl, hlt⟩)
  · rwa [horigin a ha, horigin b hb]

theorem nodup_nets (h : p.Expanded g profiles) : p.nets.toList.Nodup :=
  h.pairwise_nets.imp fun hlt heq => by
    subst heq
    omega

theorem existsUnique_net (h : p.Expanded g profiles) (hn : g.nets[i]? = some n) {w : Vertex}
    (hw : g.vertices[n.source]? = some w) {a : Nat} (ha : a < w.extent) :
    ∃! j : Nat, ∃ net : SlicedNet, p.nets[j]? = some net ∧ net.origin = i ∧
      p.HasAtom net.source n.source a := by
  obtain ⟨s, hs, hunique⟩ := h.existsUnique_hasAtom hw ha
  have hflow : ∀ net ∈ p.nets, net.origin = i → net ∈ p.netsOf n i := by
    rintro net hnet rfl
    obtain ⟨n', hn', hnet⟩ := h.mem_nets.1 hnet
    cases hn.symm.trans hn'
    exact hnet
  -- the slice with the atom determines the net; that the net stands once is `nodup_nets`
  have hone : ∃! net, net ∈ p.nets.toList ∧
      net.origin = i ∧ p.HasAtom net.source n.source a := by
    have hnumber : s ∈ p.numbersOf n.source := by
      obtain ⟨slice, hslice, hvertex, _⟩ := hs
      exact h.mem_numbersOf_iff.2 ⟨slice, hslice, hvertex⟩
    refine ⟨⟨s, p.sinksOf n, n.weight, i⟩, ⟨?_, rfl, hs⟩, ?_⟩
    · exact Array.mem_toList_iff.2 (h.mem_nets.2 ⟨n, hn, mem_netsOf.2 ⟨hnumber, rfl⟩⟩)
    · rintro net ⟨hnet, hi, hatom⟩
      rw [(mem_netsOf.1 (hflow net (Array.mem_toList_iff.1 hnet) hi)).2, hunique _ hatom]
  simpa only [Array.getElem?_toList] using existsUnique_getElem? h.nodup_nets hone

end Expanded

end Partitioning

/-- `net` stands for flow `n`: it has the weight of the flow and leads from a slice of its source to
slices of its sinks, among which each atom of each sink has one place. -/
structure SlicedNet.StandsFor (net : SlicedNet) (n : Net) (g : Graph) (p : Partitioning) : Prop where
  weight : net.weight = n.weight
  source : ∃ slice, p.slices[net.source]? = some slice ∧ slice.vertex = n.source
  sinks : ∀ s ∈ net.sinks, ∃ slice, p.slices[s]? = some slice ∧ slice.vertex ∈ n.sinks
  place : ∀ v ∈ n.sinks, ∀ w : Vertex, g.vertices[v]? = some w → ∀ a < w.extent,
    ∃! k : Nat, ∃ s, net.sinks[k]? = some s ∧ p.HasAtom s v a

theorem Partitioning.Cut.standsFor {g : Graph} {profiles : List Resources} {p : Partitioning}
    (h : p.Cut profiles g.vertices) {n : Net} {i : Nat} {net : SlicedNet}
    (hnet : net ∈ p.netsOf n i) : net.StandsFor n g p := by
  obtain ⟨hsource, hnet⟩ := mem_netsOf.1 hnet
  have hsinks : net.sinks = p.sinksOf n := by rw [hnet]
  refine ⟨by rw [hnet], h.mem_numbersOf_iff.1 hsource, fun s hs => ?_, fun v hv w hw a ha => ?_⟩
  · exact (mem_sinksOf h).1 (hsinks ▸ hs)
  · rw [hsinks]
    refine existsUnique_getElem? (p.nodup_sinksOf n) ?_
    obtain ⟨s, hs, hunique⟩ := h.existsUnique_hasAtom hw ha
    refine ⟨s, ⟨?_, hs⟩, fun s' hs' => hunique s' hs'.2⟩
    obtain ⟨slice, hslice, rfl, _⟩ := hs
    exact (mem_sinksOf h).2 ⟨slice, hslice, hv⟩

/-- The nets of a partitioned graph stand for its flows. Each atom of the source of a flow is the
source of one net of the flow. Nets come in the order of their flows and, of one flow, of their
sources; those of one flow have the same sinks. A table lists for each slice the nets that join
it. -/
theorem Graph.partition_connects {g : Graph} {m : Machine} {part : Partitioning}
    (h : g.partition m = .ok part) :
    (∀ net ∈ part.nets, ∃ n, g.nets[net.origin]? = some n ∧ net.StandsFor n g part) ∧
    (∀ (i : Nat) (n : Net), g.nets[i]? = some n →
      ∀ w : Vertex, g.vertices[n.source]? = some w → ∀ a < w.extent,
        ∃! j : Nat, ∃ net : SlicedNet, part.nets[j]? = some net ∧ net.origin = i ∧
          part.HasAtom net.source n.source a) ∧
    (part.nets.toList.Pairwise fun a b =>
      a.origin < b.origin ∨ a.origin = b.origin ∧ a.source < b.source) ∧
    (∀ a ∈ part.nets, ∀ b ∈ part.nets, a.origin = b.origin → a.sinks = b.sinks) ∧
    ∃ table, part.sliceNets = .ok table ∧ part.Incidence table := by
  obtain ⟨_, hpart⟩ := (g.ends_partition_expanded m).of_eq_ok h
  refine ⟨fun net hnet => ?_, fun i n hn w hw a ha => hpart.existsUnique_net hn hw ha,
    hpart.pairwise_nets, fun a ha b hb hab => ?_, returns_iff.1 hpart.returns_sliceNets⟩
  · obtain ⟨n, hn, hnet⟩ := hpart.mem_nets.1 hnet
    exact ⟨n, hn, hpart.standsFor hnet⟩
  · obtain ⟨n, hn, ha⟩ := hpart.mem_nets.1 ha
    obtain ⟨n', hn', hb⟩ := hpart.mem_nets.1 hb
    rw [hab] at hn
    cases hn.symm.trans hn'
    rw [(Partitioning.mem_netsOf.1 ha).2, (Partitioning.mem_netsOf.1 hb).2]

/-- A flow of the layer to itself, named twice, and to its input, and one back. -/
def looped : Graph :=
  { layered with nets := [⟨1, [1, 0, 1], .one⟩, ⟨0, [1], ⟨0x4000000000000000⟩⟩] }

def loopedPart : Partitioning :=
  { layeredPart with
    nets := #[⟨1, [1, 2, 3, 4, 0], .one, 0⟩, ⟨2, [1, 2, 3, 4, 0], .one, 0⟩,
      ⟨3, [1, 2, 3, 4, 0], .one, 0⟩, ⟨4, [1, 2, 3, 4, 0], .one, 0⟩,
      ⟨0, [1, 2, 3, 4], ⟨0x4000000000000000⟩, 1⟩] }

theorem Graph.partition_connects_looped :
    looped.partition pair = .ok loopedPart ∧
    (∃! j : Nat, ∃ net : SlicedNet, loopedPart.nets[j]? = some net ∧ net.origin = 0 ∧
      loopedPart.HasAtom net.source 1 7) ∧
    (∃! k : Nat, ∃ s : Nat, [1, 2, 3, 4, 0][k]? = some s ∧ loopedPart.HasAtom s 1 9) ∧
    ∃ table, loopedPart.sliceNets = .ok table ∧ loopedPart.Incidence table := by
  have h : looped.partition pair = .ok loopedPart := by cbv
  obtain ⟨hnets, hsource, _, _, htable⟩ := Graph.partition_connects h
  refine ⟨h, hsource 0 _ rfl _ rfl 7 (by decide), ?_, htable⟩
  obtain ⟨n, hn, hfirst⟩ := hnets _ (Array.mem_of_getElem? (i := 0) rfl)
  cases hn
  exact hfirst.place 1 (by decide) _ rfl 9 (by decide)

end HexFabric
