import HexFabric.Proofs.Machine
import HexFabric.Proofs.Partition
import Mathlib

/-! What the slices of a partitioned graph make up. They are numbered vertex by vertex, and those of a
vertex are its atoms from the first to the last, cut at multiples of the granularity, with its demand
shared out among them; each of them fits a live chip of the usable machine:
`Graph.partition_tiles`. -/

namespace HexFabric

/-- A demand that fits one of the capacities of a machine fits a live chip. -/
theorem Machine.fitsSome_capacityProfiles {m : Machine} {demand : Resources} :
    Vertex.fitsSome m.capacityProfiles demand ↔
      ∃ c, m.Live c ∧ demand.fitsWithin (m.resourcesAt c) := by
  simp [Vertex.fitsSome, capacityProfiles]

namespace Vertex

/-- Slices that make up vertex number `i`, and each of which some live chip of the machine can
take. -/
structure MadeUpOf (v : Vertex) (i : Nat) (m : Machine) (slices : List Slice) : Prop where
  vertex : ∀ s ∈ slices, s.vertex = i
  consecutive : Consecutive 0 (slices.map fun s => (s.lo, s.hi)) v.extent
  nonempty : ∀ s ∈ slices, s.lo < s.hi
  aligned : ∀ s ∈ slices, v.granularity ∣ s.lo
  short : ∀ s ∈ slices, ∀ most ∈ v.maxSlice, s.atoms ≤ most
  demand : ∀ k, (slices.map (·.demand.quantity k)).sum = v.demand.quantity k
  fits : ∀ s ∈ slices, ∃ c, m.Live c ∧ s.demand.fitsWithin (m.resourcesAt c)

theorem Tiled.madeUpOf {v : Vertex} {i : Nat} {m : Machine} {slices : List Slice}
    (h : v.Tiled m.capacityProfiles i slices) (hextent : v.extent ≠ 0) : v.MadeUpOf i m slices := by
  have hvertex := h.vertex_eq
  obtain ⟨pieces, rfl, hconsecutive, hpieces⟩ := h
  have hall : ∀ {P : Slice → Prop}, (∀ r ∈ pieces, P (v.slice i r)) →
      ∀ s ∈ pieces.map (v.slice i), P s := by
    intro P hP s hs
    obtain ⟨r, hr, rfl⟩ := List.mem_map.1 hs
    exact hP r hr
  refine ⟨hvertex, ?_, hall fun r hr => (hpieces r hr).nonempty,
    hall fun r hr => (hpieces r hr).aligned, hall fun r hr => (hpieces r hr).short, fun k => ?_,
    hall fun r hr => Machine.fitsSome_capacityProfiles.1 (hpieces r hr).fits⟩
  · rw [List.map_map]
    exact (List.map_id pieces).symm ▸ hconsecutive
  · have hsum := hconsecutive.sum_share (fun r hr => Nat.le_of_lt (hpieces r hr).nonempty) v.demand
      v.extent k
    rw [v.demand.quantity_share_whole hextent] at hsum
    rw [List.map_map]
    exact hsum

end Vertex

/-- The slices of a partitioned graph are numbered vertex by vertex, and those of each vertex make it
up. -/
theorem Graph.partition_tiles {g : Graph} {m : Machine} {part : Partitioning}
    (h : g.partition m = .ok part) :
    part.ranges.size = g.vertices.length ∧ Consecutive 0 part.ranges.toList part.slices.size ∧
      ∀ (i : Nat) (v : Vertex), g.vertices[i]? = some v → ∃ r, part.ranges[i]? = some r ∧
        v.MadeUpOf i (g.usable m) (part.slicesFrom r) := by
  obtain ⟨hg, hpart⟩ := (g.ends_partition_netted m).of_eq_ok h
  refine ⟨hpart.size_ranges, hpart.consecutive, fun i v hv => ?_⟩
  have he : g.vertices.zipIdx[i]? = some (v, i) := by simp [hv]
  obtain ⟨r, hr, _, htiled⟩ := exists_right hpart.tiled he
  exact ⟨r, by rwa [Array.getElem?_toList] at hr,
    htiled.madeUpOf (hg.extent v (List.mem_of_getElem? hv))⟩

/-- Two chips with four cores each. -/
def pair : Machine where
  toBlueprint := { Blueprint.uniform ⟨2, 1, .mesh⟩ with
    resources := SortedMap.empty.insert .cores 4 }
  valid := Blueprint.fault?_eq_none_iff.1 (by decide +kernel)

/-- Ten atoms in granules of three, six of them at most in a slice, with a core of each chip
withheld. -/
def layered : Graph where
  vertices := [⟨"input", 1, .none, 1, none⟩, ⟨"layer", 10, SortedMap.empty.insert .cores 10, 3, some 6⟩]
  nets := [⟨0, [1], .one⟩]
  locations := .empty
  endpoints := .empty
  reservations := [⟨SortedMap.empty.insert .cores 1, none⟩]

def layeredPart : Partitioning where
  slices := #[⟨0, 0, 1, .none⟩, ⟨1, 0, 3, SortedMap.empty.insert .cores 3⟩,
    ⟨1, 3, 6, SortedMap.empty.insert .cores 3⟩, ⟨1, 6, 9, SortedMap.empty.insert .cores 3⟩,
    ⟨1, 9, 10, SortedMap.empty.insert .cores 1⟩]
  ranges := #[(0, 1), (1, 5)]
  nets := #[⟨0, [1, 2, 3, 4], .one, 0⟩]

theorem Graph.partition_tiles_layered :
    layered.partition pair = .ok layeredPart ∧
    Consecutive 0 [(0, 3), (3, 6), (6, 9), (9, 10)] 10 ∧
    ∀ s ∈ layeredPart.slicesFrom (1, 5),
      ∃ c, (layered.usable pair).Live c ∧ s.demand.fitsWithin ((layered.usable pair).resourcesAt c) := by
  have h : layered.partition pair = .ok layeredPart := by cbv
  obtain ⟨r, hr, hv⟩ := (Graph.partition_tiles h).2.2 1 _ rfl
  cases hr
  exact ⟨h, hv.consecutive, hv.fits⟩

end HexFabric
