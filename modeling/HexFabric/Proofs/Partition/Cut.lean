import HexFabric.Partition.Build
import HexFabric.Proofs.Resources
import Mathlib.Algebra.GroupWithZero.Nat

/-! Cutting one vertex. The outcome is an error of the input or ranges that follow each other from
the first atom to the last, each of which may be a slice and fits some chip: `Vertex.ends_cut`. So
what their slices demand adds up to the demand of the vertex: `Consecutive.sum_share`. -/

namespace HexFabric

/-- The ranges follow each other from `a` to `b`, each starting where the one before it ends. -/
def Consecutive : Nat → List (Nat × Nat) → Nat → Prop
  | a, [], b => a = b
  | a, r :: rest, b => r.1 = a ∧ Consecutive r.2 rest b

namespace Consecutive

variable {a b c : Nat} {l l' : List (Nat × Nat)}

theorem append (h : Consecutive a l b) (h' : Consecutive b l' c) : Consecutive a (l ++ l') c := by
  induction l generalizing a with
  | nil => exact (show a = b from h) ▸ h'
  | cons r rest ih => exact ⟨h.1, ih h.2⟩

theorem le (h : Consecutive a l b) (hl : ∀ r ∈ l, r.1 ≤ r.2) : a ≤ b := by
  induction l generalizing a with
  | nil => exact Nat.le_of_eq h
  | cons r rest ih =>
    have hr := hl r List.mem_cons_self
    have hrest := ih h.2 fun r hr => hl r (List.mem_cons_of_mem _ hr)
    have := h.1
    omega

/-- Ranges that are not empty lie between the ends. -/
theorem bounds (h : Consecutive a l b) (hl : ∀ r ∈ l, r.1 ≤ r.2) {r : Nat × Nat} (hr : r ∈ l) :
    a ≤ r.1 ∧ r.2 ≤ b := by
  induction l generalizing a with
  | nil => cases hr
  | cons r' rest ih =>
    have hr' := hl r' List.mem_cons_self
    have hrest : ∀ r ∈ rest, r.1 ≤ r.2 := fun r hr => hl r (List.mem_cons_of_mem _ hr)
    have hfirst := h.1
    rcases List.mem_cons.1 hr with rfl | hr
    · exact ⟨Nat.le_of_eq hfirst.symm, h.2.le hrest⟩
    · have := ih h.2 hrest hr
      omega

end Consecutive

/-! ### Shares -/

namespace Resources

variable {r : Resources} {k : Resource} {lo hi extent : Nat}

@[simp] theorem quantity_share (r : Resources) (lo hi extent : Nat) (k : Resource) :
    (r.share lo hi extent).quantity k =
      r.quantity k * hi / extent - r.quantity k * lo / extent := by
  unfold share quantity
  rw [SortedMap.get?_mapValues]
  cases r.get? k with
  | none => simp
  | some q => rfl

/-- More atoms have no less of a quantity. -/
theorem part_mono (q extent : Nat) {m n : Nat} (h : m ≤ n) : q * m / extent ≤ q * n / extent :=
  Nat.div_le_div_right (Nat.mul_le_mul_left _ h)

/-- A range has no more of anything than a range around it. -/
theorem quantity_share_mono (r : Resources) {lo lo' hi hi' : Nat} (hlo : lo' ≤ lo)
    (hhi : hi ≤ hi') (extent : Nat) (k : Resource) :
    (r.share lo hi extent).quantity k ≤ (r.share lo' hi' extent).quantity k := by
  have hend := part_mono (r.quantity k) extent hhi
  have hstart := part_mono (r.quantity k) extent hlo
  rw [quantity_share, quantity_share]
  omega

theorem quantity_share_whole (r : Resources) {extent : Nat} (h : extent ≠ 0) (k : Resource) :
    (r.share 0 extent extent).quantity k = r.quantity k := by
  rw [quantity_share, Nat.mul_div_cancel _ (Nat.pos_of_ne_zero h), Nat.mul_zero, Nat.zero_div,
    Nat.sub_zero]

theorem share?_eq (r : Resources) {lo hi extent : Nat} (hlo : lo ≤ hi) (hhi : hi ≤ extent)
    (h : extent ≠ 0) : r.share? lo hi extent = .ok (r.share lo hi extent) :=
  if_pos ⟨hlo, hhi, Nat.pos_of_ne_zero h⟩

theorem returns_share? (r : Resources) {lo hi extent : Nat} (hlo : lo ≤ hi)
    (hhi : hi ≤ extent) (h : extent ≠ 0) :
    Returns (r.share? lo hi extent) fun d => d = r.share lo hi extent := by
  rw [r.share?_eq hlo hhi h]
  exact .ok rfl

end Resources

/-- The shares of consecutive ranges add up to the share of them all. -/
theorem Consecutive.sum_share {a b : Nat} {l : List (Nat × Nat)} (h : Consecutive a l b)
    (hl : ∀ r ∈ l, r.1 ≤ r.2) (d : Resources) (extent : Nat) (k : Resource) :
    (l.map fun r => (d.share r.1 r.2 extent).quantity k).sum = (d.share a b extent).quantity k := by
  induction l generalizing a with
  | nil =>
    have hab : a = b := h
    simp [hab]
  | cons r rest ih =>
    have hrest : ∀ r ∈ rest, r.1 ≤ r.2 := fun r hr => hl r (List.mem_cons_of_mem _ hr)
    have hlower := Resources.part_mono (d.quantity k) extent (hl r List.mem_cons_self)
    have hupper := Resources.part_mono (d.quantity k) extent (h.2.le hrest)
    rw [List.map_cons, List.sum_cons, ih h.2 hrest]
    simp only [Resources.quantity_share]
    rw [h.1] at hlower ⊢
    omega

/-! ### One vertex -/

namespace Vertex

/-- A range of the atoms of `v` that may be a slice, and that some chip can take. -/
structure Piece (v : Vertex) (profiles : List Resources) (r : Nat × Nat) : Prop where
  nonempty : r.1 < r.2
  aligned : v.granularity ∣ r.1
  short : ∀ most ∈ v.maxSlice, r.2 - r.1 ≤ most
  fits : fitsSome profiles (v.demand.share r.1 r.2 v.extent)

theorem expected_infeasible (v : Vertex) (profiles : List Resources) (atoms : Nat)
    (demand : Resources) : (Failure.error (v.infeasible profiles atoms demand)).Expected := by
  unfold infeasible
  split <;> trivial

theorem dvd_midpoint {v : Vertex} {lo atoms : Nat} (h : v.granularity ∣ lo) :
    v.granularity ∣ v.midpoint lo atoms :=
  Nat.dvd_add h (Nat.dvd_mul_left _ _)

/-- Atoms are cut into consecutive pieces, or some of them fit nowhere. -/
theorem ends_cut {v : Vertex} (hgranularity : v.granularity ≠ 0) (profiles : List Resources)
    {lo hi : Nat} (hlo : lo < hi) (hhi : hi ≤ v.extent) (haligned : v.granularity ∣ lo) :
    Ends (v.cut profiles lo hi) Failure.Expected
      fun ranges => Consecutive lo ranges hi ∧ ∀ r ∈ ranges, v.Piece profiles r := by
  induction hmeasure : hi - lo using Nat.strongRecOn generalizing lo hi with
  | _ d ih =>
    rw [cut]
    refine Ends.bind (v.demand.returns_share? (Nat.le_of_lt hlo) hhi (by omega)).lift
      fun demand hdemand => ?_
    by_cases hfits : ¬v.maxSlice.any (· < hi - lo) ∧ fitsSome profiles demand
    · rw [if_pos hfits]
      refine .pure ⟨⟨rfl, rfl⟩, fun r hr => ?_⟩
      rw [List.mem_singleton.1 hr]
      refine ⟨hlo, haligned, fun most hmost => ?_, hdemand ▸ hfits.2⟩
      rw [Option.mem_def.1 hmost] at hfits
      simpa using hfits.1
    rw [if_neg hfits]
    by_cases hsmall : hi - lo ≤ v.granularity
    · rw [if_pos hsmall]
      exact Failure.expected_fail (v.expected_infeasible profiles _ demand)
    rw [if_neg hsmall, if_neg hgranularity]
    obtain ⟨hlower, hupper⟩ := midpoint_bounds hgranularity (Nat.lt_of_not_le hsmall)
    refine Ends.bind (ih _ (by omega) hlower (by omega) haligned rfl) fun lower hl => ?_
    refine Ends.bind (ih _ (by omega) hupper hhi (dvd_midpoint haligned) rfl) fun upper hu => ?_
    refine .pure ⟨hl.1.append hu.1, fun r hr => ?_⟩
    rcases List.mem_append.1 hr with hr | hr
    · exact hl.2 r hr
    · exact hu.2 r hr

/-- The slice of vertex number `i` that has the atoms of a range. -/
def slice (v : Vertex) (i : Nat) (r : Nat × Nat) : Slice :=
  ⟨i, r.1, r.2, v.demand.share r.1 r.2 v.extent⟩

/-- The slices of vertex number `i` are made of pieces of it, one after the other. -/
def Tiled (v : Vertex) (profiles : List Resources) (i : Nat) (slices : List Slice) : Prop :=
  ∃ pieces, slices = pieces.map (v.slice i) ∧ Consecutive 0 pieces v.extent ∧
    ∀ r ∈ pieces, v.Piece profiles r

theorem Tiled.vertex_eq {v : Vertex} {profiles : List Resources} {i : Nat} {slices : List Slice}
    (h : v.Tiled profiles i slices) : ∀ s ∈ slices, s.vertex = i := by
  obtain ⟨pieces, rfl, _⟩ := h
  intro s hs
  obtain ⟨r, _, rfl⟩ := List.mem_map.1 hs
  rfl

end Vertex

theorem Partitioning.returns_slicesOf {v : Vertex} {profiles : List Resources} {i : Nat}
    {ranges : List (Nat × Nat)} (hextent : v.extent ≠ 0) (h : Consecutive 0 ranges v.extent)
    (hranges : ∀ r ∈ ranges, v.Piece profiles r) :
    Returns (slicesOf v i ranges) fun new => new = ranges.map (v.slice i) := by
  have hle : ∀ r ∈ ranges, r.1 ≤ r.2 := fun r hr => Nat.le_of_lt (hranges r hr).nonempty
  have hslices : Returns (slicesOf v i ranges)
      (List.Forall₂ (fun r s => v.slice i r = s) ranges) := by
    refine Ends.mapM fun r hr => ?_
    refine Ends.bind (v.demand.returns_share? (hle r hr) (h.bounds hle hr).2 hextent)
      fun d hd => .pure ?_
    rw [hd, Vertex.slice]
  refine hslices.mono fun new hnew => ?_
  exact (List.forall₂_eq_eq_eq ▸ List.forall₂_map_left_iff.2 hnew :
    ranges.map (v.slice i) = new).symm

end HexFabric
