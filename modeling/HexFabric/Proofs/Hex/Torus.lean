import HexFabric.Hex
import Mathlib.Algebra.Order.Group.Int
import Mathlib.Order.Bounds.Basic

/-! How long vectors on the torus are. The vectors that lead from one place to another there are those
that agree round both rings. Each goes round every ring forwards, if at all, or backwards, and so is
no shorter than the best of the four that go round no ring more than once, `Hex.exists_way`:
`Hex.isLeast_torusLength`. -/

namespace HexFabric.Hex

theorem spread_le_iff {v : Hex} {n : Int} : v.spread ≤ n ↔
    (v.x - v.y ≤ n ∧ v.y - v.x ≤ n) ∧ (v.x - v.z ≤ n ∧ v.z - v.x ≤ n) ∧
      (v.y - v.z ≤ n ∧ v.z - v.y ≤ n) ∧ 0 ≤ n := by
  unfold spread
  rcases Int.le_total v.x v.y with hxy | hxy
  · rw [Int.max_eq_right hxy, Int.min_eq_left hxy]
    omega
  · rw [Int.max_eq_left hxy, Int.min_eq_right hxy]
    omega

theorem spread_sub (v : Hex) : spread ⟨v.x - v.z, v.y - v.z, 0⟩ = v.spread := by
  refine eq_of_forall_ge_iff fun n => ?_
  rw [spread_le_iff, spread_le_iff]
  dsimp only
  omega

theorem meshLength_eq_spread (v : Hex) : meshLength ⟨0, 0, 0⟩ v = v.spread := by
  change spread ⟨v.x - 0, v.y - 0, v.z - 0⟩ = v.spread
  simp only [Int.sub_zero]

/-- Going along `v` from `a` one comes to `b`, up to rounds of the rings. -/
def Joins (a b : Hex) (width height : Int) (v : Hex) : Prop :=
  (v.x - v.z) % width = eastward a b width ∧ (v.y - v.z) % height = northward a b height

/-- A number that leaves `r` when divided by `side` is `r` at least, or less than zero by what is
left of `side`. -/
theorem le_or_le_of_emod_eq {v r side : Int} (hside : 0 < side) (h : v % side = r) :
    r ≤ v ∨ v ≤ r - side := by
  have hdiv := Int.mul_ediv_add_emod v side
  rw [h] at hdiv
  rcases Int.lt_or_le v 0 with hv | hv
  · have hneg : v / side ≤ -1 := Int.le_sub_one_of_lt (Int.ediv_neg_of_neg_of_pos hv hside)
    have hround := Int.mul_le_mul_of_nonneg_left hneg (Int.le_of_lt hside)
    omega
  · have hround := Int.mul_nonneg (Int.le_of_lt hside) (Int.ediv_nonneg hv (Int.le_of_lt hside))
    omega

variable {a b v : Hex} {width height : Int}

theorem Joins.torusLength_le (h : Joins a b width height v) (hw : 0 < width) (hh : 0 < height) :
    torusLength a b width height ≤ v.spread := by
  obtain ⟨⟨hxy, hyx⟩, ⟨hx, hx'⟩, ⟨hy, hy'⟩, _⟩ := spread_le_iff.1 (Int.le_refl v.spread)
  unfold torusLength
  simp only [min_le_iff, max_le_iff]
  rcases le_or_le_of_emod_eq hw h.1 with hwest | heast <;>
    rcases le_or_le_of_emod_eq hh h.2 with hsouth | hnorth
  · exact .inl (.inl ⟨by omega, by omega⟩)
  · exact .inr (.inl (by omega))
  · exact .inl (.inr (by omega))
  · exact .inr (.inr ⟨by omega, by omega⟩)

/-! ### The choice among four ways -/

/-- A number of hops and a vector from `a` to `b` that takes so many. -/
structure Way (a b : Hex) (width height : Int) (p : Int × Hex) : Prop where
  joins : Joins a b width height p.2
  hops : p.2.spread = p.1

theorem Way.shorter {p q : Int × Hex} (hp : Way a b width height p)
    (hq : Way a b width height q) : Way a b width height (shorter p q) := by
  unfold Hex.shorter
  split
  · exact hq
  · exact hp

theorem hops_shorter (p q : Int × Hex) : (shorter p q).1 = min p.1 q.1 := by
  unfold shorter
  split <;> omega

theorem way_of_emod {i j hops : Int} (hi : i % width = eastward a b width)
    (hj : j % height = northward a b height) (hhops : spread ⟨i, j, 0⟩ = hops) :
    Way a b width height (hops, ⟨i, j, 0⟩) :=
  ⟨⟨by rw [Int.sub_zero, hi], by rw [Int.sub_zero, hj]⟩, hhops⟩

/-- The vector that is chosen takes the least of the four numbers of hops. -/
theorem exists_way (a b : Hex) (hw : 0 < width) (hh : 0 < height) :
    ∃ p, Way a b width height p ∧ p.1 = torusLength a b width height ∧
      torusPath a b width height = p.2.minimise := by
  obtain ⟨x, hx⟩ : ∃ x, eastward a b width = x := ⟨_, rfl⟩
  obtain ⟨y, hy⟩ : ∃ y, northward a b height = y := ⟨_, rfl⟩
  have hx0 : 0 ≤ x ∧ x < width :=
    hx ▸ ⟨Int.emod_nonneg _ (Int.ne_of_gt hw), Int.emod_lt_of_pos _ hw⟩
  have hy0 : 0 ≤ y ∧ y < height :=
    hy ▸ ⟨Int.emod_nonneg _ (Int.ne_of_gt hh), Int.emod_lt_of_pos _ hh⟩
  have heast : x % width = eastward a b width := by rw [← hx]; exact Int.emod_emod _ _
  have hnorth : y % height = northward a b height := by rw [← hy]; exact Int.emod_emod _ _
  have hwest : (x - width) % width = eastward a b width := by rw [Int.sub_emod_right, heast]
  have hsouth : (y - height) % height = northward a b height := by
    rw [Int.sub_emod_right, hnorth]
  -- each way has the range that it is listed with, as the signs of its components are known
  have hdirect : Way a b width height (max x y, ⟨x, y, 0⟩) :=
    way_of_emod heast hnorth (by unfold spread; dsimp only; omega)
  have hroundX : Way a b width height (width - x + y, ⟨x - width, y, 0⟩) :=
    way_of_emod hwest hnorth (by unfold spread; dsimp only; omega)
  have hroundY : Way a b width height (x + height - y, ⟨x, y - height, 0⟩) :=
    way_of_emod heast hsouth (by unfold spread; dsimp only; omega)
  have hroundBoth : Way a b width height
      (max (width - x) (height - y), ⟨x - width, y - height, 0⟩) :=
    way_of_emod hwest hsouth (by unfold spread; dsimp only; omega)
  refine ⟨_, ((hdirect.shorter hroundX).shorter hroundY).shorter hroundBoth, ?_, ?_⟩
  · rw [hops_shorter, hops_shorter, hops_shorter, min_assoc, torusLength, hx, hy]
  · rw [torusPath, hx, hy]

theorem isLeast_torusLength (a b : Hex) (hw : 0 < width) (hh : 0 < height) :
    IsLeast {n | ∃ v, Joins a b width height v ∧ v.spread = n} (torusLength a b width height) := by
  obtain ⟨p, hp, hlength, -⟩ := exists_way a b hw hh
  refine ⟨⟨p.2, hp.joins, hp.hops.trans hlength⟩, ?_⟩
  rintro _ ⟨u, hu, rfl⟩
  exact hu.torusLength_le hw hh

end HexFabric.Hex
