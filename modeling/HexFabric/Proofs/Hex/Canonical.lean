import HexFabric.Proofs.Hex.Path

/-! One vector for each place of a grid without edges. The vectors that lead to a place differ by the
same in all three components. They have the same range, which none of them can undercut when the hops
along the three axes are counted, and just one of them has the median zero that it takes to meet it,
`Hex.hops_eq_spread_iff`: `Hex.minimise_canonical`. -/

namespace HexFabric.Hex

/-- One hop along each of the three axes leads back, so `v.shift k` leads where `v` does. -/
def shift (v : Hex) (k : Int) : Hex := ⟨v.x + k, v.y + k, v.z + k⟩

/-- How many hops it takes to go along one axis after the other. -/
def hops (v : Hex) : Int := |v.x| + |v.y| + |v.z|

/-! ### Vectors to the same place -/

theorem exists_shift_iff {u v : Hex} :
    (∃ k, u = v.shift k) ↔ u.x - u.z = v.x - v.z ∧ u.y - u.z = v.y - v.z := by
  obtain ⟨x, y, z⟩ := u
  simp only [shift, Hex.mk.injEq]
  constructor
  · rintro ⟨k, rfl, rfl, rfl⟩
    omega
  · rintro ⟨hx, hy⟩
    exact ⟨z - v.z, by omega⟩

theorem shift_shift (v : Hex) (k j : Int) : (v.shift k).shift j = v.shift (k + j) := by
  simp only [shift, Int.add_assoc]

theorem shift_zero (v : Hex) : v.shift 0 = v := by
  simp only [shift, Int.add_zero]

theorem median_shift (v : Hex) (k : Int) : (v.shift k).median = v.median + k := by
  simp only [median, shift]
  omega

theorem spread_shift (v : Hex) (k : Int) : (v.shift k).spread = v.spread := by
  simp only [spread, shift]
  omega

theorem minimise_eq_shift (v : Hex) : v.minimise = v.shift (-v.median) := rfl

/-- A vector is left as it is if it has median zero already. -/
theorem minimise_of_median (v : Hex) (h : v.median = 0) : v.minimise = v := by
  rw [minimise_eq_shift, h, Int.neg_zero, shift_zero]

theorem minimise_shift (v : Hex) (k : Int) : (v.shift k).minimise = v.minimise := by
  have hback : k + -(v.median + k) = -v.median := by omega
  rw [minimise_eq_shift, minimise_eq_shift, median_shift, shift_shift, hback]

theorem minimise_eq_minimise_iff {u v : Hex} :
    u.minimise = v.minimise ↔ ∃ k, u = v.shift k := by
  constructor
  · intro h
    have hback : u = u.minimise.shift u.median := by
      rw [minimise_eq_shift, shift_shift, Int.add_left_neg, shift_zero]
    rw [h, minimise_eq_shift v, shift_shift] at hback
    exact ⟨_, hback⟩
  · rintro ⟨k, rfl⟩
    exact minimise_shift v k

/-! ### Counting hops -/

theorem spread_le_hops (v : Hex) : v.spread ≤ v.hops := by
  rw [spread_le_iff, hops]
  simp only [Int.abs_eq_natAbs]
  omega

theorem hops_eq_spread_iff {v : Hex} : v.hops = v.spread ↔ v.median = 0 := by
  simp only [hops, spread, median, Int.abs_eq_natAbs]
  omega

theorem hops_minimise (v : Hex) : v.minimise.hops = v.spread := by
  rw [hops_eq_spread_iff.2 v.median_minimise, spread_minimise]

theorem isLeast_hops (v : Hex) : IsLeast (Set.range fun k => (v.shift k).hops) v.spread := by
  refine ⟨⟨-v.median, v.hops_minimise⟩, ?_⟩
  rintro _ ⟨k, rfl⟩
  rw [← v.spread_shift k]
  exact spread_le_hops _

/-- No other vector to the same place takes so few hops. -/
theorem hops_shift_eq_iff (v : Hex) (k : Int) :
    (v.shift k).hops = v.minimise.hops ↔ v.shift k = v.minimise := by
  refine ⟨fun h => ?_, fun h => by rw [h]⟩
  rw [hops_minimise, ← v.spread_shift k, hops_eq_spread_iff] at h
  rw [← v.minimise_shift k, minimise_of_median _ h]

/-- What `minimise` gives differs from `v` by the same in all components. It takes the fewest hops
that a vector to this place can take, which are as many as from the origin to there, and it is the only
one that does. It is the same for two vectors just if they lead to the same place, and is not changed
by minimising again. -/
theorem minimise_canonical (v : Hex) :
    (∃ m, v.minimise = ⟨v.x - m, v.y - m, v.z - m⟩) ∧
      IsLeast (Set.range fun k => (v.shift k).hops) v.minimise.hops ∧
      v.minimise.hops = meshLength ⟨0, 0, 0⟩ v ∧
      (∀ k, (v.shift k).hops = v.minimise.hops ↔ v.shift k = v.minimise) ∧
      (∀ u : Hex, u.minimise = v.minimise ↔ ∃ k, u = v.shift k) ∧
      v.minimise.minimise = v.minimise := by
  refine ⟨⟨v.median, v.minimise_eq⟩, ?_, ?_, v.hops_shift_eq_iff, fun u => minimise_eq_minimise_iff,
    minimise_of_median _ v.median_minimise⟩
  · rw [hops_minimise]
    exact v.isLeast_hops
  · rw [hops_minimise, meshLength_eq_spread]

theorem hops_meshPath (a b : Hex) : (meshPath a b).hops = meshLength a b := hops_minimise (b - a)

/-- On a grid without edges `meshPath` is the one vector from `a` to `b` that takes no more hops than
`meshLength` says. -/
theorem eq_meshPath_iff {a b u : Hex} : u = meshPath a b ↔
    (u.x - u.z = (b.x - b.z) - (a.x - a.z) ∧ u.y - u.z = (b.y - b.z) - (a.y - a.z)) ∧
      u.hops ≤ meshLength a b := by
  have hplace : (u.x - u.z = (b.x - b.z) - (a.x - a.z) ∧ u.y - u.z = (b.y - b.z) - (a.y - a.z)) ↔
      ∃ k, u = (b - a).shift k := by
    rw [exists_shift_iff]
    change _ ↔ u.x - u.z = b.x - a.x - (b.z - a.z) ∧ u.y - u.z = b.y - a.y - (b.z - a.z)
    omega
  rw [hplace]
  constructor
  · rintro rfl
    exact ⟨⟨_, minimise_eq_shift (b - a)⟩, Int.le_of_eq (hops_meshPath a b)⟩
  · rintro ⟨⟨k, rfl⟩, hle⟩
    have hge := (b - a).isLeast_hops.2 ⟨k, rfl⟩
    have hshort : ((b - a).shift k).hops = (b - a).minimise.hops := by
      rw [hops_minimise]
      exact Int.le_antisymm hle hge
    exact (hops_shift_eq_iff (b - a) k).1 hshort

end HexFabric.Hex
