import HexFabric.Proofs.Hex.Torus
import Mathlib

/-! Shortest vectors on the torus, and not only their lengths. Taking the same from all three
components of a vector changes neither where it leads nor its range, so the vector that is left when
the median is taken off is as short and has no detour, `Hex.minimal_minimise`. That is done to the
vector of the shortest of the four ways: `Hex.torusPath_shortest`. -/

namespace HexFabric.Hex

/-- The middle one of the three components. -/
def median (v : Hex) : Int := max (min v.x v.y) (min (max v.x v.y) v.z)

/-- A vector without a detour: a component is zero, and no two have the same sign. -/
structure Minimal (v : Hex) : Prop where
  zero : v.x = 0 ∨ v.y = 0 ∨ v.z = 0
  opposite : v.x * v.y ≤ 0 ∧ v.y * v.z ≤ 0 ∧ v.z * v.x ≤ 0

theorem minimal_iff {v : Hex} : v.Minimal ↔ v.median = 0 := by
  have hfields : v.Minimal ↔ (v.x = 0 ∨ v.y = 0 ∨ v.z = 0) ∧
      v.x * v.y ≤ 0 ∧ v.y * v.z ≤ 0 ∧ v.z * v.x ≤ 0 :=
    ⟨fun h => ⟨h.zero, h.opposite⟩, fun h => ⟨h.1, h.2⟩⟩
  rw [hfields, mul_nonpos_iff, mul_nonpos_iff, mul_nonpos_iff, median]
  omega

/-! ### Taking the same from all components -/

theorem minimise_eq (v : Hex) :
    v.minimise = ⟨v.x - v.median, v.y - v.median, v.z - v.median⟩ := rfl

theorem median_minimise (v : Hex) : v.minimise.median = 0 := by
  rw [minimise_eq]
  unfold median
  dsimp only
  omega

theorem minimal_minimise (v : Hex) : v.minimise.Minimal := minimal_iff.2 v.median_minimise

theorem spread_minimise (v : Hex) : v.minimise.spread = v.spread := by
  refine eq_of_forall_ge_iff fun n => ?_
  rw [spread_le_iff, spread_le_iff, minimise_eq]
  dsimp only
  omega

variable {a b v : Hex} {width height : Int}

theorem joins_iff : Joins a b width height v ↔
    v.x - v.z ≡ (b.x - b.z) - (a.x - a.z) [ZMOD width] ∧
      v.y - v.z ≡ (b.y - b.z) - (a.y - a.z) [ZMOD height] := Iff.rfl

theorem Joins.minimise (h : Joins a b width height v) : Joins a b width height v.minimise := by
  unfold Joins at *
  rwa [minimise_eq, sub_sub_sub_cancel_right, sub_sub_sub_cancel_right]

/-! ### The shortest vector -/

/-- On a torus whose sides have a length, `torusPath` gives a vector from `a` to `b` up to rounds of
the rings. It has no detour and takes as many hops as `torusLength` says, and no vector from `a` to
`b` takes fewer. -/
theorem torusPath_shortest (a b : Hex) (hw : 1 ≤ width) (hh : 1 ≤ height) :
    ∃ v, torusPath? a b width height = .ok v ∧ torusLength? a b width height = .ok v.spread ∧
      v.median = 0 ∧ v.Minimal ∧
      v.x - v.z ≡ (b.x - b.z) - (a.x - a.z) [ZMOD width] ∧
      v.y - v.z ≡ (b.y - b.z) - (a.y - a.z) [ZMOD height] ∧
      ∀ u : Hex, u.x - u.z ≡ (b.x - b.z) - (a.x - a.z) [ZMOD width] →
        u.y - u.z ≡ (b.y - b.z) - (a.y - a.z) [ZMOD height] → v.spread ≤ u.spread := by
  obtain ⟨p, hway, hlength, hpath⟩ := exists_way a b hw hh
  have hsides : ¬(width = 0 ∨ height = 0) := by omega
  have hspread : p.2.minimise.spread = torusLength a b width height := by
    rw [spread_minimise, hway.hops, hlength]
  obtain ⟨heast, hnorth⟩ := joins_iff.1 hway.joins.minimise
  refine ⟨p.2.minimise, ?_, ?_, p.2.median_minimise, p.2.minimal_minimise, heast, hnorth, ?_⟩
  · rw [torusPath?, onTorus, if_neg hsides, hpath]
  · rw [torusLength?, onTorus, if_neg hsides, hspread]
  · intro u hx hy
    rw [hspread]
    exact (joins_iff.2 ⟨hx, hy⟩).torusLength_le hw hh

/-- One hop west and two hops north, where the coordinates fall by one and by five. -/
theorem torusPath_shortest_falling : ((1 : Int) ≤ 5 ∧ (1 : Int) ≤ 7) ∧
    torusPath? ⟨3, 6, 1⟩ ⟨1, 0, 0⟩ 5 7 = .ok ⟨-1, 2, 0⟩ ∧
    ∀ u : Hex, u.x - u.z ≡ -1 [ZMOD 5] → u.y - u.z ≡ -5 [ZMOD 7] → 3 ≤ u.spread := by
  obtain ⟨v, hv, -, -, -, -, -, hleast⟩ :=
    torusPath_shortest ⟨3, 6, 1⟩ ⟨1, 0, 0⟩ (by decide : (1 : Int) ≤ 5) (by decide : (1 : Int) ≤ 7)
  have hpath : torusPath? ⟨3, 6, 1⟩ ⟨1, 0, 0⟩ 5 7 = .ok ⟨-1, 2, 0⟩ := by decide
  rw [hpath] at hv
  obtain rfl := Except.ok.inj hv
  exact ⟨by decide, hpath, hleast⟩

end HexFabric.Hex
