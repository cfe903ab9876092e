import HexFabric.Proofs.Hex.Disc
import HexFabric.Proofs.Placement.Proposal
import Mathlib

/-! Where one move can take a slice. The displacements that are drawn for a limit are those of at most
as many steps, none of them excepted, so they lead to the chips within the limit, whether they go
round the torus or are stopped by the edges of a mesh: `Annealer.target_within`. -/

namespace HexFabric

namespace Grid

variable {g : Grid} {a b : Chip} {d : Offset} {n : Nat}

/-- Walks of at most `n` steps lead where displacements of at most `n` steps do. -/
theorem exists_leads_iff_exists_walk (ha : g.Has a) (hb : g.Has b) :
    (∃ d : Offset, d.steps ≤ n ∧ g.Leads a d b) ↔ ∃ k ≤ n, g.Walk a k b := by
  constructor
  · rintro ⟨d, hsteps, hleads⟩
    exact ⟨d.steps, hsteps, walk_of_leads ha hb hleads⟩
  · rintro ⟨k, hk, hwalk⟩
    obtain ⟨d, hleads, hsteps⟩ := hwalk.exists_leads ha
    exact ⟨d, Nat.le_trans hsteps hk, hleads⟩

end Grid

namespace Annealer

variable {m : Machine} {a : Annealer m} {longest limit i : Nat} {c n : Chip}

theorem target_eq_ok_iff {t : Option Chip} :
    a.target c i = .ok t ↔ ∃ d, a.offsets[i]? = some d ∧ m.shift c d = t := by
  simp only [target, bind_eq_ok, fetch_eq_ok, pure_eq_ok]

/-- As many displacements are drawn from as there are within the limit. -/
theorem reach_eq (hoffsets : a.offsets = (Hex.disc longest).toArray) (hle : limit ≤ longest) :
    a.reach limit = Hex.discSize limit := by
  have hlength := (Hex.disc_prefix hle).length_le
  rw [Hex.length_disc, Hex.length_disc] at hlength
  rw [reach, hoffsets, List.size_toArray, Hex.length_disc, Nat.min_eq_left hlength]

theorem exists_offset_iff (hoffsets : a.offsets = (Hex.disc longest).toArray)
    (hle : limit ≤ longest) {d : Offset} :
    (∃ i, i < a.reach limit ∧ a.offsets[i]? = some d) ↔ d.steps ≤ limit := by
  rw [reach_eq hoffsets hle, hoffsets]
  simpa using Hex.exists_getElem?_disc_iff hle

/-- The chips to which the displacements drawn for a limit lead. -/
theorem exists_target_iff (hoffsets : a.offsets = (Hex.disc longest).toArray)
    (hle : limit ≤ longest) (hc : m.Has c) (hne : n ≠ c) :
    (∃ i, 1 ≤ i ∧ i < a.reach limit ∧ a.target c i = .ok (some n)) ↔
      m.Has n ∧ ∃ d : Offset, d.steps ≤ limit ∧ m.Leads c d n := by
  constructor
  · rintro ⟨i, _, hi, htarget⟩
    obtain ⟨d, hd, hshift⟩ := target_eq_ok_iff.1 htarget
    obtain ⟨hn, hleads⟩ := (Grid.shift_eq_some_iff hc).1 hshift
    exact ⟨hn, d, (exists_offset_iff hoffsets hle).1 ⟨i, hi, hd⟩, hleads⟩
  · rintro ⟨hn, d, hsteps, hleads⟩
    obtain ⟨i, hi, hd⟩ := (exists_offset_iff hoffsets hle).2 hsteps
    refine ⟨i, ?_, hi, target_eq_ok_iff.2 ⟨d, hd, (Grid.shift_eq_some_iff hc).2 ⟨hn, hleads⟩⟩⟩
    -- the displacement in front is none, and leads to the chip itself
    by_contra hzero
    obtain rfl : i = 0 := by omega
    rw [hoffsets] at hd
    cases hd
    exact hne (Grid.eq_of_leads hc hn hleads (Offset.steps_eq_zero_iff.2 ⟨rfl, rfl⟩)).symm

/-- What can be drawn for a limit takes a slice to no chip off the grid and to none beyond the limit,
and it takes it to every other chip to which so many steps over links of the ideal grid lead. These
are the chips at that distance, if distances fit into a word. The draw itself ends by the bound of
`WordSource.drawUpper`. -/
theorem target_within (hoffsets : a.offsets = (Hex.disc longest).toArray) (hpos : 1 ≤ limit)
    (hle : limit ≤ longest) (hc : m.Has c) :
    (∀ (σ : Type) [WordSource σ] (random : σ), Returns (WordSource.draw 1 (a.reach limit) random)
      fun r => 1 ≤ r.1 ∧ r.1 < a.reach limit) ∧
    (∀ i, 1 ≤ i → i < a.reach limit → Returns (a.target c i)
      fun t => ∀ n, t = some n → m.Has n ∧ m.distance c n ≤ limit) ∧
    (∀ n, m.Has n → n ≠ c →
      ((∃ i, 1 ≤ i ∧ i < a.reach limit ∧ a.target c i = .ok (some n)) ↔
        ∃ k ≤ limit, m.toGrid.Walk c k n)) ∧
    (m.width + m.height ≤ 2 ^ 32 → ∀ n, m.Has n → n ≠ c → m.distance c n ≤ limit →
      ∃ i, 1 ≤ i ∧ i < a.reach limit ∧ a.target c i = .ok (some n)) := by
  refine ⟨fun σ _ random => ?_, fun i _ hi => ?_, fun n hn hne => ?_, fun hsize n hn hne hnear => ?_⟩
  · apply WordSource.returns_draw
    rw [reach_eq hoffsets hle]
    exact Hex.one_lt_discSize hpos
  · have hsize : i < a.offsets.size := Nat.lt_of_lt_of_le hi (Nat.min_le_right _ _)
    have hd : a.offsets[i]? = some a.offsets[i] := Array.getElem?_eq_getElem hsize
    refine returns_iff.2 ⟨m.shift c a.offsets[i], target_eq_ok_iff.2 ⟨_, hd, rfl⟩, fun n hn => ?_⟩
    obtain ⟨hhas, hleads⟩ := (Grid.shift_eq_some_iff hc).1 hn
    have hsteps := (exists_offset_iff hoffsets hle).1 ⟨i, hi, hd⟩
    exact ⟨hhas, Nat.le_trans (Grid.distance_le_of_leads hc hleads) hsteps⟩
  · rw [exists_target_iff hoffsets hle hc hne, and_iff_right hn,
      Grid.exists_leads_iff_exists_walk hc hn]
  · obtain ⟨d, hleads, hsteps⟩ := (Grid.isLeast_steps_distance hsize hc hn).1
    exact (exists_target_iff hoffsets hle hc hne).2 ⟨hn, d, hsteps ▸ hnear, hleads⟩

/-- An annealer that has nothing to place, for moves of up to `most` hops. -/
def idle (m : Machine) (most : Nat) : Annealer m where
  part := ⟨#[], #[], #[]⟩
  sliceNets := #[]
  pinned := #[]
  movable := #[]
  offsets := (Hex.disc most).toArray
  wrap := false

/-- A torus of two rows. -/
def twoRows : Machine where
  toBlueprint := Blueprint.uniform ⟨4, 2, .torus⟩
  valid := Blueprint.fault?_eq_none_iff.1 (by decide +kernel)

/-- One hop takes a slice round both edges. -/
theorem target_within_twoRows :
    ((idle twoRows 3).offsets = (Hex.disc 3).toArray ∧ 1 ≤ 1 ∧ 1 ≤ 3 ∧ twoRows.Has ⟨0, 0⟩) ∧
    (twoRows.width + twoRows.height ≤ 2 ^ 32 ∧ twoRows.distance ⟨0, 0⟩ ⟨3, 1⟩ ≤ 1) ∧
    ∃ i, 1 ≤ i ∧ i < (idle twoRows 3).reach 1 ∧
      (idle twoRows 3).target ⟨0, 0⟩ i = .ok (some ⟨3, 1⟩) := by
  have hc : twoRows.Has ⟨0, 0⟩ := by decide
  have hsize : twoRows.width + twoRows.height ≤ 2 ^ 32 := by decide
  have hnear : twoRows.distance ⟨0, 0⟩ ⟨3, 1⟩ ≤ 1 := by decide
  obtain ⟨_, _, _, hall⟩ :=
    target_within (a := idle twoRows 3) rfl (Nat.le_refl 1) (by decide : 1 ≤ 3) hc
  exact ⟨⟨rfl, by decide, by decide, hc⟩, ⟨hsize, hnear⟩,
    hall hsize ⟨3, 1⟩ (by decide) (by decide) hnear⟩

/-- A mesh with more hops between its corners than a word can count. -/
def vast : Machine where
  toBlueprint := Blueprint.uniform ⟨2 ^ 31 + 1, 2 ^ 31 + 1, .mesh⟩
  valid := Blueprint.fault?_eq_none_iff.1 (by decide +kernel)

/-- The far corner of a vast mesh has distance zero, as a word, and no move goes there. -/
theorem target_misses_far_corner :
    vast.Has ⟨0, 2 ^ 31⟩ ∧ vast.Has ⟨2 ^ 31, 0⟩ ∧ (⟨2 ^ 31, 0⟩ : Chip) ≠ ⟨0, 2 ^ 31⟩ ∧
    (idle vast 1).offsets = (Hex.disc 1).toArray ∧ vast.distance ⟨0, 2 ^ 31⟩ ⟨2 ^ 31, 0⟩ ≤ 1 ∧
    ¬∃ i, 1 ≤ i ∧ i < (idle vast 1).reach 1 ∧
      (idle vast 1).target ⟨0, 2 ^ 31⟩ i = .ok (some ⟨2 ^ 31, 0⟩) := by
  have hc : vast.Has ⟨0, 2 ^ 31⟩ := by decide
  have hne : (⟨2 ^ 31, 0⟩ : Chip) ≠ ⟨0, 2 ^ 31⟩ := by decide
  refine ⟨hc, by decide, hne, rfl, by decide, ?_⟩
  rw [exists_target_iff rfl (Nat.le_refl 1) hc hne]
  rintro ⟨_, d, hsteps, hleads⟩
  rw [Grid.leads_mesh_iff rfl] at hleads
  rw [Offset.steps_le_iff, hleads] at hsteps
  dsimp only at hsteps
  omega

end Annealer

end HexFabric
