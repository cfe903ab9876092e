import HexFabric.Hex.Disc
import HexFabric.Proofs.Grid.Distance
import Mathlib

/-! The places within so many hops, ring by ring. A ring holds the displacements of exactly as many
steps as its radius says, so a disc holds those of at most that many, `Hex.mem_disc_iff`, and it starts
with every smaller disc, `Hex.exists_getElem?_disc_iff`. -/

namespace HexFabric.Hex

variable {r radius : Nat} {d : Offset}

theorem length_ring (r : Nat) : (ring r).length = 6 * r := by
  simp [ring, sides, side]
  omega

theorem disc_succ (r : Nat) : disc (r + 1) = disc r ++ ring (r + 1) := by
  simp [disc, List.range_succ]

theorem length_disc (radius : Nat) : (disc radius).length = discSize radius := by
  induction radius with
  | zero => rfl
  | succ r ih =>
    rw [disc_succ, List.length_append, ih, length_ring, discSize, discSize]
    ring

theorem one_lt_discSize {radius : Nat} (h : 0 < radius) : 1 < discSize radius := by
  have : 0 < radius * (radius + 1) := Nat.mul_pos h (Nat.succ_pos radius)
  rw [discSize, Nat.mul_assoc]
  omega

theorem mem_side {n : Nat} {start step : Offset} : d ∈ side n start step ↔
    ∃ i : Nat, i < n ∧ d.dx = start.dx + i * step.dx ∧ d.dy = start.dy + i * step.dy := by
  obtain ⟨x, y⟩ := d
  simp [side, eq_comm]

/-- The ring of a positive radius holds the displacements of that many steps. -/
theorem mem_ring_succ : d ∈ ring (r + 1) ↔ d.steps = r + 1 := by
  have hsteps : d.steps = r + 1 ↔ d.steps ≤ r + 1 ∧ ¬d.steps ≤ r := by omega
  rw [hsteps, Offset.steps_le_iff, Offset.steps_le_iff]
  simp only [ring, sides, List.mem_flatMap, List.mem_cons, List.not_mem_nil, or_false,
    exists_eq_or_imp, exists_eq_left, mem_side]
  constructor
  · rintro (⟨i, hi, hx, hy⟩ | ⟨i, hi, hx, hy⟩ | ⟨i, hi, hx, hy⟩ | ⟨i, hi, hx, hy⟩ | ⟨i, hi, hx, hy⟩ |
      ⟨i, hi, hx, hy⟩) <;> omega
  · rintro ⟨hle, hnot⟩
    -- from where a displacement lies on the ring follows on which side, and how far along it
    have hside : (0 ≤ d.dx ∧ d.dx ≤ r ∧ d.dy = d.dx - (r + 1)) ∨
        (0 ≤ d.dy ∧ d.dy ≤ r ∧ d.dx = r + 1) ∨ (1 ≤ d.dx ∧ d.dx ≤ r + 1 ∧ d.dy = r + 1) ∨
        (-r ≤ d.dx ∧ d.dx ≤ 0 ∧ d.dy = d.dx + (r + 1)) ∨
        (-r ≤ d.dy ∧ d.dy ≤ 0 ∧ d.dx = -(r + 1)) ∨
        (-(r + 1) ≤ d.dx ∧ d.dx ≤ -1 ∧ d.dy = -(r + 1)) := by
      omega
    rcases hside with h | h | h | h | h | h
    · exact .inl ⟨d.dx.toNat, by omega, by omega, by omega⟩
    · exact .inr (.inl ⟨d.dy.toNat, by omega, by omega, by omega⟩)
    · exact .inr (.inr (.inl ⟨(r + 1 - d.dx).toNat, by omega, by omega, by omega⟩))
    · exact .inr (.inr (.inr (.inl ⟨(-d.dx).toNat, by omega, by omega, by omega⟩)))
    · exact .inr (.inr (.inr (.inr (.inl ⟨(-d.dy).toNat, by omega, by omega, by omega⟩))))
    · exact .inr (.inr (.inr (.inr (.inr ⟨(d.dx + (r + 1)).toNat, by omega, by omega, by omega⟩))))

theorem mem_disc_iff : d ∈ disc radius ↔ d.steps ≤ radius := by
  induction radius with
  | zero =>
    obtain ⟨x, y⟩ := d
    simp [disc, Offset.steps_eq_zero_iff]
  | succ r ih =>
    rw [disc_succ, List.mem_append, ih, mem_ring_succ]
    omega

theorem disc_prefix (h : r ≤ radius) : disc r <+: disc radius := by
  induction radius, h using Nat.le_induction with
  | base => exact List.prefix_refl _
  | succ radius _ ih => exact ih.trans (disc_succ radius ▸ List.prefix_append _ _)

/-- The first places of a disc are those of a smaller one. -/
theorem exists_getElem?_disc_iff (h : r ≤ radius) :
    (∃ i, i < discSize r ∧ (disc radius)[i]? = some d) ↔ d.steps ≤ r := by
  obtain ⟨rest, hrest⟩ := disc_prefix h
  rw [← mem_disc_iff, List.mem_iff_getElem?, ← hrest, ← length_disc]
  refine exists_congr fun i => ⟨fun ⟨hi, hd⟩ => ?_, fun hd => ?_⟩
  · rwa [List.getElem?_append_left hi] at hd
  · have hi : i < (disc r).length := (List.getElem?_eq_some_iff.1 hd).1
    exact ⟨hi, by rwa [List.getElem?_append_left hi]⟩

/-- The first places of a disc, as many as a disc of radius `r` has, are within `r` hops, also where
they are all places of the disc. -/
theorem steps_le_of_getElem?_disc {i : Nat} (hi : i < discSize r) (hd : (disc radius)[i]? = some d) :
    d.steps ≤ r := by
  by_cases h : r ≤ radius
  · exact (exists_getElem?_disc_iff h).1 ⟨i, hi, hd⟩
  · have hsteps := mem_disc_iff.1 (List.mem_of_getElem? hd)
    omega

theorem discArray_eq_ok_iff {places : Array Offset} :
    discArray radius = .ok places ↔ HasRoom radius ∧ (disc radius).toArray = places := by
  unfold discArray
  split_ifs with h
  · rw [Except.ok.injEq, and_iff_right h]
  · exact iff_of_false nofun fun hroom => h hroom.1

end HexFabric.Hex
