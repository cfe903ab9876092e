import HexFabric.Proofs.Machine.Usable
import HexFabric.Proofs.Placement.Valid

/-! Machines that have no more than others. What works in the smaller machine works in the larger
one, and what the smaller one can bear, the larger one can: `Machine.isSubset_preorder`. Placements
alone can be checked on the larger one only if a word can count its chips. -/

namespace HexFabric

namespace Machine

variable {m n k : Machine} {c : Chip} {l : Link}

theorem isSubset_refl (m : Machine) : m.isSubset m :=
  isSubset_iff.2 ⟨Nat.le_refl _, Nat.le_refl _, fun _ => id, fun _ => id,
    fun _ _ => Resources.within_refl _⟩

theorem has_of_isSubset (h : m.isSubset n) (hc : m.Has c) : n.Has c := by
  obtain ⟨hwidth, hheight, _⟩ := isSubset_iff.1 h
  exact ⟨Nat.lt_of_lt_of_le hc.1 hwidth, Nat.lt_of_lt_of_le hc.2 hheight⟩

theorem size_le_of_isSubset (h : m.isSubset n) : m.size ≤ n.size := by
  obtain ⟨hwidth, hheight, _⟩ := isSubset_iff.1 h
  exact Nat.mul_le_mul hwidth hheight

theorem isSubset_trans (h : m.isSubset n) (h' : n.isSubset k) : m.isSubset k := by
  obtain ⟨hwidth, hheight, hchips, hlinks, hwithin⟩ := isSubset_iff.1 h
  obtain ⟨hwidth', hheight', hchips', hlinks', hwithin'⟩ := isSubset_iff.1 h'
  refine isSubset_iff.2 ⟨Nat.le_trans hwidth hwidth', Nat.le_trans hheight hheight',
    fun c hc => hchips c (hchips' c hc), fun l hl => hlinks l (hlinks' l hl), fun c hc => ?_⟩
  exact Resources.within_trans (hwithin c hc) (hwithin' c (has_of_isSubset h hc))

theorem live_of_isSubset (h : m.isSubset n) (hc : m.Live c) : n.Live c := by
  obtain ⟨_, _, hchips, _⟩ := isSubset_iff.1 h
  exact ⟨has_of_isSubset h hc.1, fun hdead => hc.2 (hchips c hdead)⟩

theorem linkLive_of_isSubset (h : m.isSubset n) (hl : m.LinkLive c l) : n.LinkLive c l := by
  obtain ⟨_, _, _, hlinks, _⟩ := isSubset_iff.1 h
  exact ⟨live_of_isSubset h hl.1, fun hdead => hl.2 (hlinks (c, l) hdead)⟩

theorem quantity_le_of_isSubset (h : m.isSubset n) (hc : m.Has c) (r : Resource) :
    (m.resourcesAt c).quantity r ≤ (n.resourcesAt c).quantity r := by
  obtain ⟨_, _, _, _, hwithin⟩ := isSubset_iff.1 h
  exact (Resources.within_iff.1 (hwithin c hc)).2 r

end Machine

/-- A chip that is live only in the larger machine bears nothing. -/
theorem Placement.Fits.of_isSubset {p : Placement} {part : Partitioning} {m n : Machine}
    (h : p.Fits part m) (hsubset : m.isSubset n) : p.Fits part n := by
  refine ⟨⟨h.size, fun c hc => Machine.live_of_isSubset hsubset (h.live c hc)⟩, fun c _ r => ?_⟩
  by_cases hc : m.Live c
  · exact Nat.le_trans (h.load c hc r) (Machine.quantity_le_of_isSubset hsubset hc.1 r)
  · have hnone : p.slicesOn c = [] := by
      refine List.eq_nil_iff_forall_not_mem.2 fun s hs => hc ?_
      exact h.live c (Array.mem_of_getElem? (mem_slicesOn.1 hs))
    rw [hnone, part.load_nil]
    exact Nat.zero_le _

namespace Machine

/-- To have no more than another machine is a preorder. A machine with no more than another has none
but live chips and live links of the other, no chip with more of anything, and, if the chips of the
other can be counted in a word, no valid placement that is not valid on the other. -/
theorem isSubset_preorder :
    (∀ m : Machine, m.isSubset m) ∧
    (∀ m n k : Machine, m.isSubset n → n.isSubset k → m.isSubset k) ∧
    ∀ m n : Machine, m.isSubset n →
      (∀ c, m.Live c → n.Live c) ∧
      (∀ c l, m.LinkLive c l → n.LinkLive c l) ∧
      (∀ c, m.Live c → ∃ less more, m.capacity? c = some less ∧ n.capacity? c = some more ∧
        ∀ r, less.quantity r ≤ more.quantity r) ∧
      (n.size < 2 ^ 32 → ∀ (p : Placement) (part : Partitioning),
        p.isValid part m = .ok true → p.isValid part n = .ok true) := by
  refine ⟨isSubset_refl, fun m n k => isSubset_trans, fun m n h => ⟨fun c => live_of_isSubset h,
    fun c l => linkLive_of_isSubset h, fun c hc => ?_, fun hsize p part hvalid => ?_⟩⟩
  · exact ⟨m.resourcesAt c, n.resourcesAt c, capacity?_of_live hc,
      capacity?_of_live (live_of_isSubset h hc), quantity_le_of_isSubset h hc.1⟩
  · have hsmall := Nat.lt_of_le_of_lt (size_le_of_isSubset h) hsize
    rw [Placement.isValid_eq_ok_iff hsmall] at hvalid
    exact (Placement.isValid_eq_ok_iff hsize).2 (hvalid.of_isSubset h)

/-- A column of three chips. The middle one has one core and a dead link, the last one is dead. -/
def column : Machine where
  toBlueprint := { Blueprint.uniform ⟨1, 3, .mesh⟩ with
    resources := SortedMap.empty.insert .cores 3
    resourceExceptions := .ofList [(⟨0, 1⟩, SortedMap.empty.insert .cores 1)]
    deadChips := .ofList [⟨0, 2⟩]
    deadLinks := .ofList [(⟨0, 1⟩, .south)] }
  valid := Blueprint.fault?_eq_none_iff.1 (by decide +kernel)

/-- Two columns of four chips, in a ring both ways. The same chip is dead, and one has no core. -/
def block : Machine where
  toBlueprint := { Blueprint.uniform ⟨2, 4, .torus⟩ with
    resources := SortedMap.empty.insert .cores 4
    resourceExceptions := .ofList [(⟨1, 2⟩, SortedMap.empty.insert .cores 0)]
    deadChips := .ofList [⟨0, 2⟩] }
  valid := Blueprint.fault?_eq_none_iff.1 (by decide +kernel)

def stack : Partitioning where
  slices := #[⟨0, 0, 1, SortedMap.empty.insert .cores 1⟩, ⟨0, 1, 4, SortedMap.empty.insert .cores 3⟩]
  ranges := #[(0, 2)]
  nets := #[]

def stacked : Placement := ⟨#[⟨0, 1⟩, ⟨0, 0⟩]⟩

theorem isSubset_preorder_column :
    column.isSubset block ∧ ¬block.isSubset column ∧ block.size < 2 ^ 32 ∧
    stacked.isValid stack column = .ok true ∧
    stacked.isValid stack block = .ok true := by
  have hsubset : column.isSubset block := by decide +kernel
  have hvalid : stacked.isValid stack column = .ok true := by decide +kernel
  obtain ⟨_, _, hsmaller⟩ := isSubset_preorder
  obtain ⟨_, _, _, hplacement⟩ := hsmaller column block hsubset
  have hsize : block.size < 2 ^ 32 := by decide
  exact ⟨hsubset, by decide +kernel, hsize, hvalid, hplacement hsize stacked stack hvalid⟩

/-- One chip. -/
def single : Machine where
  toBlueprint := Blueprint.uniform ⟨1, 1, .mesh⟩
  valid := Blueprint.fault?_eq_none_iff.1 (by decide +kernel)

/-- A slice on the only chip has no cell on a larger mesh with too many chips. -/
theorem isValid_fails_on_uncounted :
    single.isSubset uncounted ∧
    (⟨#[⟨0, 0⟩]⟩ : Placement).isValid ⟨#[⟨0, 0, 1, .none⟩], #[(0, 1)], #[]⟩ single = .ok true ∧
    (⟨#[⟨0, 0⟩]⟩ : Placement).isValid ⟨#[⟨0, 0, 1, .none⟩], #[(0, 1)], #[]⟩ uncounted =
      .error .indexOutOfRange := by
  decide +kernel

end Machine

end HexFabric
