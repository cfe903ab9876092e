import HexFabric.Graph
import Mathlib.Algebra.GroupWithZero.Nat

/-! Cells, live chips and hops. Cells tell the chips of a grid apart as long as a word can count them,
a hop leads from one live chip to another, and what is withheld from a machine changes none of this. -/

namespace HexFabric

namespace Grid

variable {g : Grid} {a b c : Chip}

/-! ### Cells -/

theorem place_lt (h : g.Has c) : c.x * g.height + c.y < g.size := by
  have hx : (c.x + 1) * g.height ≤ g.width * g.height := Nat.mul_le_mul_right _ h.1
  rw [Nat.add_mul, Nat.one_mul] at hx
  have hy := h.2
  unfold size
  omega

/-- Different chips of a grid have different places by columns. -/
theorem place_inj (ha : g.Has a) (hb : g.Has b) :
    a.x * g.height + a.y = b.x * g.height + b.y ↔ a = b := by
  refine ⟨fun h => ?_, fun h => h ▸ rfl⟩
  have hpos : 0 < g.height := Nat.lt_of_le_of_lt (Nat.zero_le _) ha.2
  have hx : a.x = b.x := by
    have hdiv := congrArg (· / g.height) h
    simpa only [Nat.mul_comm _ g.height, Nat.mul_add_div hpos, Nat.div_eq_of_lt ha.2,
      Nat.div_eq_of_lt hb.2, Nat.add_zero] using hdiv
  rw [hx] at h
  cases a; cases b
  simp only [Chip.mk.injEq] at hx ⊢
  exact ⟨hx, Nat.add_left_cancel h⟩

/-- Every place is that of a chip. -/
theorem exists_place {i : Nat} (h : i < g.size) : ∃ c, g.Has c ∧ c.x * g.height + c.y = i := by
  have hpos : 0 < g.height := Nat.pos_of_mul_pos_left (Nat.zero_lt_of_lt h)
  refine ⟨⟨i / g.height, i % g.height⟩, ⟨?_, Nat.mod_lt _ hpos⟩, ?_⟩
  · exact Nat.div_lt_of_lt_mul (Nat.mul_comm _ _ ▸ h)
  · exact Nat.div_add_mod' i g.height

theorem cells_eq (hsize : g.size < 2 ^ 32) : g.cells = g.size := Nat.mod_eq_of_lt hsize

theorem cell_eq (hsize : g.size < 2 ^ 32) (h : g.Has c) : g.cell c = c.x * g.height + c.y :=
  Nat.mod_eq_of_lt (Nat.lt_trans (place_lt h) hsize)

theorem cell_lt (hsize : g.size < 2 ^ 32) (h : g.Has c) : g.cell c < g.cells := by
  rw [cell_eq hsize h, cells_eq hsize]
  exact place_lt h

/-- Different chips of a grid have different cells. -/
theorem cell_inj (hsize : g.size < 2 ^ 32) (ha : g.Has a) (hb : g.Has b) :
    g.cell a = g.cell b ↔ a = b := by
  rw [cell_eq hsize ha, cell_eq hsize hb, place_inj ha hb]

/-- Where the number of chips is no word, a cell that is kept is shared: the chips whose places
differ by one round have it. -/
theorem exists_cell_eq (hsize : 2 ^ 32 ≤ g.size) (hc : g.Has c) (hkept : g.cell c < g.cells) :
    ∃ d, g.Has d ∧ d ≠ c ∧ g.cell d = g.cell c := by
  have hplace := place_lt hc
  have hround : UInt32.size = 2 ^ 32 := rfl
  rw [cell, cells, hround] at hkept
  obtain ⟨i, hi, hne, heq⟩ : ∃ i < g.size, i ≠ c.x * g.height + c.y ∧
      i % 2 ^ 32 = (c.x * g.height + c.y) % 2 ^ 32 := by
    by_cases hlow : c.x * g.height + c.y < 2 ^ 32
    · exact ⟨c.x * g.height + c.y + 2 ^ 32, by omega, by omega, by omega⟩
    · exact ⟨c.x * g.height + c.y - 2 ^ 32, by omega, by omega, by omega⟩
  obtain ⟨d, hd, rfl⟩ := exists_place hi
  exact ⟨d, hd, fun hdc => hne (hdc ▸ rfl), heq⟩

/-! ### The scan -/

@[simp] theorem mem_chips : c ∈ g.chips ↔ g.Has c := by
  unfold chips Has
  simp only [List.mem_flatMap, List.mem_map, List.mem_range]
  constructor
  · rintro ⟨x, hx, y, hy, rfl⟩
    exact ⟨hx, hy⟩
  · exact fun h => ⟨c.x, h.1, c.y, h.2, rfl⟩

/-- The scan goes up. -/
theorem pairwise_chips (g : Grid) : g.chips.Pairwise (· < ·) := by
  unfold chips
  rw [List.pairwise_flatMap]
  refine ⟨fun x _ => List.pairwise_map.2 ?_, ?_⟩
  · exact List.pairwise_lt_range.imp fun hy => .inr ⟨rfl, hy⟩
  · refine List.pairwise_lt_range.imp fun {x x'} hx a ha b hb => .inl ?_
    obtain ⟨y, _, rfl⟩ := List.mem_map.1 ha
    obtain ⟨y', _, rfl⟩ := List.mem_map.1 hb
    exact hx

end Grid

namespace Machine

variable {m : Machine} {c n : Chip} {l : Link}

@[simp] theorem mem_liveChips : c ∈ m.liveChips ↔ m.Live c := by
  rw [liveChips, List.mem_filter, Grid.mem_chips, decide_eq_true_eq]
  exact ⟨fun h => h.2, fun h => ⟨h.1, h⟩⟩

theorem pairwise_liveChips (m : Machine) : m.liveChips.Pairwise (· < ·) :=
  m.pairwise_chips.filter _

theorem live_of_hop (h : m.hop c l = some n) : m.Live c ∧ m.Live n := by
  unfold hop at h
  by_cases hlink : m.LinkLive c l
  · rw [if_pos hlink, Option.filter_eq_some_iff] at h
    exact ⟨hlink.1, by simpa using h.2⟩
  · rw [if_neg hlink] at h
    cases h

theorem capacity?_of_live (h : m.Live c) : m.capacity? c = some (m.resourcesAt c) := if_pos h

theorem capacity?_of_not_live (h : ¬m.Live c) : m.capacity? c = none := if_neg h

/-! ### Too many chips -/

/-- A mesh with one chip more than a word can count. No cells are kept for its chips. -/
def uncounted : Machine where
  toBlueprint := Blueprint.uniform ⟨65536, 65536, .mesh⟩
  valid := Blueprint.fault?_eq_none_iff.1 (by decide +kernel)

example : uncounted.cells = 0 := rfl

/-- Two columns with two chips more than that. Cells are kept for two chips, and others share
them. -/
def overlapping : Machine where
  toBlueprint := Blueprint.uniform ⟨2, 2147483649, .mesh⟩
  valid := Blueprint.fault?_eq_none_iff.1 (by decide +kernel)

example : overlapping.cells = 2 ∧ overlapping.cell ⟨1, 2147483647⟩ = overlapping.cell ⟨0, 0⟩ := by
  decide

/-! ### Reservations -/

/-- `m` and `n` have the same grid and the same dead chips. -/
structure SameChips (m n : Machine) : Prop where
  toGrid : m.toGrid = n.toGrid
  deadChips : m.deadChips = n.deadChips

theorem SameChips.live_iff {m n : Machine} (h : SameChips m n) : m.Live c ↔ n.Live c := by
  unfold Live
  rw [h.toGrid, h.deadChips]

theorem SameChips.liveChips_eq {m n : Machine} (h : SameChips m n) : m.liveChips = n.liveChips := by
  unfold liveChips
  rw [h.toGrid]
  simp only [h.live_iff]

theorem SameChips.size_eq {m n : Machine} (h : SameChips m n) : m.size = n.size := by
  rw [h.toGrid]

/-- `m` and `n` have the same dead links as well. -/
structure SameLinks (m n : Machine) : Prop extends SameChips m n where
  deadLinks : m.deadLinks = n.deadLinks

theorem SameLinks.linkLive_iff {m n : Machine} (h : SameLinks m n) :
    m.LinkLive c l ↔ n.LinkLive c l := by
  unfold LinkLive
  rw [h.live_iff, h.deadLinks]

/-- How many wrap-around links work does not depend on what the chips offer. -/
theorem SameLinks.wraps_eq {m n : Machine} (h : SameLinks m n) (fraction : Float) :
    m.wraps fraction = n.wraps fraction := by
  have hedge : m.edgeLinks = n.edgeLinks := by
    unfold edgeLinks overEdge
    rw [h.toGrid]
  unfold wraps
  simp only [h.toGrid, hedge, h.linkLive_iff]

theorem sameLinks_reserve (m : Machine) (r : Resources) (c : Option Chip) :
    SameLinks (m.reserve r c) m := by
  cases c with
  | none => exact ⟨⟨rfl, rfl⟩, rfl⟩
  | some c =>
    unfold reserve reserveAt
    by_cases h : m.Live c
    · simp only [h, dite_true]
      exact ⟨⟨rfl, rfl⟩, rfl⟩
    · simp only [h, dite_false]
      exact ⟨⟨rfl, rfl⟩, rfl⟩

end Machine

/-- What a graph reserves takes no chip and no link away. -/
theorem Graph.sameLinks_usable (g : Graph) (m : Machine) : Machine.SameLinks (g.usable m) m := by
  unfold usable
  generalize g.reservations = reservations
  induction reservations generalizing m with
  | nil => exact ⟨⟨rfl, rfl⟩, rfl⟩
  | cons r rest ih =>
    have hfirst := m.sameLinks_reserve r.resources r.location
    have hrest := ih (m.reserve r.resources r.location)
    exact ⟨⟨hrest.toGrid.trans hfirst.toGrid, hrest.deadChips.trans hfirst.deadChips⟩,
      hrest.deadLinks.trans hfirst.deadLinks⟩

end HexFabric
