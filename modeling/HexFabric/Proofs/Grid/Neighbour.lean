import HexFabric.Machine.Basic
import HexFabric.Proofs.Grid.Distance

/-! Which link joins two neighbours. `Link.ofOffset?` is given the displacement between them and
takes a component of more than one hop to have gone round the edge. So it is misled in a direction
in which the grid is two chips long, where one hop may have gone round as well. This matters only
for a diagonal link that goes round such a side in just one of its directions: then no link is
found, and otherwise the link that is found leads to the neighbour, `Grid.link_of_displacement`. -/

namespace HexFabric

namespace Link

theorem step_inj {l l' : Link} : l.step = l'.step ↔ l = l' := by
  cases l <;> cases l' <;> decide

theorem step_small (l : Link) :
    (-1 ≤ l.step.dx ∧ l.step.dx ≤ 1) ∧ -1 ≤ l.step.dy ∧ l.step.dy ≤ 1 := by
  cases l <;> decide

/-- The steps of the links are the displacements that take one step. -/
theorem exists_step_eq_iff {d : Offset} : (∃ l : Link, l.step = d) ↔ d.steps = 1 := by
  constructor
  · rintro ⟨l, rfl⟩
    cases l <;> decide
  · intro h
    obtain ⟨hdx, hdy⟩ := Offset.steps_eq_zero_iff.1 (Offset.steps_dropLast h)
    refine ⟨d.lastLink, ?_⟩
    obtain ⟨dx, dy⟩ := d
    exact congrArg₂ Offset.mk (Int.eq_of_sub_eq_zero hdx).symm (Int.eq_of_sub_eq_zero hdy).symm

theorem ofOffset?_eq_some_iff {d : Offset} {l : Link} :
    ofOffset? d = some l ↔ l.step = ⟨unwrap d.dx, unwrap d.dy⟩ := by
  constructor
  · intro h
    simpa using List.find?_some h
  · intro h
    cases hfind : ofOffset? d with
    | none =>
      have hl := List.find?_eq_none.1 hfind l (mem_all l)
      exact absurd h (by simpa using hl)
    | some l' =>
      have hl' : l'.step = ⟨unwrap d.dx, unwrap d.dy⟩ := by simpa using List.find?_some hfind
      rw [step_inj.1 (hl'.trans h.symm)]

theorem ofOffset?_eq_none_iff {d : Offset} :
    ofOffset? d = none ↔ Offset.steps ⟨unwrap d.dx, unwrap d.dy⟩ ≠ 1 := by
  rw [Option.eq_none_iff_forall_ne_some, Ne, ← exists_step_eq_iff, not_exists]
  simp only [Ne, ofOffset?_eq_some_iff]

/-- No link leads backwards in one direction and forwards in the other. -/
theorem step_mul_nonneg (l : Link) : 0 ≤ l.step.dx * l.step.dy := by
  cases l <;> decide

/-- A displacement of at most one hop in each direction takes more than one step just if it leads
forwards in one and backwards in the other. -/
theorem steps_ne_one_iff {dx dy : Int} (hx : -1 ≤ dx ∧ dx ≤ 1) (hy : -1 ≤ dy ∧ dy ≤ 1)
    (hmoved : ¬(dx = 0 ∧ dy = 0)) : Offset.steps ⟨dx, dy⟩ ≠ 1 ↔ dx * dy < 0 := by
  obtain rfl | rfl | rfl : dx = -1 ∨ dx = 0 ∨ dx = 1 := by omega
  all_goals obtain rfl | rfl | rfl : dy = -1 ∨ dy = 0 ∨ dy = 1 := by omega
  all_goals revert hmoved; decide

theorem unwrap_of_small {v : Int} (h : -1 ≤ v ∧ v ≤ 1) : unwrap v = v := if_neg (by omega)

theorem unwrap_of_one_lt {v : Int} (h : 1 < v) : unwrap v = -1 := by
  rw [unwrap, if_pos (by omega), Int.sign_eq_one_of_pos (by omega)]

theorem unwrap_of_lt_neg_one {v : Int} (h : v < -1) : unwrap v = 1 := by
  rw [unwrap, if_pos (by omega), Int.sign_eq_neg_one_of_neg (by omega), Int.neg_neg]

theorem unwrap_small (v : Int) : -1 ≤ unwrap v ∧ unwrap v ≤ 1 := by
  by_cases hsmall : -1 ≤ v ∧ v ≤ 1
  · exact (unwrap_of_small hsmall).symm ▸ hsmall
  · by_cases hpos : 1 < v
    · rw [unwrap_of_one_lt hpos]
      decide
    · rw [unwrap_of_lt_neg_one (by omega)]
      decide

theorem unwrap_eq_zero_iff {v : Int} : unwrap v = 0 ↔ v = 0 := by
  by_cases hsmall : -1 ≤ v ∧ v ≤ 1
  · rw [unwrap_of_small hsmall]
  · by_cases hpos : 1 < v
    · rw [unwrap_of_one_lt hpos]
      omega
    · rw [unwrap_of_lt_neg_one (by omega)]
      omega

end Link

namespace Grid

open Link

/-- A step of `v` from `x` on goes over the end of a side. -/
def Over (side x : Nat) (v : Int) : Prop := ¬(0 ≤ x + v ∧ x + v < side)

/-- A step goes round a side of two chips, where the one back leads to the same place. -/
def Turns (side x : Nat) (v : Int) : Prop := Over side x v ∧ side = 2

/-- A diagonal link goes round a side of two chips in just one of its directions, and the grid is
longer than one chip in both. -/
def Twists (g : Grid) (c : Chip) (l : Link) : Prop :=
  l.step.dx ≠ 0 ∧ l.step.dy ≠ 0 ∧ g.width ≠ 1 ∧ g.height ≠ 1 ∧
    ¬(Turns g.width c.x l.step.dx ↔ Turns g.height c.y l.step.dy)

section Decidable

variable {side x : Nat} {v : Int}

instance : Decidable (Over side x v) :=
  inferInstanceAs (Decidable (¬(0 ≤ x + v ∧ x + v < side)))

instance : Decidable (Turns side x v) := inferInstanceAs (Decidable (Over side x v ∧ side = 2))

instance {g : Grid} {c : Chip} {l : Link} : Decidable (g.Twists c l) :=
  inferInstanceAs (Decidable (_ ∧ _ ∧ _ ∧ _ ∧ ¬(_ ↔ _)))

end Decidable

variable {g : Grid} {c n : Chip} {l : Link}

theorem round_eq (g : Grid) (side : Nat) : g.round side = side ∨ g.round side = 0 := by
  unfold round
  cases g.topology with
  | torus => exact .inl rfl
  | mesh => exact .inr rfl

section Axis

variable {x y side : Nat} {v : Int} (hx : x < side) (hy : y < side) (hv : -1 ≤ v ∧ v ≤ 1)
  (h : x + v ≡ y [ZMOD g.round side])
include hx hy hv h

/-- A step leads on, or from one end of a side to the other one. -/
theorem eq_or_over : (y : Int) = x + v ∨ v = 1 ∧ x + 1 = side ∧ y = 0 ∨
    v = -1 ∧ x = 0 ∧ y + 1 = side := by
  obtain ⟨t, ht⟩ := h.dvd
  rcases g.round_eq side with hround | hround
  · rw [hround] at ht
    have hlow : -1 ≤ t := by
      by_contra hlt
      have : (side : Int) * t ≤ side * (-2) := Int.mul_le_mul_of_nonneg_left (by omega) (by omega)
      omega
    have hhigh : t ≤ 1 := by
      by_contra hlt
      have : (side : Int) * 2 ≤ side * t := Int.mul_le_mul_of_nonneg_left (by omega) (by omega)
      omega
    obtain rfl | rfl | rfl : t = -1 ∨ t = 0 ∨ t = 1 := by omega
    · omega
    · omega
    · omega
  · rw [hround, Int.zero_mul] at ht
    omega

/-- The unwrapped difference is the step again, but turned round if the step went round a side of
two chips, and nothing on a side of one. -/
theorem unwrap_sub_eq :
    unwrap (y - x) = if side = 1 then 0 else if Turns side x v then -v else v := by
  rcases eq_or_over hx hy hv h with hyx | ⟨rfl, hside, rfl⟩ | ⟨rfl, rfl, hside⟩
  · have hstays : ¬Turns side x v := fun hturns => hturns.1 (by omega)
    have hdiff : (y : Int) - x = v := by omega
    rw [hdiff, unwrap_of_small hv, if_neg hstays]
    split_ifs <;> omega
  · have hturns : Turns side x 1 ↔ side = 2 := and_iff_right (fun hinside => by omega)
    simp only [hturns]
    by_cases hsmall : side ≤ 2
    · rw [unwrap_of_small (by omega)]
      split_ifs <;> omega
    · rw [unwrap_of_lt_neg_one (by omega), if_neg (by omega), if_neg (by omega)]
  · have hturns : Turns side 0 (-1) ↔ side = 2 := and_iff_right (fun hinside => by omega)
    simp only [hturns]
    by_cases hsmall : side ≤ 2
    · rw [unwrap_of_small (by omega)]
      split_ifs <;> omega
    · rw [unwrap_of_one_lt (by omega), if_neg (by omega), if_neg (by omega)]

/-- The unwrapped difference leads to the same place, though not always by the same step. -/
theorem add_unwrap_modEq : x + unwrap (y - x) ≡ y [ZMOD g.round side] := by
  by_cases hsmall : -1 ≤ (y : Int) - x ∧ (y : Int) - x ≤ 1
  · rw [unwrap_of_small hsmall, add_sub_cancel]
  · have hside : ¬Turns side x v := fun hturns => by
      have := hturns.2
      omega
    rw [unwrap_sub_eq hx hy hv h, if_neg (by omega), if_neg hside]
    exact h

end Axis

/-- A link that is found for the displacement to a neighbour leads there. -/
theorem neighbour_of_ofOffset? (hc : g.Has c) (h : g.neighbour c l = some n) {l' : Link}
    (hl' : ofOffset? ⟨n.x - c.x, n.y - c.y⟩ = some l') : g.neighbour c l' = some n := by
  obtain ⟨hn, hx, hy⟩ := (neighbour_eq_some_iff hc).1 h
  rw [neighbour_eq_some_iff hc, ofOffset?_eq_some_iff.1 hl']
  exact ⟨hn, add_unwrap_modEq hc.1 hn.1 (step_small l).1 hx,
    add_unwrap_modEq hc.2 hn.2 (step_small l).2 hy⟩

theorem ofOffset?_eq_none_iff_twists (hc : g.Has c) (h : g.neighbour c l = some n) (hne : n ≠ c) :
    ofOffset? ⟨n.x - c.x, n.y - c.y⟩ = none ↔ g.Twists c l := by
  obtain ⟨hn, hleadsX, hleadsY⟩ := (neighbour_eq_some_iff hc).1 h
  obtain ⟨hcx, hcy⟩ := hc
  have hmoved : ¬(unwrap (n.x - c.x) = 0 ∧ unwrap (n.y - c.y) = 0) := by
    rw [unwrap_eq_zero_iff, unwrap_eq_zero_iff]
    rintro ⟨hdx, hdy⟩
    exact hne (congrArg₂ Chip.mk (show n.x = c.x by omega) (show n.y = c.y by omega))
  have hx := unwrap_sub_eq hcx hn.1 (step_small l).1 hleadsX
  have hy := unwrap_sub_eq hcy hn.2 (step_small l).2 hleadsY
  rw [ofOffset?_eq_none_iff, steps_ne_one_iff (unwrap_small _) (unwrap_small _) hmoved, hx, hy,
    Twists]
  by_cases hwidth : g.width = 1
  · simp [hwidth]
  by_cases hheight : g.height = 1
  · simp [hheight]
  have hsame := l.step_mul_nonneg
  have hdiagonal : 0 < l.step.dx * l.step.dy ↔ l.step.dx ≠ 0 ∧ l.step.dy ≠ 0 :=
    hsame.lt_iff_ne'.trans mul_ne_zero_iff
  -- a step turned round in both directions is that of the opposite link
  by_cases hturnsX : Turns g.width c.x l.step.dx <;>
    by_cases hturnsY : Turns g.height c.y l.step.dy
  · simp [hwidth, hheight, hturnsX, hturnsY, hsame]
  · simp [hwidth, hheight, hturnsX, hturnsY, hdiagonal]
  · simp [hwidth, hheight, hturnsX, hturnsY, hdiagonal]
  · simp [hwidth, hheight, hturnsX, hturnsY, hsame]

/-- For the displacement to a neighbour a link is found that leads there, unless the neighbour is
reached by a diagonal link that goes round a side of two chips in just one of its directions. Then
no link is found. -/
theorem link_of_displacement (hc : g.Has c) (h : g.neighbour c l = some n) (hne : n ≠ c) :
    (¬g.Twists c l →
      ∃ l', ofOffset? ⟨n.x - c.x, n.y - c.y⟩ = some l' ∧ g.neighbour c l' = some n) ∧
    (g.Twists c l → ofOffset? ⟨n.x - c.x, n.y - c.y⟩ = none) := by
  have hnone := ofOffset?_eq_none_iff_twists hc h hne
  refine ⟨fun hstraight => ?_, hnone.2⟩
  obtain ⟨l', hl'⟩ := Option.ne_none_iff_exists'.1 (mt hnone.1 hstraight)
  exact ⟨l', hl', neighbour_of_ofOffset? hc h hl'⟩

/-- Where both sides are two chips long the link that is found is another one, but leads to the same
chip. Where only one is, the corner is not found. -/
theorem link_of_displacement_corners :
    (Has ⟨2, 2, .torus⟩ ⟨1, 1⟩ ∧ neighbour ⟨2, 2, .torus⟩ ⟨1, 1⟩ .northEast = some ⟨0, 0⟩ ∧
      Has ⟨2, 3, .torus⟩ ⟨1, 2⟩ ∧ neighbour ⟨2, 3, .torus⟩ ⟨1, 2⟩ .northEast = some ⟨0, 0⟩ ∧
      (⟨0, 0⟩ : Chip) ≠ ⟨1, 1⟩ ∧ (⟨0, 0⟩ : Chip) ≠ ⟨1, 2⟩) ∧
    (∃ l', ofOffset? ⟨-1, -1⟩ = some l' ∧ neighbour ⟨2, 2, .torus⟩ ⟨1, 1⟩ l' = some ⟨0, 0⟩) ∧
    ofOffset? ⟨-1, -2⟩ = none := by
  have hsquare : Has ⟨2, 2, .torus⟩ ⟨1, 1⟩ := by decide
  have hthin : Has ⟨2, 3, .torus⟩ ⟨1, 2⟩ := by decide
  have hdiagonal : neighbour ⟨2, 2, .torus⟩ ⟨1, 1⟩ .northEast = some ⟨0, 0⟩ := by decide
  have hcorner : neighbour ⟨2, 3, .torus⟩ ⟨1, 2⟩ .northEast = some ⟨0, 0⟩ := by decide
  refine ⟨⟨hsquare, hdiagonal, hthin, hcorner, by decide, by decide⟩, ?_, ?_⟩
  · exact (link_of_displacement hsquare hdiagonal (by decide)).1 (by decide)
  · exact (link_of_displacement hthin hcorner (by decide)).2 (by decide)

/-- On a torus two chips wide, the neighbour to the north-east of a chip in the last column is not
found. -/
theorem displacement_misses_neighbour :
    ∃ m, Machine.build ⟨2, 3, .torus⟩ [] = .ok m ∧ m.Has ⟨1, 0⟩ ∧
      m.neighbour ⟨1, 0⟩ .northEast = some ⟨0, 1⟩ ∧ (⟨0, 1⟩ : Chip) ≠ ⟨1, 0⟩ ∧
      ofOffset? ⟨(0 : Nat) - (1 : Nat), (1 : Nat) - (0 : Nat)⟩ = none :=
  ⟨_, rfl, by decide, by decide, by decide, by decide⟩

/-- A displacement does not tell the link: one hop east and one south is a step north-east on a
torus two chips high, and south-west on one that is two chips wide. -/
theorem not_exists_link_of_offset : ¬∃ find : Offset → Option Link,
    ∀ (g : Grid) (c n : Chip) (l : Link), g.Has c → g.neighbour c l = some n → n ≠ c →
      ∃ l', find ⟨n.x - c.x, n.y - c.y⟩ = some l' ∧ g.neighbour c l' = some n := by
  rintro ⟨find, hfind⟩
  obtain ⟨l, hl, hhigh⟩ := hfind ⟨3, 2, .torus⟩ ⟨0, 1⟩ ⟨1, 0⟩ .northEast (by decide) (by decide)
    (by decide)
  obtain ⟨l', hl', hwide⟩ := hfind ⟨2, 3, .torus⟩ ⟨0, 1⟩ ⟨1, 0⟩ .southWest (by decide) (by decide)
    (by decide)
  rw [hl, Option.some.injEq] at hl'
  subst hl'
  have hnorthEast : l = .northEast := by
    revert hhigh
    cases l <;> decide
  rw [hnorthEast] at hwide
  exact absurd hwide (by decide)

end Grid

end HexFabric
