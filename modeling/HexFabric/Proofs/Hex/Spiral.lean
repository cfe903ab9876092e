import HexFabric.Proofs.Hex.Disc
import Mathlib

/-! One walk passes over a whole disc. Every side of a ring starts where the side before ends, and the
last ends where the first starts, `Hex.chained_sides`. So whoever goes round ring after ring, always
onwards from the place where he is, notes the places that `disc` lists, `Hex.Walker.walkDisc_eq`. No
place is on two sides of a ring, nor on two rings: `Hex.disc_spiral`. -/

namespace HexFabric.Hex

variable {n r radius : Nat} {d p q start step : Offset}

/-- The place to which `n` steps lead. -/
def stop (n : Nat) (start step : Offset) : Offset :=
  ⟨start.dx + n * step.dx, start.dy + n * step.dy⟩

theorem stop_zero : stop 0 start step = start := by
  simp [stop]

theorem stop_succ : stop (n + 1) start step = stop n start step + step := by
  change (⟨_, _⟩ : Offset) = ⟨_, _⟩
  simp only [stop, Offset.mk.injEq]
  constructor <;> (push_cast; ring)

theorem side_succ : side (n + 1) start step = side n start step ++ [stop n start step] := by
  simp [side, stop, List.range_succ]

/-- Sides of `n` steps, the first from `p` on, each from where the one before ends, and the last one
up to `q`. -/
def Chained (n : Nat) (p : Offset) : List (Offset × Offset) → Offset → Prop
  | [], q => p = q
  | (start, step) :: rest, q => p = start ∧ Chained n (stop n start step) rest q

/-- A ring closes. -/
theorem chained_sides (r : Nat) : Chained r ⟨0, -r⟩ (sides r) ⟨0, -r⟩ := by
  simp [Chained, sides, stop]

/-! ### The walk -/

/-- The steps along the six sides of a ring, in the order in which they are walked. -/
def turns : List Offset :=
  [Link.northEast, .north, .west, .southWest, .south, .east].map Link.step

theorem turns_eq (r : Nat) : turns = (sides r).map Prod.snd := rfl

/-- One who notes the places that he leaves. -/
structure Walker where
  noted : List Offset
  place : Offset

namespace Walker

def advance (step : Offset) (w : Walker) : Walker := ⟨w.noted ++ [w.place], w.place + step⟩

def walkSide (n : Nat) (w : Walker) (step : Offset) : Walker := (advance step)^[n] w

/-- Goes down to the next ring and once round it. -/
def walkRing (w : Walker) (r : Nat) : Walker :=
  turns.foldl (walkSide r) { w with place := w.place + Link.south.step }

/-- Goes round the rings from the first to that of `radius`. -/
def walkDisc (radius : Nat) : Walker :=
  (List.range' 1 radius).foldl walkRing ⟨[⟨0, 0⟩], ⟨0, 0⟩⟩

variable {noted : List Offset}

theorem walkSide_eq : walkSide n ⟨noted, start⟩ step =
    ⟨noted ++ side n start step, stop n start step⟩ := by
  unfold walkSide
  induction n with
  | zero => simp [side, stop_zero]
  | succ n ih =>
    rw [Function.iterate_succ_apply', ih, side_succ, stop_succ, ← List.append_assoc]
    rfl

theorem foldl_walkSide {sides : List (Offset × Offset)} (h : Chained n p sides q) :
    (sides.map Prod.snd).foldl (walkSide n) ⟨noted, p⟩ =
      ⟨noted ++ sides.flatMap fun s => side n s.1 s.2, q⟩ := by
  induction sides generalizing noted p with
  | nil =>
    obtain rfl : p = q := h
    simp
  | cons s rest ih =>
    obtain ⟨rfl, hrest⟩ := h
    rw [List.map_cons, List.foldl_cons, walkSide_eq, ih hrest, List.flatMap_cons,
      List.append_assoc]

/-- Round a ring one comes back to the place below the middle. -/
theorem walkRing_eq : walkRing ⟨noted, 0, -r⟩ (r + 1) =
    ⟨noted ++ ring (r + 1), 0, -(r + 1 : Nat)⟩ := by
  have hdown : (⟨0, -r⟩ : Offset) + Link.south.step = ⟨0, -(r + 1 : Nat)⟩ := by
    change (⟨_, _⟩ : Offset) = ⟨_, _⟩
    simp only [Offset.mk.injEq, Link.step]
    omega
  rw [walkRing, turns_eq (r + 1), hdown, foldl_walkSide (chained_sides (r + 1)), ring]

theorem walkDisc_succ : walkDisc (r + 1) = (walkDisc r).walkRing (r + 1) := by
  rw [walkDisc, List.range'_concat, List.foldl_concat, Nat.one_mul, Nat.add_comm 1 r]
  rfl

/-- The places that are noted are those of the disc, in its order. -/
theorem walkDisc_eq (radius : Nat) : walkDisc radius = ⟨disc radius, 0, -radius⟩ := by
  induction radius with
  | zero => rfl
  | succ r ih => rw [walkDisc_succ, ih, walkRing_eq, disc_succ]

end Walker

/-! ### No place twice -/

theorem nodup_side (h : step.dx ≠ 0 ∨ step.dy ≠ 0) : (side n start step).Nodup := by
  refine List.nodup_range.map fun i j hij => ?_
  obtain ⟨hx, hy⟩ := Offset.mk.inj hij
  rcases h with h | h
  · exact Int.ofNat.inj (Int.eq_of_mul_eq_mul_right h (Int.add_left_cancel hx))
  · exact Int.ofNat.inj (Int.eq_of_mul_eq_mul_right h (Int.add_left_cancel hy))

theorem disjoint_sides (r : Nat) : (sides r).Pairwise fun s t =>
    List.Disjoint (side r s.1 s.2) (side r t.1 t.2) := by
  simp only [sides, List.pairwise_cons, List.mem_cons, List.not_mem_nil, or_false, forall_eq_or_imp,
    forall_eq, false_implies, implies_true, List.Pairwise.nil, and_true]
  refine ⟨⟨?_, ?_, ?_, ?_, ?_⟩, ⟨?_, ?_, ?_, ?_⟩, ⟨?_, ?_, ?_⟩, ⟨?_, ?_⟩, ?_⟩
  all_goals
    intro d hd hd'
    obtain ⟨i, hi, hx, hy⟩ := mem_side.1 hd
    obtain ⟨j, hj, hx', hy'⟩ := mem_side.1 hd'
    dsimp only at hx hy hx' hy'
    omega

theorem nodup_ring (r : Nat) : (ring r).Nodup := by
  refine List.nodup_flatMap.2 ⟨?_, disjoint_sides r⟩
  simp [sides, nodup_side]

theorem nodup_disc (radius : Nat) : (disc radius).Nodup := by
  induction radius with
  | zero => simp [disc]
  | succ r ih =>
    rw [disc_succ]
    refine ih.append (nodup_ring (r + 1)) fun d hdisc hring => ?_
    have hle := mem_disc_iff.1 hdisc
    have heq := mem_ring_succ.1 hring
    omega

/-! ### The discs within a disc -/

theorem take_disc (h : r ≤ radius) : (disc radius).take (discSize r) = disc r := by
  have hstart := disc_prefix h
  rw [← length_disc, ← List.prefix_iff_eq_take.1 hstart]

theorem meshLength_origin (d : Offset) : meshLength ⟨0, 0, 0⟩ ⟨d.dx, d.dy, 0⟩ = d.steps := by
  have hnonneg := (spread_le_iff.1 (Int.le_refl (spread ⟨d.dx, d.dy, 0⟩))).2.2.2
  rw [meshLength_eq_spread, Offset.steps, Int.toNat_of_nonneg hnonneg]

/-- The list is that of a walk round ring after ring. It has as many places as the disc, none of them
twice, and for every smaller radius it starts with the places within so many hops of the middle. -/
theorem disc_spiral (radius : Nat) : (Walker.walkDisc radius).noted = disc radius ∧
    (disc radius).length = discSize radius ∧ (disc radius).Nodup ∧
    ∀ r ≤ radius, ∀ d, d ∈ (disc radius).take (discSize r) ↔
      meshLength ⟨0, 0, 0⟩ ⟨d.dx, d.dy, 0⟩ ≤ r := by
  refine ⟨?_, length_disc radius, nodup_disc radius, fun r hr d => ?_⟩
  · rw [Walker.walkDisc_eq]
  · rw [take_disc hr, mem_disc_iff, meshLength_origin, Int.ofNat_le]

/-- A displacement whose components have opposite signs is on the second ring already. -/
theorem disc_spiral_second : (2 ≤ 3 ∧ meshLength ⟨0, 0, 0⟩ ⟨-1, 1, 0⟩ ≤ 2) ∧
    (⟨-1, 1⟩ : Offset) ∈ (disc 3).take (discSize 2) := by
  have hnear : meshLength ⟨0, 0, 0⟩ ⟨-1, 1, 0⟩ ≤ 2 := by decide
  obtain ⟨-, -, -, hrings⟩ := disc_spiral 3
  exact ⟨⟨by decide, hnear⟩, (hrings 2 (by decide) ⟨-1, 1⟩).2 hnear⟩

end HexFabric.Hex
