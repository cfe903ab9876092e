import HexFabric.Grid
import HexFabric.Proofs.Hex.Torus
import Mathlib

/-! Distances on the ideal grid. A way over links adds up to a displacement, which is the one between
its ends up to rounds of the torus, and a displacement can be gone along in as many steps as the
spread of its vector, without leaving the box between its ends. So the least number of steps is that
of the shortest of these displacements, which is what `Grid.distance` works out:
`Grid.distance_isLeast`. -/

namespace HexFabric

/-- `n` steps over links of the ideal grid lead from `source` to a chip. -/
inductive Grid.Walk (g : Grid) (source : Chip) : Nat → Chip → Prop where
  | start : Walk g source 0 source
  | step {n : Nat} {a c : Chip} {l : Link} (walk : Walk g source n a)
    (step : g.neighbour a l = some c) : Walk g source (n + 1) c

/-! ### Displacements -/

namespace Offset

instance : Add Offset := ⟨fun d e => ⟨d.dx + e.dx, d.dy + e.dy⟩⟩

@[simp] theorem dx_add (d e : Offset) : (d + e).dx = d.dx + e.dx := rfl

@[simp] theorem dy_add (d e : Offset) : (d + e).dy = d.dy + e.dy := rfl

/-- The number of steps that a displacement takes where there are no edges. -/
def steps (d : Offset) : Nat := (Hex.spread ⟨d.dx, d.dy, 0⟩).toNat

theorem steps_le_iff {d : Offset} {n : Nat} : d.steps ≤ n ↔
    (-n ≤ d.dx ∧ d.dx ≤ n) ∧ (-n ≤ d.dy ∧ d.dy ≤ n) ∧ d.dx - d.dy ≤ n ∧ d.dy - d.dx ≤ n := by
  rw [steps, Int.toNat_le, Hex.spread_le_iff]
  dsimp only
  omega

theorem steps_eq_zero_iff {d : Offset} : d.steps = 0 ↔ d.dx = 0 ∧ d.dy = 0 := by
  rw [← Nat.le_zero, steps_le_iff]
  omega

theorem steps_add_step_le (d : Offset) (l : Link) : (d + l.step).steps ≤ d.steps + 1 := by
  have hd := steps_le_iff.1 (Nat.le_refl d.steps)
  rw [steps_le_iff, dx_add, dy_add]
  cases l <;> simp only [Link.step] <;> omega

/-- Both components of `e` lie between zero and those of `d`. -/
def Inside (e d : Offset) : Prop :=
  (0 ≤ e.dx ∧ e.dx ≤ d.dx ∨ d.dx ≤ e.dx ∧ e.dx ≤ 0) ∧
    (0 ≤ e.dy ∧ e.dy ≤ d.dy ∨ d.dy ≤ e.dy ∧ e.dy ≤ 0)

/-- The last step along a displacement: along the third axis where its components have the same
sign, or else along one of the others. -/
def lastLink (d : Offset) : Link :=
  if 0 < d.dx then if 0 < d.dy then .northEast else .east
  else if d.dx < 0 then if d.dy < 0 then .southWest else .west
  else if 0 < d.dy then .north else .south

/-- What is left of a displacement without its last step. -/
def dropLast (d : Offset) : Offset := ⟨d.dx - d.lastLink.step.dx, d.dy - d.lastLink.step.dy⟩

theorem dropLast_add (d : Offset) : d.dropLast + d.lastLink.step = d := by
  change (⟨_, _⟩ : Offset) = d
  simp [dropLast]

theorem inside_dropLast {d : Offset} (h : d.steps ≠ 0) : d.dropLast.Inside d := by
  rw [Ne, steps_eq_zero_iff] at h
  unfold Inside dropLast lastLink
  split_ifs <;> simp only [Link.step] <;> omega

theorem steps_dropLast {d : Offset} {n : Nat} (h : d.steps = n + 1) : d.dropLast.steps = n := by
  refine Nat.le_antisymm ?_ ?_
  · have hlong := steps_le_iff.1 (Nat.le_of_eq h)
    have hsome : ¬(d.dx = 0 ∧ d.dy = 0) := fun hzero => by
      rw [steps_eq_zero_iff.2 hzero] at h
      cases h
    rw [steps_le_iff]
    unfold dropLast lastLink
    split_ifs <;> simp only [Link.step] <;> omega
  · have hback := d.dropLast.steps_add_step_le d.lastLink
    rw [dropLast_add, h] at hback
    exact Nat.le_of_succ_le_succ hback

end Offset

namespace Grid

variable {g : Grid} {a b c : Chip} {d e : Offset} {n : Nat}

/-- How far it is once round a side. No distance is gone round on a mesh. -/
def round (g : Grid) (side : Nat) : Int :=
  match g.topology with
  | .torus => side
  | .mesh => 0

/-- Going along `d` from `a` leads to `b`. -/
def Leads (g : Grid) (a : Chip) (d : Offset) (b : Chip) : Prop :=
  a.x + d.dx ≡ b.x [ZMOD g.round g.width] ∧ a.y + d.dy ≡ b.y [ZMOD g.round g.height]

theorem Leads.trans (hb : g.Leads a d b) : g.Leads b e c ↔ g.Leads a (d + e) c := by
  have hx : a.x + (d.dx + e.dx) ≡ b.x + e.dx [ZMOD g.round g.width] := by
    rw [← Int.add_assoc]
    exact hb.1.add_right e.dx
  have hy : a.y + (d.dy + e.dy) ≡ b.y + e.dy [ZMOD g.round g.height] := by
    rw [← Int.add_assoc]
    exact hb.2.add_right e.dy
  exact and_congr ⟨fun h => hx.trans h, fun h => hx.symm.trans h⟩
    ⟨fun h => hy.trans h, fun h => hy.symm.trans h⟩

theorem toNat_emod_eq_iff {v : Int} {side x : Nat} (hside : 0 < side) :
    (v % side).toNat = x ↔ x < side ∧ v ≡ x [ZMOD side] := by
  have hpos : (0 : Int) < side := by omega
  have hnonneg := Int.emod_nonneg v (Int.ne_of_gt hpos)
  have hlt := Int.emod_lt_of_pos v hpos
  unfold Int.ModEq
  constructor
  · rintro rfl
    have hcast : ((v % side).toNat : Int) = v % side := Int.toNat_of_nonneg hnonneg
    rw [hcast, Int.emod_emod]
    exact ⟨by omega, rfl⟩
  · rintro ⟨hx, hv⟩
    have hself : (x : Int) % side = x := Int.emod_eq_of_lt (by omega) (by omega)
    rw [hself] at hv
    omega

theorem shift_eq_some_iff (ha : g.Has a) : g.shift a d = some b ↔ g.Has b ∧ g.Leads a d b := by
  have hw : 0 < g.width := Nat.zero_lt_of_lt ha.1
  have hh : 0 < g.height := Nat.zero_lt_of_lt ha.2
  obtain ⟨x, y⟩ := b
  unfold shift Leads round Has
  cases g.topology with
  | torus =>
    simp only [Option.some.injEq, Chip.mk.injEq, toNat_emod_eq_iff hw, toNat_emod_eq_iff hh]
    exact and_and_and_comm
  | mesh =>
    simp only [Option.ite_none_right_eq_some, Option.some.injEq, Chip.mk.injEq, Int.modEq_zero_iff]
    omega

theorem neighbour_eq_some_iff (ha : g.Has a) {l : Link} :
    g.neighbour a l = some b ↔ g.Has b ∧ g.Leads a l.step b :=
  shift_eq_some_iff ha

theorem eq_of_leads (ha : g.Has a) (hb : g.Has b) (h : g.Leads a d b) (hd : d.steps = 0) : a = b := by
  obtain ⟨hx, hy⟩ := Offset.steps_eq_zero_iff.1 hd
  have hself : g.Leads a d a := by
    unfold Leads
    rw [hx, hy, Int.add_zero, Int.add_zero]
    exact ⟨rfl, rfl⟩
  have h1 := (shift_eq_some_iff ha).2 ⟨hb, h⟩
  have h2 := (shift_eq_some_iff ha).2 ⟨ha, hself⟩
  rw [h1] at h2
  exact (Option.some.inj h2).symm

/-- On a mesh one does not leave the box between two chips. -/
theorem exists_leads_of_inside (ha : g.Has a) (hb : g.Has b) (h : g.Leads a d b) (he : e.Inside d) :
    ∃ c, g.Has c ∧ g.Leads a e c := by
  suffices ∃ c, g.shift a e = some c from this.imp fun c => (shift_eq_some_iff ha).1
  unfold Leads round at h
  unfold shift
  cases htop : g.topology with
  | torus => exact ⟨_, rfl⟩
  | mesh =>
    simp only [htop, Int.modEq_zero_iff] at h
    refine ⟨_, if_pos ?_⟩
    have ha1 := ha.1
    have ha2 := ha.2
    have hb1 := hb.1
    have hb2 := hb.2
    unfold Offset.Inside at he
    omega

/-! ### Walks -/

theorem Walk.has (h : g.Walk a n c) (ha : g.Has a) : g.Has c := by
  induction h with
  | start => exact ha
  | step _ hstep ih => exact ((neighbour_eq_some_iff ih).1 hstep).1

/-- A displacement can be gone along in as many steps as it takes where there are no edges. -/
theorem walk_of_leads (ha : g.Has a) (hc : g.Has c) (h : g.Leads a d c) : g.Walk a d.steps c := by
  induction hn : d.steps generalizing d c with
  | zero =>
    rw [eq_of_leads ha hc h hn]
    exact .start
  | succ n ih =>
    have hinside : d.dropLast.Inside d := Offset.inside_dropLast (by omega)
    obtain ⟨b, hb, hleads⟩ := exists_leads_of_inside ha hc h hinside
    have hstep : g.Leads b d.lastLink.step c := hleads.trans.2 (d.dropLast_add.symm ▸ h)
    exact (ih hb hleads (Offset.steps_dropLast hn)).step ((neighbour_eq_some_iff hb).2 ⟨hc, hstep⟩)

/-- A walk goes along some displacement that takes no more steps. -/
theorem Walk.exists_leads (h : g.Walk a n c) (ha : g.Has a) :
    ∃ d, g.Leads a d c ∧ d.steps ≤ n := by
  induction h with
  | start => exact ⟨⟨0, 0⟩, by simp [Leads], by decide⟩
  | @step n b c l hwalk hstep ih =>
    obtain ⟨d, hleads, hsteps⟩ := ih
    refine ⟨d + l.step, hleads.trans.1 ((neighbour_eq_some_iff (hwalk.has ha)).1 hstep).2, ?_⟩
    exact Nat.le_trans (d.steps_add_step_le l) (Nat.succ_le_succ hsteps)

/-! ### The shortest displacement -/

theorem leads_torus_iff (htorus : g.topology = .torus) : g.Leads a d b ↔
    Hex.Joins (.ofChip a) (.ofChip b) g.width g.height ⟨d.dx, d.dy, 0⟩ := by
  have hring : ∀ x v y side : Int,
      x + v ≡ y [ZMOD side] ↔ (v - 0) % side = (y - 0 - (x - 0)) % side := by
    intro x v y side
    rw [Int.sub_zero, Int.sub_zero, Int.sub_zero, Int.ModEq, ← Int.emod_sub_cancel_right x,
      add_sub_cancel_left]
  unfold Leads round Hex.Joins Hex.eastward Hex.northward Hex.ofChip
  rw [htorus]
  exact and_congr (hring _ _ _ _) (hring _ _ _ _)

theorem leads_mesh_iff (hmesh : g.topology = .mesh) :
    g.Leads a d b ↔ d = ⟨b.x - a.x, b.y - a.y⟩ := by
  obtain ⟨x, y⟩ := d
  unfold Leads round
  simp only [hmesh, Int.modEq_zero_iff, Offset.mk.injEq]
  omega

theorem isLeast_steps_torus (htorus : g.topology = .torus) (ha : g.Has a) :
    IsLeast {n | ∃ d, g.Leads a d b ∧ d.steps = n}
      (Hex.torusLength (.ofChip a) (.ofChip b) g.width g.height).toNat := by
  have hw : (0 : Int) < g.width := Int.natCast_pos.2 (Nat.zero_lt_of_lt ha.1)
  have hh : (0 : Int) < g.height := Int.natCast_pos.2 (Nat.zero_lt_of_lt ha.2)
  obtain ⟨⟨v, hv, heq⟩, hleast⟩ := Hex.isLeast_torusLength (.ofChip a) (.ofChip b) hw hh
  constructor
  · refine ⟨⟨v.x - v.z, v.y - v.z⟩, (leads_torus_iff htorus).2 ?_, ?_⟩
    · unfold Hex.Joins
      rwa [Int.sub_zero, Int.sub_zero]
    · rw [Offset.steps, Hex.spread_sub, heq]
  · rintro n ⟨d, hd, rfl⟩
    exact Int.toNat_le_toNat (hleast ⟨_, (leads_torus_iff htorus).1 hd, rfl⟩)

theorem isLeast_steps_mesh (hmesh : g.topology = .mesh) :
    IsLeast {n | ∃ d, g.Leads a d b ∧ d.steps = n}
      (Hex.meshLength (.ofChip a) (.ofChip b)).toNat := by
  refine ⟨⟨_, (leads_mesh_iff hmesh).2 rfl, rfl⟩, ?_⟩
  rintro n ⟨d, hd, rfl⟩
  rw [(leads_mesh_iff hmesh).1 hd]
  exact Nat.le_refl _

/-- On a grid of any size, the distance is at most the steps of any displacement. -/
theorem distance_le_of_leads (ha : g.Has a) (h : g.Leads a d b) : g.distance a b ≤ d.steps := by
  have hword : ∀ {hops : Int}, IsLeast {n | ∃ d, g.Leads a d b ∧ d.steps = n} hops.toNat →
      (BitVec.ofNat 32 hops.toNat).toNat ≤ d.steps := by
    intro hops hleast
    rw [BitVec.toNat_ofNat]
    exact Nat.le_trans (Nat.mod_le _ _) (hleast.2 ⟨d, h, rfl⟩)
  unfold distance
  cases htop : g.topology with
  | torus => exact hword (isLeast_steps_torus htop ha)
  | mesh => exact hword (isLeast_steps_mesh htop)

theorem lt_of_isLeast_steps (ha : g.Has a) (hb : g.Has b)
    (h : IsLeast {n | ∃ d, g.Leads a d b ∧ d.steps = n} n) : n < g.width + g.height := by
  have hdirect : g.Leads a ⟨b.x - a.x, b.y - a.y⟩ b := by
    unfold Leads
    rw [add_sub_cancel, add_sub_cancel]
    exact ⟨rfl, rfl⟩
  have hle : n ≤ Offset.steps ⟨b.x - a.x, b.y - a.y⟩ := h.2 ⟨_, hdirect, rfl⟩
  have hsteps : Offset.steps ⟨b.x - a.x, b.y - a.y⟩ ≤ g.width + g.height - 1 := by
    obtain ⟨ha1, ha2⟩ := ha
    obtain ⟨hb1, hb2⟩ := hb
    rw [Offset.steps_le_iff]
    dsimp only
    omega
  have := ha.1
  omega

theorem isLeast_steps_distance (hsize : g.width + g.height ≤ 2 ^ 32) (ha : g.Has a)
    (hb : g.Has b) : IsLeast {n | ∃ d, g.Leads a d b ∧ d.steps = n} (g.distance a b) := by
  have hfits : ∀ {hops : Int}, IsLeast {n | ∃ d, g.Leads a d b ∧ d.steps = n} hops.toNat →
      IsLeast {n | ∃ d, g.Leads a d b ∧ d.steps = n} (BitVec.ofNat 32 hops.toNat).toNat := by
    intro hops h
    have hlt := lt_of_isLeast_steps ha hb h
    rwa [BitVec.toNat_ofNat, Nat.mod_eq_of_lt (Nat.lt_of_lt_of_le hlt hsize)]
  unfold distance
  cases htop : g.topology with
  | torus => exact hfits (isLeast_steps_torus htop ha)
  | mesh => exact hfits (isLeast_steps_mesh htop)

/-- The distance between two chips is the least number of steps over links of the ideal grid that
lead from one to the other, and no step leads off the grid. -/
theorem distance_isLeast (hsize : g.width + g.height ≤ 2 ^ 32) (ha : g.Has a) (hb : g.Has b) :
    IsLeast {n | g.Walk a n b} (g.distance a b) ∧ ∀ n c, g.Walk a n c → g.Has c := by
  obtain ⟨⟨d, hleads, hsteps⟩, hleast⟩ := isLeast_steps_distance hsize ha hb
  refine ⟨⟨hsteps ▸ walk_of_leads ha hb hleads, fun n hn => ?_⟩, fun n c hn => hn.has ha⟩
  obtain ⟨e, he, hle⟩ := hn.exists_leads ha
  exact Nat.le_trans (hleast ⟨e, he, rfl⟩) hle

/-- On a torus, opposite corners are neighbours. -/
theorem distance_isLeast_corners : (5 + 4 ≤ 2 ^ 32 ∧ Has ⟨5, 4, .torus⟩ ⟨0, 0⟩ ∧
      Has ⟨5, 4, .torus⟩ ⟨4, 3⟩) ∧
    IsLeast {n | Walk ⟨5, 4, .torus⟩ ⟨0, 0⟩ n ⟨4, 3⟩} 1 := by
  have ha : Has ⟨5, 4, .torus⟩ ⟨0, 0⟩ := by decide
  have hb : Has ⟨5, 4, .torus⟩ ⟨4, 3⟩ := by decide
  exact ⟨⟨by decide, ha, hb⟩, (distance_isLeast (by decide) ha hb).1⟩

example : distance ⟨5, 4, .mesh⟩ ⟨0, 0⟩ ⟨4, 3⟩ = 4 := by decide

end Grid

end HexFabric
