import HexFabric.Proofs.Machine.Reservation
import HexFabric.Proofs.Resources
import Mathlib

/-! What the reservations of a graph leave of a machine. On each live chip they add up, in whatever
order they are made, and nothing but what the chips offer is touched: `Graph.usable_capacity`. -/

namespace HexFabric

/-- Something is withheld from chip `c`. -/
def Reservation.Reaches (r : Reservation) (c : Chip) : Prop :=
  r.location = none ∨ r.location = some c

instance (r : Reservation) (c : Chip) : Decidable (r.Reaches c) :=
  inferInstanceAs (Decidable (r.location = none ∨ r.location = some c))

/-- How much of a resource the reservations of `g` withhold from chip `c`, all together. -/
def Graph.withheld (g : Graph) (c : Chip) (k : Resource) : Nat :=
  ((g.reservations.filter (·.Reaches c)).map (·.resources.quantity k)).sum

namespace Resources

theorem within_refl (r : Resources) : r.within r := within_iff.2 ⟨rfl, fun _ => Nat.le_refl _⟩

theorem within_trans {r s t : Resources} (h : r.within s) (h' : s.within t) : r.within t := by
  obtain ⟨hkeys, hle⟩ := within_iff.1 h
  obtain ⟨hkeys', hle'⟩ := within_iff.1 h'
  exact within_iff.2 ⟨hkeys.trans hkeys', fun k => Nat.le_trans (hle k) (hle' k)⟩

theorem within_remainingOf (used capacity : Resources) :
    (used.remainingOf capacity).within capacity := by
  refine within_iff.2 ⟨keys_remainingOf used capacity, fun k => ?_⟩
  rw [quantity_remainingOf]
  exact Nat.sub_le _ _

end Resources

namespace Machine

variable {m n : Machine} {c : Chip}

/-! ### One reservation -/

theorem resourcesAt_reserveAt {d : Chip} (h : m.Live d) (r : Resources) (c : Chip) :
    (m.reserveAt r d).resourcesAt c =
      if c = d then r.remainingOf (m.resourcesAt d) else m.resourcesAt c := by
  rw [resourcesAt, toBlueprint_reserveAt h, InsertionMap.get?_insert]
  by_cases hc : c = d
  · rw [if_pos hc, if_pos hc, Option.getD_some]
  · rw [if_neg hc, if_neg hc]
    rfl

/-- A reservation for every chip reaches dead chips too; one for a single chip needs it live. -/
theorem resourcesAt_reserve (m : Machine) (r : Reservation) (c : Chip) :
    (m.reserve r.resources r.location).resourcesAt c =
      if r.location = none ∨ r.location = some c ∧ m.Live c then
        r.resources.remainingOf (m.resourcesAt c)
      else m.resourcesAt c := by
  obtain ⟨r, location⟩ := r
  cases location with
  | none => rw [if_pos (.inl rfl), reserve, resourcesAt_reserveEverywhere]
  | some d =>
    have hreached : ((some d : Option Chip) = none ∨ some d = some c ∧ m.Live c) ↔
        c = d ∧ m.Live d := by
      simp only [reduceCtorEq, false_or, Option.some.injEq]
      exact ⟨fun h => ⟨h.1.symm, h.1 ▸ h.2⟩, fun h => ⟨h.1.symm, h.1 ▸ h.2⟩⟩
    simp only [hreached, reserve]
    by_cases hd : m.Live d
    · rw [resourcesAt_reserveAt hd]
      by_cases hc : c = d
      · rw [if_pos hc, if_pos ⟨hc, hd⟩, hc]
      · rw [if_neg hc, if_neg fun h => hc h.1]
    · rw [reserveAt_of_not_live hd, if_neg fun h => hd h.2]

theorem resourcesAt_reserve_of_live (h : m.Live c) (r : Reservation) :
    (m.reserve r.resources r.location).resourcesAt c =
      if r.Reaches c then r.resources.remainingOf (m.resourcesAt c) else m.resourcesAt c := by
  rw [resourcesAt_reserve]
  exact if_congr (or_congr_right (and_iff_left h)) rfl rfl

theorem within_resourcesAt_reserve (m : Machine) (r : Reservation) (c : Chip) :
    ((m.reserve r.resources r.location).resourcesAt c).within (m.resourcesAt c) := by
  rw [resourcesAt_reserve]
  split
  · exact Resources.within_remainingOf _ _
  · exact Resources.within_refl _

theorem routerLimit_reserve (m : Machine) (r : Reservation) (c : Chip) :
    (m.reserve r.resources r.location).routerLimit c = m.routerLimit c := by
  obtain ⟨r, location⟩ := r
  cases location with
  | none => rfl
  | some d =>
    rw [reserve]
    by_cases hd : m.Live d
    · rw [routerLimit, toBlueprint_reserveAt hd, routerLimit]
    · rw [reserveAt_of_not_live hd]

/-! ### What stays -/

theorem SameLinks.hop_eq (h : SameLinks m n) (c : Chip) (l : Link) : m.hop c l = n.hop c l := by
  unfold hop
  simp only [h.toGrid, h.linkLive_iff, h.live_iff]

theorem isSubset_iff :
    m.isSubset n ↔ m.width ≤ n.width ∧ m.height ≤ n.height ∧ (∀ c ∈ n.deadChips, c ∈ m.deadChips) ∧
      (∀ l ∈ n.deadLinks, l ∈ m.deadLinks) ∧
      ∀ c, m.Has c → (m.resourcesAt c).within (n.resourcesAt c) := by
  simp only [isSubset, Bool.and_eq_true, decide_eq_true_eq, List.all_eq_true, Grid.mem_chips,
    and_assoc]
  rfl

end Machine

namespace Graph

/-! ### All reservations -/

/-- What holds of a machine and is kept by every reservation holds of what is left of it. -/
theorem usable_induction (g : Graph) {m : Machine} {P : Machine → Prop} (hm : P m)
    (hreserve : ∀ (m : Machine) (r : Reservation), P m → P (m.reserve r.resources r.location)) :
    P (g.usable m) := by
  unfold usable
  induction g.reservations generalizing m with
  | nil => exact hm
  | cons r rest ih => exact ih (hreserve m r hm)

/-- Reservations add up: stopping at zero after each is stopping at zero after all of them. -/
theorem quantity_usable (g : Graph) {m : Machine} {c : Chip} (h : m.Live c) (k : Resource) :
    ((g.usable m).resourcesAt c).quantity k = (m.resourcesAt c).quantity k - g.withheld c k := by
  unfold usable withheld
  -- each reservation is made on the machine that the ones before it left
  induction g.reservations generalizing m with
  | nil => rfl
  | cons r rest ih =>
    have hlive : (m.reserve r.resources r.location).Live c :=
      (m.sameLinks_reserve r.resources r.location).live_iff.2 h
    rw [List.foldl_cons, ih hlive, Machine.resourcesAt_reserve_of_live h]
    by_cases hr : r.Reaches c
    · rw [if_pos hr, List.filter_cons_of_pos (by simpa using hr), List.map_cons, List.sum_cons,
        Resources.quantity_remainingOf, Nat.sub_sub]
    · rw [if_neg hr, List.filter_cons_of_neg (by simpa using hr)]

theorem within_usable (g : Graph) (m : Machine) (c : Chip) :
    ((g.usable m).resourcesAt c).within (m.resourcesAt c) := by
  refine g.usable_induction (P := fun u => (u.resourcesAt c).within (m.resourcesAt c))
    (Resources.within_refl _) fun u r hu => ?_
  exact Resources.within_trans (u.within_resourcesAt_reserve r c) hu

theorem isSubset_usable (g : Graph) (m : Machine) : (g.usable m).isSubset m := by
  have hsame := g.sameLinks_usable m
  have hwidth : (g.usable m).width = m.width := congrArg Grid.width hsame.toGrid
  have hheight : (g.usable m).height = m.height := congrArg Grid.height hsame.toGrid
  refine Machine.isSubset_iff.2 ⟨Nat.le_of_eq hwidth, Nat.le_of_eq hheight, ?_, ?_,
    fun c _ => g.within_usable m c⟩
  · rw [hsame.deadChips]
    exact fun _ => id
  · rw [hsame.deadLinks]
    exact fun _ => id

theorem withheld_perm {g g' : Graph} (h : g'.reservations.Perm g.reservations) (c : Chip)
    (k : Resource) : g'.withheld c k = g.withheld c k :=
  ((h.filter _).map _).sum_eq

/-- What a graph leaves of a machine has the same grid, the same live chips and links and the same
routers. A live chip has the same resources, each less what all reservations for every chip or for
that one withhold of it together, down to zero; their order does not matter. No chip has more than
before. -/
theorem usable_capacity (g : Graph) (m : Machine) :
    (g.usable m).toGrid = m.toGrid ∧
    (∀ c, (g.usable m).Live c ↔ m.Live c) ∧
    (∀ c l, (g.usable m).LinkLive c l ↔ m.LinkLive c l) ∧
    (∀ c l, (g.usable m).hop c l = m.hop c l) ∧
    (∀ c, (g.usable m).routerLimit c = m.routerLimit c) ∧
    (∀ c, m.Live c → ∃ before after, m.capacity? c = some before ∧
      (g.usable m).capacity? c = some after ∧ after.keys = before.keys ∧
      ∀ k, after.quantity k = before.quantity k - g.withheld c k) ∧
    (∀ g' : Graph, g'.reservations.Perm g.reservations →
      ∀ c, (g'.usable m).capacity? c = (g.usable m).capacity? c) ∧
    (g.usable m).isSubset m := by
  have hsame := g.sameLinks_usable m
  have hkeys : ∀ (g : Graph) c, ((g.usable m).resourcesAt c).keys = (m.resourcesAt c).keys :=
    fun g c => (Resources.within_iff.1 (g.within_usable m c)).1
  have hlive : ∀ (g : Graph) c, (g.usable m).Live c ↔ m.Live c :=
    fun g _ => (g.sameLinks_usable m).live_iff
  refine ⟨hsame.toGrid, hlive g, fun _ _ => hsame.linkLive_iff, hsame.hop_eq, fun c => ?_,
    fun c hc => ?_, fun g' hperm c => ?_, g.isSubset_usable m⟩
  · exact g.usable_induction (P := fun u => u.routerLimit c = m.routerLimit c) rfl
      fun u r hu => (u.routerLimit_reserve r c).trans hu
  · exact ⟨m.resourcesAt c, (g.usable m).resourcesAt c, Machine.capacity?_of_live hc,
      Machine.capacity?_of_live ((hlive g c).2 hc), hkeys g c, g.quantity_usable hc⟩
  · by_cases hc : m.Live c
    · rw [Machine.capacity?_of_live ((hlive g' c).2 hc),
        Machine.capacity?_of_live ((hlive g c).2 hc)]
      have hsameKeys := (hkeys g' c).trans (hkeys g c).symm
      refine congrArg some (Resources.eq_of_quantity hsameKeys fun k => ?_)
      rw [g'.quantity_usable hc, g.quantity_usable hc, withheld_perm hperm]
    · rw [Machine.capacity?_of_not_live (mt (hlive g' c).1 hc),
        Machine.capacity?_of_not_live (mt (hlive g c).1 hc)]

end Graph

end HexFabric
