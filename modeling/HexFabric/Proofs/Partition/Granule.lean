import HexFabric.Proofs.Partition.Tiling
import HexFabric.Proofs.Resources.Shortfall

/-! Why a vertex cannot be cut. Atoms are cut at multiples of the granularity only, so a granule is
never cut, and a range that a chip can take has no granule that no chip can. So a vertex can be
divided into slices that fit exactly if each of its granules fits somewhere:
`Vertex.Sensible.exists_division_iff`. Cutting fails at the first granule that does not:
`Vertex.Sensible.ends_cut_granule`. -/

namespace HexFabric

theorem Machine.mem_capacityProfiles {m : Machine} {r : Resources} :
    r ∈ m.capacityProfiles ↔ ∃ c, m.Live c ∧ m.resourcesAt c = r := by
  simp [capacityProfiles]

/-- Of what fits, any part fits. -/
theorem Resources.fitsWithin_share {d capacity : Resources} {lo lo' hi hi' extent : Nat}
    (h : (d.share lo' hi' extent).fitsWithin capacity) (hlo : lo' ≤ lo) (hhi : hi ≤ hi') :
    (d.share lo hi extent).fitsWithin capacity := by
  rw [fitsWithin_iff] at h ⊢
  exact fun k => (d.quantity_share_mono hlo hhi extent k).trans (h k)

/-- What holds of the start of each range and of the last end holds of the first start. -/
theorem Consecutive.start {P : Nat → Prop} {a b : Nat} {l : List (Nat × Nat)}
    (h : Consecutive a l b) (hl : ∀ r ∈ l, P r.1) (hb : P b) : P a := by
  cases l with
  | nil => exact (show a = b from h) ▸ hb
  | cons r rest => exact h.1 ▸ hl r List.mem_cons_self

namespace Vertex

/-- Some live chip can take the atoms of a range. -/
def FitsOn (v : Vertex) (m : Machine) (r : Nat × Nat) : Prop :=
  ∃ c, m.Live c ∧ (v.demand.share r.1 r.2 v.extent).fitsWithin (m.resourcesAt c)

/-- Ranges into which the atoms of `v` may be cut, with a live chip for each. -/
structure Division (v : Vertex) (m : Machine) (ranges : List (Nat × Nat)) : Prop where
  consecutive : Consecutive 0 ranges v.extent
  nonempty : ∀ r ∈ ranges, r.1 < r.2
  aligned : ∀ r ∈ ranges, v.granularity ∣ r.1
  short : ∀ r ∈ ranges, ∀ most ∈ v.maxSlice, r.2 - r.1 ≤ most
  fits : ∀ r ∈ ranges, v.FitsOn m r

/-- The atoms of granule number `k`. The last granule may be shorter than the others. -/
def granule (v : Vertex) (k : Nat) : Nat × Nat :=
  (k * v.granularity, min ((k + 1) * v.granularity) v.extent)

/-- Granule number `k` has `atoms` atoms and fits on no live chip, and on one of these it is `s` that
they lack. -/
structure Stuck (v : Vertex) (m : Machine) (k atoms : Nat) (s : Shortfall) : Prop where
  start : k * v.granularity < v.extent
  nowhere : ¬v.FitsOn m (v.granule k)
  atoms : atoms = (v.granule k).2 - (v.granule k).1
  shortfall : ∃ c, m.Live c ∧
    s.Holds (v.demand.share (v.granule k).1 (v.granule k).2 v.extent) (m.resourcesAt c)

variable {v : Vertex} {m : Machine} {lo hi k : Nat}

theorem FitsOn.mono {r r' : Nat × Nat} (h : v.FitsOn m r') (hlo : r'.1 ≤ r.1) (hhi : r.2 ≤ r'.2) :
    v.FitsOn m r := by
  obtain ⟨c, hc, hfits⟩ := h
  exact ⟨c, hc, Resources.fitsWithin_share hfits hlo hhi⟩

/-- A place at which `v` may be cut, or that lies behind its last atom. -/
def MayEnd (v : Vertex) (n : Nat) : Prop := v.granularity ∣ n ∨ v.extent ≤ n

/-- A granule that starts before such a place ends there or before it. -/
theorem MayEnd.granule_le (h : v.MayEnd hi) (hk : k * v.granularity < hi) :
    (v.granule k).2 ≤ hi := by
  rcases h with ⟨n, rfl⟩ | hextent
  · rw [Nat.mul_comm v.granularity n] at hk ⊢
    have hkn : k < n := Nat.lt_of_mul_lt_mul_right hk
    exact Nat.le_trans (Nat.min_le_left _ _) (Nat.mul_le_mul_right _ hkn)
  · exact Nat.le_trans (Nat.min_le_right _ _) hextent

theorem granule_eq (h : v.MayEnd hi) (hk : k * v.granularity < hi) (hhi : hi ≤ v.extent)
    (hsmall : hi - k * v.granularity ≤ v.granularity) : v.granule k = (k * v.granularity, hi) := by
  have hle := h.granule_le hk
  have hsucc : (k + 1) * v.granularity = k * v.granularity + v.granularity := Nat.succ_mul _ _
  unfold granule at hle ⊢
  rw [Prod.mk.injEq]
  omega

theorem FitsOn.granule (h : v.FitsOn m (lo, hi)) (hend : v.MayEnd hi) (hlo : lo ≤ k * v.granularity)
    (hk : k * v.granularity < hi) : v.FitsOn m (v.granule k) :=
  h.mono hlo (hend.granule_le hk)

/-! ### Every division -/

/-- No granule is cut, so each fits where its range does. -/
theorem fitsOn_granule_of_consecutive {a b : Nat} {l : List (Nat × Nat)} (h : Consecutive a l b)
    (haligned : ∀ r ∈ l, v.granularity ∣ r.1) (hfits : ∀ r ∈ l, v.FitsOn m r) (hb : v.MayEnd b)
    (ha : a ≤ k * v.granularity) (hk : k * v.granularity < b) : v.FitsOn m (v.granule k) := by
  induction l generalizing a with
  | nil =>
    have hab : a = b := h
    omega
  | cons r rest ih =>
    obtain ⟨hstart, hrest⟩ := h
    have hend : v.MayEnd r.2 :=
      hrest.start (fun r hr => .inl (haligned r (List.mem_cons_of_mem _ hr))) hb
    by_cases hinside : k * v.granularity < r.2
    · exact (hfits r List.mem_cons_self).granule hend (hstart ▸ ha) hinside
    · exact ih hrest (fun r hr => haligned r (List.mem_cons_of_mem _ hr))
        (fun r hr => hfits r (List.mem_cons_of_mem _ hr)) (Nat.not_lt.1 hinside)

theorem Division.fitsOn_granule {ranges : List (Nat × Nat)} (h : v.Division m ranges)
    (hk : k * v.granularity < v.extent) : v.FitsOn m (v.granule k) :=
  fitsOn_granule_of_consecutive h.consecutive h.aligned h.fits (.inr (Nat.le_refl _))
    (Nat.zero_le _) hk

/-! ### Cutting -/

theorem fitsSome_iff_fitsOn : fitsSome m.capacityProfiles (v.demand.share lo hi v.extent) ↔
    v.FitsOn m (lo, hi) :=
  Machine.fitsSome_capacityProfiles

/-- What is said of a granule that fits nowhere. -/
theorem exists_infeasible_eq (hlive : ∃ c, m.Live c) (hk : k * v.granularity < v.extent)
    (hnowhere : ¬v.FitsOn m (v.granule k)) :
    ∃ atoms s, v.infeasible m.capacityProfiles ((v.granule k).2 - (v.granule k).1)
      (v.demand.share (v.granule k).1 (v.granule k).2 v.extent) =
        .partitionInfeasible v.name atoms s ∧ v.Stuck m k atoms s := by
  obtain ⟨c, hc⟩ := hlive
  have hsome : m.capacityProfiles ≠ [] :=
    List.ne_nil_of_mem (Machine.mem_capacityProfiles.2 ⟨c, hc, rfl⟩)
  unfold infeasible
  cases hs : (v.demand.share (v.granule k).1 (v.granule k).2 v.extent).closestShortfall
      m.capacityProfiles with
  | none =>
    obtain ⟨r, hr, hfits⟩ := (Resources.closestShortfall_eq_none_iff.1 hs).resolve_left hsome
    obtain ⟨c, hc, rfl⟩ := Machine.mem_capacityProfiles.1 hr
    exact absurd ⟨c, hc, hfits⟩ hnowhere
  | some s =>
    obtain ⟨r, hr, hholds⟩ := Resources.exists_of_closestShortfall hs
    obtain ⟨c, hc, rfl⟩ := Machine.mem_capacityProfiles.1 hr
    exact ⟨_, s, rfl, hk, hnowhere, rfl, c, hc, hholds⟩

/-- A slice may have as many atoms as a granule. -/
theorem Sensible.not_any_of_small (h : v.Sensible) {atoms : Nat} (hsmall : atoms ≤ v.granularity) :
    ¬v.maxSlice.any (· < atoms) := by
  cases hmost : v.maxSlice with
  | none => exact Bool.false_ne_true
  | some most =>
    have hle := h.most most hmost
    rw [Option.any_some, decide_eq_true_iff]
    omega

/-- The error `e` is about the first granule from atom `lo` on that fits nowhere. -/
def Blames (v : Vertex) (m : Machine) (lo : Nat) (e : Error) : Prop :=
  ∃ k atoms s, e = .partitionInfeasible v.name atoms s ∧ v.Stuck m k atoms s ∧
    ∀ j < k, lo ≤ j * v.granularity → v.FitsOn m (v.granule j)

/-- Atoms are cut if each of their granules fits somewhere, and the first that does not is blamed
otherwise. -/
theorem Sensible.ends_cut_granule (h : v.Sensible) (hlive : ∃ c, m.Live c) (hlo : lo < hi)
    (hhi : hi ≤ v.extent) (haligned : v.granularity ∣ lo) (hend : v.MayEnd hi) :
    Ends (v.cut m.capacityProfiles lo hi) (fun f => ∃ e, f = .error e ∧ v.Blames m lo e)
      fun _ => ∀ k, lo ≤ k * v.granularity → k * v.granularity < hi → v.FitsOn m (v.granule k) := by
  induction hmeasure : hi - lo using Nat.strongRecOn generalizing lo hi with
  | _ d ih =>
    rw [cut]
    refine Ends.bind (v.demand.returns_share? (Nat.le_of_lt hlo) hhi (by omega)).lift
      fun demand hdemand => ?_
    subst hdemand
    by_cases hfits : ¬v.maxSlice.any (· < hi - lo) ∧
        fitsSome m.capacityProfiles (v.demand.share lo hi v.extent)
    · rw [if_pos hfits]
      have hfitsOn := fitsSome_iff_fitsOn.1 hfits.2
      exact .pure fun k hlow hk => hfitsOn.granule hend hlow hk
    rw [if_neg hfits]
    by_cases hsmall : hi - lo ≤ v.granularity
    · rw [if_pos hsmall]
      -- what is left starts like a granule and ends with it, so it is that granule
      obtain ⟨k, rfl⟩ := exists_eq_mul_left_of_dvd haligned
      have hgranule := granule_eq hend hlo hhi hsmall
      have hnowhere : ¬v.FitsOn m (v.granule k) := fun hfitsOn =>
        hfits ⟨h.not_any_of_small hsmall, fitsSome_iff_fitsOn.2 (hgranule ▸ hfitsOn)⟩
      obtain ⟨atoms, s, heq, hstuck⟩ :=
        exists_infeasible_eq hlive (Nat.lt_of_lt_of_le hlo hhi) hnowhere
      rw [hgranule] at heq
      rw [heq]
      refine .throw ⟨_, rfl, k, atoms, s, rfl, hstuck, fun j hj hlow => ?_⟩
      have hkj : k ≤ j := Nat.le_of_mul_le_mul_right hlow (Nat.pos_of_ne_zero h.granularity)
      exact absurd hj (Nat.not_lt.2 hkj)
    rw [if_neg hsmall, if_neg h.granularity]
    obtain ⟨hlower, hupper⟩ := midpoint_bounds h.granularity (Nat.lt_of_not_le hsmall)
    have hmid : v.granularity ∣ v.midpoint lo (hi - lo) := dvd_midpoint haligned
    -- the upper half is cut only when all granules of the lower one fit
    refine Ends.bind (ih _ (by omega) hlower (by omega) haligned (.inl hmid) rfl)
      fun lower hfirst => ?_
    refine Ends.bind ((ih _ (by omega) hupper hhi hmid hend rfl).imp ?_ fun _ => id)
      fun upper hlast => .pure fun k hlow hk => ?_
    · rintro f ⟨e, rfl, k, atoms, s, rfl, hstuck, hbefore⟩
      refine ⟨_, rfl, k, atoms, s, rfl, hstuck, fun j hj hlow => ?_⟩
      by_cases hjmid : j * v.granularity < v.midpoint lo (hi - lo)
      · exact hfirst j hlow hjmid
      · exact hbefore j hj (Nat.not_lt.1 hjmid)
    · by_cases hkmid : k * v.granularity < v.midpoint lo (hi - lo)
      · exact hfirst k hlow hkmid
      · exact hlast k (Nat.not_lt.1 hkmid) hk

/-- A vertex is divided, or its first granule that fits nowhere is blamed. -/
theorem Sensible.ends_cut_division (h : v.Sensible) (hlive : ∃ c, m.Live c) :
    Ends (v.cut m.capacityProfiles 0 v.extent) (fun f => ∃ e, f = .error e ∧ v.Blames m 0 e)
      (v.Division m) := by
  have hextent := Nat.pos_of_ne_zero h.extent
  have hends := h.ends_cut_granule hlive hextent (Nat.le_refl _) (Nat.dvd_zero _)
    (.inr (Nat.le_refl _))
  have hpieces := v.ends_cut h.granularity m.capacityProfiles hextent (Nat.le_refl _)
    (Nat.dvd_zero _)
  cases hcut : v.cut m.capacityProfiles 0 v.extent with
  | error f => exact hends.of_eq_error hcut
  | ok ranges =>
    obtain ⟨hconsecutive, hall⟩ := hpieces.of_eq_ok hcut
    exact ⟨hconsecutive, fun r hr => (hall r hr).nonempty, fun r hr => (hall r hr).aligned,
      fun r hr => (hall r hr).short, fun r hr => fitsSome_iff_fitsOn.1 (hall r hr).fits⟩

/-- A vertex can be divided exactly if each of its granules fits somewhere. -/
theorem Sensible.exists_division_iff (h : v.Sensible) (hlive : ∃ c, m.Live c) :
    (∃ ranges, v.Division m ranges) ↔
      ∀ k, k * v.granularity < v.extent → v.FitsOn m (v.granule k) := by
  constructor
  · rintro ⟨ranges, hdivision⟩ k hk
    exact hdivision.fitsOn_granule hk
  · intro hfits
    have hends := h.ends_cut_division hlive
    cases hcut : v.cut m.capacityProfiles 0 v.extent with
    | ok ranges => exact ⟨ranges, hends.of_eq_ok hcut⟩
    | error f =>
      obtain ⟨_, _, k, _, _, _, hstuck, _⟩ := hends.of_eq_error hcut
      exact absurd (hfits k hstuck.start) hstuck.nowhere

end Vertex

end HexFabric
