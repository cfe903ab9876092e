import HexFabric.Proofs.Placement.Valid
import Mathlib

/-! What chips bear, added up slice by slice, on machines whose chips a word can count. The check of a
finished placement is exact: `Placement.isValid_exact`. So are the books of a placement in the making,
after any course of changes in which a slice is put on a chip only while it has none and taken off
only while it has one: `Occupancy.Course.keeps_books`. -/

namespace HexFabric

/-- Slices listed once each demand together what all slices on the chip demand. -/
theorem Partitioning.load_eq_sum (part : Partitioning) {slices : List Nat}
    {places : Nat → Option Chip} {c : Chip} (hnodup : slices.Nodup)
    (hmem : ∀ s, s ∈ slices ↔ places s = some c) (k : Resource) :
    part.load slices k =
      ∑ s : Fin part.slices.size with places s.val = some c, part.slices[s].demand.quantity k := by
  have hneed : ∀ s : Fin part.slices.size, part.need s k = part.slices[s].demand.quantity k :=
    fun s => need_eq (Array.getElem?_eq_getElem s.isLt) k
  have hbeyond : ∀ s ∈ slices.toFinset,
      s ∉ (Finset.range part.slices.size).filter (places · = some c) → part.need s k = 0 := by
    intro s hs hout
    rw [List.mem_toFinset, hmem] at hs
    have hsize : ¬s < part.slices.size := by simpa [hs] using hout
    rw [need, Array.getElem?_eq_none (Nat.le_of_not_lt hsize)]
    rfl
  have hwithin : (Finset.range part.slices.size).filter (places · = some c) ⊆ slices.toFinset := by
    intro s hs
    rw [List.mem_toFinset, hmem]
    exact (Finset.mem_filter.1 hs).2
  calc part.load slices k
      = ∑ s ∈ slices.toFinset, part.need s k := (List.sum_toFinset _ hnodup).symm
    _ = ∑ s ∈ Finset.range part.slices.size with places s = some c, part.need s k :=
      (Finset.sum_subset hwithin hbeyond).symm
    _ = ∑ s : Fin part.slices.size with places s.val = some c, part.need s k := by
      rw [Finset.sum_filter, Finset.sum_filter, Finset.sum_range]
    _ = _ := Finset.sum_congr rfl fun s _ => hneed s

/-- On a machine whose chips a word can count, the check of a placement has an answer, which is that
every slice has a live chip and that on no live chip the slices demand more of any resource than the
chip has. -/
theorem Placement.isValid_exact (p : Placement) (part : Partitioning) {m : Machine}
    (hsize : m.size < 2 ^ 32) : ∃ valid, p.isValid part m = .ok valid ∧ (valid = true ↔
      p.chips.size = part.slices.size ∧ (∀ c ∈ p.chips, m.Live c) ∧
      ∀ c, m.Live c → ∀ k,
        ∑ s : Fin part.slices.size with p.chips[s.val]? = some c, part.slices[s].demand.quantity k ≤
          (m.resourcesAt c).quantity k) := by
  obtain ⟨valid, hvalid, hfits⟩ := returns_iff.1 (p.returns_isValid part hsize)
  have hload : ∀ c k, part.load (p.slicesOn c) k =
      ∑ s : Fin part.slices.size with p.chips[s.val]? = some c, part.slices[s].demand.quantity k :=
    fun c k => part.load_eq_sum (p.nodup_slicesOn c) (fun s => mem_slicesOn) k
  simp only [← hload]
  refine ⟨valid, hvalid, hfits.trans ⟨fun h => ⟨h.size, h.live, h.load⟩, ?_⟩⟩
  rintro ⟨hall, hlive, hbear⟩
  exact ⟨⟨hall, hlive⟩, hbear⟩

/-- A chip of two cores beside one that is dead. -/
def lone : Machine where
  toBlueprint := { Blueprint.uniform ⟨2, 1, .mesh⟩ with
    resources := SortedMap.empty.insert .cores 2
    deadChips := .ofList [⟨1, 0⟩] }
  valid := Blueprint.fault?_eq_none_iff.1 (by decide +kernel)

/-- Three slices of one core each. -/
def trio : Partitioning where
  slices := #[⟨0, 0, 1, SortedMap.empty.insert .cores 1⟩,
    ⟨0, 1, 2, SortedMap.empty.insert .cores 1⟩, ⟨0, 2, 3, SortedMap.empty.insert .cores 1⟩]
  ranges := #[(0, 3)]
  nets := #[]

/-- The chip can bear two of the slices, but not all three. -/
theorem Placement.isValid_exact_lone :
    lone.size < 2 ^ 32 ∧
    (∃ two : Partitioning, two.slices = trio.slices.pop ∧
      (⟨#[⟨0, 0⟩, ⟨0, 0⟩]⟩ : Placement).isValid two lone = .ok true ∧
      ∀ k, ∑ s : Fin two.slices.size with #[(⟨0, 0⟩ : Chip), ⟨0, 0⟩][s.val]? = some ⟨0, 0⟩,
        two.slices[s].demand.quantity k ≤ (lone.resourcesAt ⟨0, 0⟩).quantity k) ∧
    (⟨#[⟨0, 0⟩, ⟨0, 0⟩, ⟨0, 0⟩]⟩ : Placement).isValid trio lone = .ok false := by
  have hsize : lone.size < 2 ^ 32 := by decide
  have hlive : lone.Live ⟨0, 0⟩ := by decide
  have htwo : (⟨#[⟨0, 0⟩, ⟨0, 0⟩]⟩ : Placement).isValid { trio with slices := trio.slices.pop } lone =
      .ok true := by
    decide +kernel
  obtain ⟨valid, hvalid, hexact⟩ := Placement.isValid_exact _ _ hsize
  obtain rfl := Except.ok.inj (htwo.symm.trans hvalid)
  exact ⟨hsize, ⟨_, rfl, htwo, (hexact.1 rfl).2.2 ⟨0, 0⟩ hlive⟩, by decide +kernel⟩

namespace Occupancy

variable {m : Machine} {part : Partitioning} {o : Occupancy m} {places places' : Nat → Option Chip}

/-! ### Courses of changes -/

/-- A change of the books. -/
inductive Change where
  | assign (slice : Nat) (chip : Chip)
  | unassign (slice : Nat)

/-- Makes a change, with what the slice demands. -/
def change (part : Partitioning) (o : Occupancy m) : Change → Checked (Occupancy m)
  | .assign s c => do o.assign s c (← part.demandOf s)
  | .unassign s => do o.unassign s (← part.demandOf s)

/-- A change that may be made while the slices are where `places` says, and where they are then. -/
inductive Step (part : Partitioning) (m : Machine) (places : Nat → Option Chip) :
    Change → (Nat → Option Chip) → Prop where
  | assign {s : Nat} {c : Chip} (slice : s < part.slices.size) (free : places s = none)
    (has : m.Has c) : Step part m places (.assign s c) (Function.update places s (some c))
  | unassign {s : Nat} {c : Chip} (placed : places s = some c) :
    Step part m places (.unassign s) (Function.update places s none)

/-- Changes made one after the other, each when it may be made, and where the slices are then. -/
inductive Course (part : Partitioning) (m : Machine) :
    List Change → (Nat → Option Chip) → Prop where
  | start : Course part m [] fun _ => none
  | step {changes : List Change} {places places' : Nat → Option Chip} {change : Change}
    (course : Course part m changes places) (step : Step part m places change places') :
    Course part m (changes ++ [change]) places'

theorem Consistent.returns_change (h : o.Consistent part) (hsize : m.size < 2 ^ 32)
    (hplaces : ∀ s, o.chipAt s = places s)
    {change : Change} (hstep : Step part m places change places') :
    Returns (o.change part change) fun o' =>
      o'.Consistent part ∧ ∀ s, o'.chipAt s = places' s := by
  cases hstep with
  | @assign s c hs hfree hc =>
    refine Ends.bind (part.returns_demandOf hs) fun d hd => ?_
    refine (h.assign hsize hs ((hplaces s).trans hfree) hc hd).mono ?_
    rintro o' ⟨ho', hchip, -⟩
    refine ⟨ho', fun s' => ?_⟩
    rw [hchip, Function.update_apply, hplaces]
  | @unassign s c hplaced =>
    have hs := (hplaces s).trans hplaced
    refine Ends.bind (part.returns_demandOf (h.lt_of_chipAt hs)) fun d hd => ?_
    refine (h.unassign hs hd).mono ?_
    rintro o' ⟨ho', hchip, -⟩
    refine ⟨ho', fun s' => ?_⟩
    rw [hchip, Function.update_apply, hplaces]

/-- The books agree after every course of changes. -/
theorem Course.returns_changes (hsize : m.size < 2 ^ 32) {changes : List Change}
    (h : Course part m changes places) :
    Returns (changes.foldlM (change part) (vacant m part.slices.size)) fun o =>
      o.Consistent part ∧ ∀ s, o.chipAt s = places s := by
  induction h with
  | start => exact .pure ⟨(books_vacant m part).consistent, chipAt_vacant m part.slices.size⟩
  | step _ hstep ih =>
    rw [List.foldlM_append]
    refine Ends.bind ih fun o ho => ?_
    rw [List.foldlM_cons]
    exact Ends.bind (ho.1.returns_change hsize ho.2 hstep) fun o' ho' => .pure ho'

/-! ### What the books say -/

/-- The books say where the slices are, and of each chip which slices are on it and how much these
demand together. -/
structure Records (part : Partitioning) (o : Occupancy m) (places : Nat → Option Chip) : Prop where
  location : ∀ s c, o.location s = .ok c ↔ places s = some c
  residents : ∀ c, m.Has c →
    ∃ l, o.residentsOf c = .ok l ∧ l.Nodup ∧ ∀ s, s ∈ l ↔ places s = some c
  used : ∀ c, m.Has c → ∃ u, o.used[m.cell c]? = some u ∧ ∀ k, u.quantity k =
    ∑ s : Fin part.slices.size with places s.val = some c, part.slices[s].demand.quantity k

theorem Consistent.quantity_usedAt_eq_sum (h : o.Consistent part)
    (hplaces : ∀ s, o.chipAt s = places s) {c : Chip} (hc : m.Has c) (k : Resource) :
    (o.usedAt c).quantity k =
      ∑ s : Fin part.slices.size with places s.val = some c, part.slices[s].demand.quantity k := by
  rw [h.quantity_usedAt c hc]
  refine part.load_eq_sum (h.nodup c hc) (fun s => ?_) k
  rw [h.mem_residentsAt c hc, hplaces]

theorem Consistent.records (h : o.Consistent part) (hsize : m.size < 2 ^ 32)
    (hplaces : ∀ s, o.chipAt s = places s) : o.Records part places where
  location s c := by
    rw [← hplaces]
    exact ⟨chipAt_of_location, h.location_eq⟩
  residents c hc := by
    obtain ⟨_, hl, rfl⟩ := returns_iff.1 (h.returns_residents hsize hc)
    refine ⟨_, hl, h.nodup c hc, fun s => ?_⟩
    rw [h.mem_residentsAt c hc, hplaces]
  used c hc := by
    obtain ⟨_, hu, rfl⟩ := returns_iff.1 (h.returns_used hsize hc)
    exact ⟨_, fetch_eq_ok.1 hu, h.quantity_usedAt_eq_sum hplaces hc⟩

/-- A demand fits a chip that bears no more than it offers just if the chip can bear it as well. -/
theorem Sized.fits_iff_withinCapacity_assign {n : Nat} (h : o.Sized n) (hsize : m.size < 2 ^ 32)
    {c : Chip} (hwithin : o.withinCapacity c = .ok true) (d : Resources) :
    ∃ room, o.fits c d = .ok room ∧
      (room = true ↔ ∀ k, (o.usedAt c).quantity k + d.quantity k ≤ (m.resourcesAt c).quantity k) ∧
      ∀ s < n, o.chipAt s = none →
        ∃ o', o.assign s c d = .ok o' ∧ o'.withinCapacity c = .ok room := by
  obtain ⟨hlive, hle⟩ := ((h.returns_withinCapacity hsize c).of_eq_ok hwithin).1 rfl
  obtain ⟨room, hroom, hfits⟩ := returns_iff.1 (h.returns_fits hsize c d)
  have hfits : room = true ↔
      ∀ k, (o.usedAt c).quantity k + d.quantity k ≤ (m.resourcesAt c).quantity k := by
    rw [hfits, and_iff_right hlive]
    refine forall_congr' fun k => ?_
    have := hle k
    omega
  refine ⟨room, hroom, hfits, fun s hs hfree => ?_⟩
  obtain ⟨_, hassign, rfl⟩ := returns_iff.1 (h.returns_assign hsize hs hfree hlive.1 d)
  obtain ⟨within, hwithin', hiff⟩ := returns_iff.1 (h.enter.returns_withinCapacity hsize c)
  refine ⟨_, hassign, hwithin'.trans (congrArg Except.ok (Bool.eq_iff_iff.2 ?_))⟩
  rw [hiff, hfits, and_iff_right hlive, h.usedAt_enter hsize hlive.1 hlive.1, if_pos rfl]
  simp only [Resources.quantity_add]

/-- No change of a course stops, and after it the books say where the slices are, which slices are
on each chip and what these demand together. A demand then fits a chip that bears no more than it
offers just if putting a slice with this demand there leaves it so. -/
theorem Course.keeps_books (hsize : m.size < 2 ^ 32) {changes : List Change}
    (h : Course part m changes places) :
    ∃ o, changes.foldlM (change part) (vacant m part.slices.size) = .ok o ∧
      o.Records part places ∧
      ∀ c, o.withinCapacity c = .ok true → ∀ d, ∃ room, o.fits c d = .ok room ∧
        (room = true ↔ ∀ k,
          (∑ s : Fin part.slices.size with places s.val = some c,
            part.slices[s].demand.quantity k) + d.quantity k ≤ (m.resourcesAt c).quantity k) ∧
        ∀ s < part.slices.size, places s = none →
          ∃ o', o.assign s c d = .ok o' ∧ o'.withinCapacity c = .ok room := by
  obtain ⟨o, ho, hconsistent, hplaces⟩ := returns_iff.1 (h.returns_changes hsize)
  refine ⟨o, ho, hconsistent.records hsize hplaces, fun c hwithin d => ?_⟩
  have hc : m.Has c :=
    (((hconsistent.toSized.returns_withinCapacity hsize c).of_eq_ok hwithin).1 rfl).1.1
  have hfits := hconsistent.fits_iff_withinCapacity_assign hsize hwithin d
  simpa only [hconsistent.quantity_usedAt_eq_sum hplaces hc, hplaces] using hfits

/-- Two slices fill the chip, and one of them goes on to the dead chip. -/
def resettling : List Change :=
  [.assign 0 ⟨0, 0⟩, .assign 1 ⟨0, 0⟩, .unassign 0, .assign 0 ⟨1, 0⟩]

def resettled : Nat → Option Chip :=
  Function.update (Function.update (Function.update (Function.update (fun _ => none)
    0 (some ⟨0, 0⟩)) 1 (some ⟨0, 0⟩)) 0 none) 0 (some ⟨1, 0⟩)

theorem course_resettling : Course trio lone resettling resettled :=
  .step (.step (.step (.step .start (.assign (by decide) rfl (by decide)))
    (.assign (by decide) rfl (by decide))) (.unassign (c := ⟨0, 0⟩) rfl))
    (.assign (by decide) rfl (by decide))

def resettledBooks : Occupancy lone where
  used := #[SortedMap.empty.insert .cores 1, SortedMap.empty.insert .cores 1]
  residents := #[[1], [0]]
  chips := #[some ⟨1, 0⟩, some ⟨0, 0⟩, none]

/-- There is room for the third slice, but not for two cores more. -/
theorem Course.keeps_books_resettling :
    lone.size < 2 ^ 32 ∧ Course trio lone resettling resettled ∧
    resettling.foldlM (change trio) (vacant lone 3) = .ok resettledBooks ∧
    resettledBooks.Records trio resettled ∧
    (∃ o, resettledBooks.assign 2 ⟨0, 0⟩ (SortedMap.empty.insert .cores 1) = .ok o ∧
      o.withinCapacity ⟨0, 0⟩ = .ok true) ∧
    ∃ o, resettledBooks.assign 2 ⟨0, 0⟩ (SortedMap.empty.insert .cores 2) = .ok o ∧
      o.withinCapacity ⟨0, 0⟩ = .ok false := by
  have hsize : lone.size < 2 ^ 32 := by decide
  have hrun : resettling.foldlM (change trio) (vacant lone 3) = .ok resettledBooks := rfl
  have hwithin : resettledBooks.withinCapacity ⟨0, 0⟩ = .ok true := by decide +kernel
  have hone : resettledBooks.fits ⟨0, 0⟩ (SortedMap.empty.insert .cores 1) = .ok true := by
    decide +kernel
  have htwo : resettledBooks.fits ⟨0, 0⟩ (SortedMap.empty.insert .cores 2) = .ok false := by
    decide +kernel
  obtain ⟨o, ho, hrecords, hfits⟩ := course_resettling.keeps_books hsize
  obtain rfl := Except.ok.inj (hrun.symm.trans ho)
  obtain ⟨room, hroom, -, hassign⟩ := hfits ⟨0, 0⟩ hwithin (SortedMap.empty.insert .cores 1)
  obtain ⟨room', hroom', -, hassign'⟩ := hfits ⟨0, 0⟩ hwithin (SortedMap.empty.insert .cores 2)
  obtain rfl := Except.ok.inj (hone.symm.trans hroom)
  obtain rfl := Except.ok.inj (htwo.symm.trans hroom')
  exact ⟨hsize, course_resettling, hrun, hrecords, hassign 2 (by decide) rfl, hassign' 2 (by decide) rfl⟩

end Occupancy

end HexFabric
