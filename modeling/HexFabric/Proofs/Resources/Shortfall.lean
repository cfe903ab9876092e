import HexFabric.Proofs.Resources

/-! Which shortfall is reported of a demand. There is one exactly if there are capacities and the
demand fits none of them. It is against the capacity that the demand comes closest to fitting, the
foremost of several such, and on the first resource that this has too little of:
`closestShortfall_foremost`. -/

namespace HexFabric

theorem Ratio.lt_iff {a b : Ratio} : a < b ↔ a.bits.toNat < b.bits.toNat := UInt64.lt_iff_toNat_lt

instance : StrictLinear Ratio where
  irrefl a := by simp [Ratio.lt_iff]
  trans h h' := by
    rw [Ratio.lt_iff] at *
    omega
  connected {a b} h h' := by
    cases a; cases b
    simp only [Ratio.lt_iff, Ratio.mk.injEq, ← UInt64.toNat_inj] at *
    omega

/-- What `s` says of a demand and a capacity is true: the one has more of a resource than the
other. -/
structure Shortfall.Holds (s : Shortfall) (demand capacity : Resources) : Prop where
  required : s.required = demand.quantity s.resource
  available : s.available = capacity.quantity s.resource
  short : s.available < s.required

/-- Besides, the demand does not exceed the capacity on any resource before that one. -/
structure Shortfall.IsFirst (s : Shortfall) (demand capacity : Resources) : Prop
    extends s.Holds demand capacity where
  first : ∀ k, k < s.resource → demand.quantity k ≤ capacity.quantity k

namespace Shortfall

variable {s t : Shortfall} {demand capacity : Resources}

theorem Holds.exceeds (h : s.Holds demand capacity) :
    capacity.quantity s.resource < demand.quantity s.resource := by
  rw [← h.available, ← h.required]
  exact h.short

theorem IsFirst.unique (hs : s.IsFirst demand capacity) (ht : t.IsFirst demand capacity) :
    s = t := by
  have hresource : s.resource = t.resource :=
    StrictLinear.connected (fun hlt => Nat.not_lt.2 (ht.first _ hlt) hs.exceeds)
      fun hlt => Nat.not_lt.2 (hs.first _ hlt) ht.exceeds
  have hrequired : s.required = t.required := by rw [hs.required, ht.required, hresource]
  have havailable : s.available = t.available := by rw [hs.available, ht.available, hresource]
  cases s
  cases t
  rw [Shortfall.mk.injEq]
  exact ⟨hresource, hrequired, havailable⟩

end Shortfall

namespace Resources

variable {demand capacity c d : Resources} {capacities : List Resources} {s : Shortfall}

theorem isFirst_of_firstShortfall (h : demand.firstShortfall capacity = some s) :
    s.IsFirst demand capacity := by
  obtain ⟨⟨k, q⟩, hfind, rfl⟩ := Option.map_eq_some_iff.1 h
  have hlt : capacity.quantity k < q := by simpa using List.find?_some hfind
  refine ⟨⟨(quantity_of_mem (List.mem_of_find?_eq_some hfind)).symm, rfl, hlt⟩,
    fun j hj => Nat.not_lt.1 fun hexceeds => ?_⟩
  have hmem := mem_entries_of_quantity (Nat.ne_of_gt (Nat.zero_lt_of_lt hexceeds))
  exact Ascending.not_of_lt_find? demand.ascending hfind hmem hj (decide_eq_true hexceeds)

/-! ### The closest of several capacities -/

/-- The largest part that `demand` takes of what `capacity` has of a resource. -/
def strain (demand capacity : Resources) : Ratio := (demand.worstRatio capacity).2

/-- `demand` comes closer to fitting `c` than the capacities before it, and no closer to fitting those
after it. -/
def Foremost (demand : Resources) (capacities : List Resources) (c : Resources) : Prop :=
  ∃ before after, capacities = before ++ c :: after ∧
    (∀ d ∈ before, demand.strain c < demand.strain d) ∧
    ∀ d ∈ after, ¬demand.strain d < demand.strain c

namespace Foremost

theorem mem (h : Foremost demand capacities c) : c ∈ capacities := by
  obtain ⟨before, after, rfl, -⟩ := h
  exact List.mem_append_cons_self

theorem not_lt (h : Foremost demand capacities c) (hd : d ∈ capacities) :
    ¬demand.strain d < demand.strain c := by
  obtain ⟨before, after, rfl, hbefore, hafter⟩ := h
  rw [List.mem_append, List.mem_cons] at hd
  rcases hd with hd | rfl | hd
  · exact StrictLinear.asymm (hbefore d hd)
  · exact StrictLinear.irrefl _
  · exact hafter d hd

theorem singleton (demand c : Resources) : Foremost demand [c] c :=
  ⟨[], [], rfl, List.forall_mem_nil _, List.forall_mem_nil _⟩

theorem keep (h : Foremost demand capacities c) (hd : ¬demand.strain d < demand.strain c) :
    Foremost demand (capacities ++ [d]) c := by
  obtain ⟨before, after, rfl, hbefore, hafter⟩ := h
  refine ⟨before, after ++ [d], by simp, hbefore, fun e he => ?_⟩
  rw [List.mem_append, List.mem_singleton] at he
  rcases he with he | rfl
  · exact hafter e he
  · exact hd

theorem replace (h : Foremost demand capacities c) (hd : demand.strain d < demand.strain c) :
    Foremost demand (capacities ++ [d]) d := by
  refine ⟨capacities, [], rfl, fun e he => ?_, List.forall_mem_nil _⟩
  by_contra hle
  exact StrictLinear.not_lt_trans (h.not_lt he) hle hd

theorem unique (hc : Foremost demand capacities c) (hd : Foremost demand capacities d) : c = d := by
  have hcd := hd.not_lt hc.mem
  have hdc := hc.not_lt hd.mem
  obtain ⟨before, after, hsplit, hbefore, -⟩ := hc
  obtain ⟨before', after', hsplit', hbefore', -⟩ := hd
  rw [hsplit] at hsplit'
  -- if one of them stood before the other, the other would come closer
  rcases List.append_eq_append_iff.1 hsplit' with ⟨between, h, h'⟩ | ⟨between, h, h'⟩
  · cases between with
    | nil => exact (List.cons.inj h').1
    | cons e rest =>
      obtain ⟨rfl, -⟩ := List.cons.inj h'
      exact absurd (hbefore' c (h ▸ List.mem_append_cons_self)) hdc
  · cases between with
    | nil => exact (List.cons.inj h').1.symm
    | cons e rest =>
      obtain ⟨rfl, -⟩ := List.cons.inj h'
      exact absurd (hbefore d (h ▸ List.mem_append_cons_self)) hcd

end Foremost

/-- What is kept of the capacities that have been seen: the foremost of them, with its ratio. -/
def Kept (demand : Resources) (seen : List Resources) : Option (Ratio × Resources) → Prop
  | .none => seen = []
  | some (least, c) => least = demand.strain c ∧ Foremost demand seen c

theorem kept_nil (demand : Resources) : Kept demand [] .none := rfl

theorem foremost_of_closestCapacity {closest : Option (Ratio × Resources)} (seen : List Resources)
    (hkept : Kept demand seen closest) (h : closestCapacity demand closest capacities = some c) :
    Foremost demand (seen ++ capacities) c := by
  revert seen
  fun_induction closestCapacity demand closest capacities with
  | case1 closest =>
    intro seen hkept
    obtain ⟨⟨least, best⟩, rfl, rfl⟩ := Option.map_eq_some_iff.1 h
    rw [List.append_nil]
    exact hkept.2
  | case2 closest d rest hfits => cases h
  | case3 d rest hfits ratio least best ih =>
    rintro seen ⟨rfl, hbest⟩
    rw [List.append_cons]
    refine ih h (seen ++ [d]) ?_
    split
    next hlt => exact ⟨rfl, hbest.replace hlt⟩
    next hle => exact ⟨rfl, hbest.keep hle⟩
  | case4 d rest hfits ratio ih =>
    rintro _ rfl
    exact ih h [d] ⟨rfl, .singleton demand d⟩

theorem closestCapacity_eq_none_iff {closest : Option (Ratio × Resources)} :
    closestCapacity demand closest capacities = .none ↔
      (∃ c ∈ capacities, demand.fitsWithin c) ∨ closest = .none ∧ capacities = [] := by
  fun_induction closestCapacity demand closest capacities with
  | case1 closest => simp
  | case2 closest c rest hfits => simp [hfits]
  | case3 c rest hfits ratio least best ih =>
    have hkept : (if ratio < least then some (ratio, c) else some (least, best)) ≠ .none := by
      split <;> exact Option.some_ne_none _
    rw [ih]
    simp [hfits, hkept]
  | case4 c rest hfits ratio ih =>
    rw [ih]
    simp [hfits]

/-- A shortfall that is reported is the first against the capacity that comes closest. -/
theorem exists_foremost_of_closestShortfall (h : demand.closestShortfall capacities = some s) :
    ∃ c, Foremost demand capacities c ∧ s.IsFirst demand c := by
  obtain ⟨c, hc, hs⟩ := Option.bind_eq_some_iff.1 h
  exact ⟨c, foremost_of_closestCapacity [] (kept_nil demand) hc, isFirst_of_firstShortfall hs⟩

/-- No shortfall is reported only if there is nothing to compare with or the demand fits. -/
theorem closestShortfall_eq_none_iff :
    demand.closestShortfall capacities = .none ↔
      capacities = [] ∨ ∃ c ∈ capacities, demand.fitsWithin c := by
  have hcapacity : demand.closestCapacity .none capacities = .none ↔
      capacities = [] ∨ ∃ c ∈ capacities, demand.fitsWithin c := by
    rw [closestCapacity_eq_none_iff, or_comm, eq_self_iff_true, true_and]
  rw [closestShortfall]
  cases hc : demand.closestCapacity .none capacities with
  | none => exact iff_of_true rfl (hcapacity.1 hc)
  | some c =>
    have hnone : ¬(capacities = [] ∨ ∃ c ∈ capacities, demand.fitsWithin c) := fun h => by
      rw [hcapacity.2 h] at hc
      cases hc
    have hmem := (foremost_of_closestCapacity [] (kept_nil demand) hc).mem
    rw [iff_false_right hnone, Option.bind_some, ← Option.isNone_iff_eq_none]
    exact fun hfits => hnone (.inr ⟨c, hmem, hfits⟩)

theorem exists_of_closestShortfall (h : demand.closestShortfall capacities = some s) :
    ∃ c ∈ capacities, s.Holds demand c := by
  obtain ⟨c, hc, hs⟩ := exists_foremost_of_closestShortfall h
  exact ⟨c, hc.mem, hs.toHolds⟩

/-- No shortfall is reported exactly if there is no capacity or the demand fits one of them. What is
reported otherwise is the first shortfall against the foremost of the capacities with the least
strain. -/
theorem closestShortfall_foremost (demand : Resources) (capacities : List Resources) :
    (demand.closestShortfall capacities = .none ↔
      capacities = [] ∨ ∃ c ∈ capacities, ∀ k, demand.quantity k ≤ c.quantity k) ∧
    ∀ s, demand.closestShortfall capacities = some s ↔
      (∀ c ∈ capacities, ∃ k, c.quantity k < demand.quantity k) ∧
        ∃ c, Foremost demand capacities c ∧ s.IsFirst demand c := by
  have hnone : demand.closestShortfall capacities = .none ↔
      capacities = [] ∨ ∃ c ∈ capacities, ∀ k, demand.quantity k ≤ c.quantity k := by
    simp only [closestShortfall_eq_none_iff, fitsWithin_iff]
  refine ⟨hnone, fun s => ⟨fun h => ⟨fun c hc => ?_, exists_foremost_of_closestShortfall h⟩, ?_⟩⟩
  · by_contra hfits
    push Not at hfits
    rw [hnone.2 (.inr ⟨c, hc, hfits⟩)] at h
    cases h
  · rintro ⟨hexceeds, c, hc, hs⟩
    cases h : demand.closestShortfall capacities with
    | none =>
      rcases hnone.1 h with rfl | ⟨d, hd, hfits⟩
      · cases hc.mem
      · obtain ⟨k, hk⟩ := hexceeds d hd
        exact absurd (hfits k) (Nat.not_le.2 hk)
    | some t =>
      obtain ⟨d, hd, ht⟩ := exists_foremost_of_closestShortfall h
      rw [hd.unique hc] at ht
      rw [ht.unique hs]

/-- A tenth of the memory that it takes counts for less than a quarter of the cores. -/
example : closestShortfall (.ofList [(.cores, 4), (.sdram, 100)])
    [.ofList [(.cores, 4), (.sdram, 10)], .ofList [(.cores, 1), (.sdram, 100)]] =
      some ⟨.cores, 4, 1⟩ := by
  decide +kernel

end Resources

end HexFabric
