import HexFabric.Machine.Basic

/-! What the chips of a machine offer: reservations, extremes, and comparison of two machines. -/

namespace HexFabric

namespace Resources

/-- The larger quantity of each resource. A resource that `s` names with zero is not added. -/
def peak (r s : Resources) : Resources :=
  s.entries.foldl (fun acc e => if acc.quantity e.1 < e.2 then acc.set e.1 e.2 else acc) r

/-- `r` and `s` name the same resources, and `r` has no more of any. -/
def within (r s : Resources) : Bool :=
  r.keys = s.keys && r.entries.all fun e => e.2 ≤ s.quantity e.1

@[simp] theorem keys_remainingOf (used capacity : Resources) :
    (used.remainingOf capacity).keys = capacity.keys :=
  SortedMap.keys_mapValues _ _

end Resources

namespace Machine

def reserveEverywhere (m : Machine) (r : Resources) : Machine where
  toBlueprint := { m.toBlueprint with
    resources := r.remainingOf m.resources
    resourceExceptions := m.resourceExceptions.mapValues r.remainingOf }
  valid := by
    obtain ⟨hw, hh, hres, hchips, hlinks, hrouters⟩ := m.valid
    refine ⟨hw, hh, fun e he => ?_, hchips, hlinks, hrouters⟩
    obtain ⟨e', he', rfl⟩ := List.mem_map.1 he
    exact ⟨(hres e' he').1, by simp [(hres e' he').2]⟩

/-- `m` with resources withheld from one chip, if that is live. -/
def reserveAt (m : Machine) (r : Resources) (c : Chip) : Machine :=
  if h : m.Live c then
    { toBlueprint := { m.toBlueprint with
        resourceExceptions := m.resourceExceptions.insert c (r.remainingOf (m.resourcesAt c)) }
      valid := by
        obtain ⟨hw, hh, hres, hchips, hlinks, hrouters⟩ := m.valid
        refine ⟨hw, hh, fun e he => ?_, hchips, hlinks, hrouters⟩
        rcases InsertionMap.mem_insertEntry he with rfl | he
        · exact ⟨h.1, by simp [m.keys_resourcesAt]⟩
        · exact hres e he }
  else m

/-- `m` with resources withheld, from one chip or from every chip. -/
def reserve (m : Machine) (r : Resources) : Option Chip → Machine
  | none => m.reserveEverywhere r
  | some c => m.reserveAt r c

/-- The most that any live chip offers of each resource. -/
def largestCapacities (m : Machine) : Resources :=
  m.liveChips.foldl (fun acc c => acc.peak (m.resourcesAt c)) .none

/-- The different capacities of live chips, by first chip. -/
def capacityProfiles (m : Machine) : List Resources :=
  (InsertionSet.ofList (m.liveChips.map m.resourcesAt)).elems

/-- `m` has no more than `n`: it is no larger, it offers no more on any chip, and all that is dead
in `n` is dead in `m`. -/
def isSubset (m n : Machine) : Bool :=
  m.width ≤ n.width && m.height ≤ n.height && n.deadChips.elems.all (· ∈ m.deadChips) &&
    n.deadLinks.elems.all (· ∈ m.deadLinks) &&
    m.chips.all fun c => (m.resourcesAt c).within (n.resourcesAt c)

end Machine

end HexFabric
