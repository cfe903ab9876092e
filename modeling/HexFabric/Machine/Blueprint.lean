import HexFabric.Error
import HexFabric.Grid
import HexFabric.InsertionMap
import HexFabric.InsertionSet

/-! A machine as it is described, step by step, before it is known whether the description makes
sense. Almost all of a machine is uniform and working, so only the exceptions are listed. -/

namespace HexFabric

/-- The description of a machine. Exceptions are listed in the order in which they were made. -/
structure Blueprint extends Grid where
  /-- What a chip without an exception offers. -/
  resources : Resources
  resourceExceptions : InsertionMap Chip Resources
  deadChips : InsertionSet Chip
  /-- Links that do not work, in the direction away from the chip. -/
  deadLinks : InsertionSet (Chip × Link)
  /-- How many entries the router of a chip without an exception holds. -/
  routerCapacity : Nat
  routerExceptions : InsertionMap Chip Nat

inductive Amendment where
  | resources (resources : Resources)
  | resourceException (chip : Chip) (resources : Resources)
  | deadChip (chip : Chip)
  | deadLink (chip : Chip) (link : Link)
  | deadLinkPair (chip : Chip) (link : Link)
  | routerCapacity (entries : Nat)
  | routerException (chip : Chip) (entries : Nat)

namespace Blueprint

/-- What a chip offers unless something else is said. -/
def standardResources : Resources :=
  SortedMap.ofList [(.cores, 18), (.sdram, 128 * 1024 * 1024), (.sram, 32 * 1024)]

def uniform (grid : Grid) : Blueprint where
  toGrid := grid
  resources := standardResources
  resourceExceptions := .empty
  deadChips := .empty
  deadLinks := .empty
  routerCapacity := 1024
  routerExceptions := .empty

def killLink (b : Blueprint) (c : Chip) (l : Link) : Blueprint :=
  { b with deadLinks := b.deadLinks.insert (c, l) }

def amend (b : Blueprint) : Amendment → Checked Blueprint
  | .resources r => .ok { b with resources := r }
  | .resourceException c r => .ok { b with resourceExceptions := b.resourceExceptions.insert c r }
  | .deadChip c => .ok { b with deadChips := b.deadChips.insert c }
  | .deadLink c l => .ok (b.killLink c l)
  | .deadLinkPair c l => do
    match ← b.neighbour? c l with
    | some other => .ok ((b.killLink c l).killLink other l.opposite)
    | none => .ok (b.killLink c l)
  | .routerCapacity n => .ok { b with routerCapacity := n }
  | .routerException c n => .ok { b with routerExceptions := b.routerExceptions.insert c n }

/-- A description that makes sense: there are chips, all exceptions lie on the grid, and each names
the resources that all chips have. -/
structure Valid (b : Blueprint) : Prop where
  width_pos : 0 < b.width
  height_pos : 0 < b.height
  resourceExceptions : ∀ e ∈ b.resourceExceptions.entries, b.Has e.1 ∧ e.2.keys = b.resources.keys
  deadChips : ∀ c ∈ b.deadChips.elems, b.Has c
  deadLinks : ∀ l ∈ b.deadLinks.elems, b.Has l.1
  routerExceptions : ∀ e ∈ b.routerExceptions.entries, b.Has e.1

def resourceExceptionFault? (b : Blueprint) (e : Chip × Resources) : Option MachineFault :=
  if ¬b.Has e.1 then some (.resourceExceptionOutside e.1)
  else if e.2.keys ≠ b.resources.keys then some (.resourceExceptionNames e.1)
  else none

/-- The first thing wrong with a description: the size, then resource exceptions, dead chips, dead
links and router exceptions, each in the order in which they were made. -/
def fault? (b : Blueprint) : Option MachineFault :=
  ((((if b.width = 0 ∨ b.height = 0 then some (.noChips b.width b.height) else none).or
    (b.resourceExceptions.entries.findSome? b.resourceExceptionFault?)).or
    ((b.deadChips.elems.find? fun c => ¬b.Has c).map .deadChipOutside)).or
    ((b.deadLinks.elems.find? fun l => ¬b.Has l.1).map fun l => .deadLinkOutside l.1 l.2)).or
    ((b.routerExceptions.keys.find? fun c => ¬b.Has c).map .routerExceptionOutside)

theorem resourceExceptionFault?_eq_none {b : Blueprint} {e : Chip × Resources} :
    b.resourceExceptionFault? e = none ↔ b.Has e.1 ∧ e.2.keys = b.resources.keys := by
  unfold resourceExceptionFault?
  split
  · simp_all
  · split <;> simp_all

/-- Nothing is wrong with a description exactly if it makes sense. -/
theorem fault?_eq_none_iff {b : Blueprint} : b.fault? = none ↔ b.Valid := by
  unfold fault?
  simp only [Option.or_eq_none_iff, Option.map_eq_none_iff, List.findSome?_eq_none_iff,
    List.find?_eq_none, resourceExceptionFault?_eq_none]
  constructor
  · rintro ⟨⟨⟨⟨hsize, hres⟩, hchips⟩, hlinks⟩, hrouters⟩
    have hsides : ¬(b.width = 0 ∨ b.height = 0) := by simpa using hsize
    refine ⟨by omega, by omega, hres, by simpa using hchips, by simpa using hlinks, fun e he => ?_⟩
    have := hrouters e.1 (List.mem_map_of_mem he)
    simpa using this
  · rintro ⟨hw, hh, hres, hchips, hlinks, hrouters⟩
    refine ⟨⟨⟨⟨by split <;> simp_all; omega, hres⟩, by simpa using hchips⟩,
      by simpa using hlinks⟩, fun c hc => ?_⟩
    obtain ⟨e, he, rfl⟩ := List.mem_map.1 hc
    simpa using (hrouters e he)

end Blueprint

end HexFabric
