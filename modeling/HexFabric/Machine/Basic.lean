import HexFabric.Machine.Blueprint

/-! A machine, that is a description that makes sense, and what works in it. -/

namespace HexFabric

structure Machine extends Blueprint where
  valid : toBlueprint.Valid

namespace Machine

def ofBlueprint (b : Blueprint) : Except Error Machine :=
  match h : b.fault? with
  | none => .ok ⟨b, Blueprint.fault?_eq_none_iff.1 h⟩
  | some fault => .error (.invalidMachine fault)

def build (grid : Grid) (steps : List Amendment) : Outcome Machine := do
  let b ← (steps.foldlM Blueprint.amend (Blueprint.uniform grid) : Checked Blueprint)
  ofBlueprint b

/-- `c` is on the grid and works. -/
def Live (m : Machine) (c : Chip) : Prop := m.Has c ∧ c ∉ m.deadChips

instance (m : Machine) (c : Chip) : Decidable (m.Live c) :=
  inferInstanceAs (Decidable (m.Has c ∧ c ∉ m.deadChips))

/-- `c` works and its link `l` is not dead. The far end may be. -/
def LinkLive (m : Machine) (c : Chip) (l : Link) : Prop := m.Live c ∧ (c, l) ∉ m.deadLinks

instance (m : Machine) (c : Chip) (l : Link) : Decidable (m.LinkLive c l) :=
  inferInstanceAs (Decidable (m.Live c ∧ (c, l) ∉ m.deadLinks))

/-- The live chip to which a live link leads. -/
def hop (m : Machine) (c : Chip) (l : Link) : Option Chip :=
  if m.LinkLive c l then (m.neighbour c l).filter fun n => m.Live n else none

/-- The live chips, in the order of the scan. -/
def liveChips (m : Machine) : List Chip := m.chips.filter fun c => m.Live c

/-- The links between live chips that can be used, by chip and number. -/
def usableLinks (m : Machine) : List (Chip × Link) :=
  m.liveChips.flatMap fun c => (Link.all.filter fun l => (m.hop c l).isSome).map fun l => (c, l)

/-- What a chip offers, or would if it worked. -/
def resourcesAt (m : Machine) (c : Chip) : Resources :=
  (m.resourceExceptions.get? c).getD m.resources

def capacity? (m : Machine) (c : Chip) : Option Resources :=
  if m.Live c then some (m.resourcesAt c) else none

def routerLimit (m : Machine) (c : Chip) : Nat :=
  (m.routerExceptions.get? c).getD m.routerCapacity

/-- `m` and `n` are the same machine, whatever the order in which exceptions were made. -/
def same (m n : Machine) : Bool :=
  m.toGrid = n.toGrid && m.resources = n.resources &&
    m.resourceExceptions.sameEntries n.resourceExceptions && m.deadChips.sameElems n.deadChips &&
    m.deadLinks.sameElems n.deadLinks && m.routerCapacity = n.routerCapacity &&
    m.routerExceptions.sameEntries n.routerExceptions

/-! ### Wrap-around links -/

/-- A link leads over an edge of the grid. -/
def overEdge (m : Machine) (c : Chip) (l : Link) : Bool :=
  let x := c.x + l.step.dx
  let y := c.y + l.step.dy
  !(0 ≤ x && x < m.width && 0 ≤ y && y < m.height)

/-- The links over an edge of the grid, by chip and number. -/
def edgeLinks (m : Machine) : List (Chip × Link) :=
  m.chips.flatMap fun c => (Link.all.filter (m.overEdge c)).map fun l => (c, l)

/-- There are wrap-around links, and of them at least the part `fraction` works. -/
def wraps (m : Machine) (fraction : Float) : Bool :=
  match m.topology with
  | .mesh => false
  | .torus =>
    let links := m.edgeLinks
    let total := links.length
    let working := links.countP fun e => m.LinkLive e.1 e.2
    0 < total && fraction ≤ working.toUInt64.toFloat / total.toUInt64.toFloat

theorem keys_resourcesAt (m : Machine) (c : Chip) :
    (m.resourcesAt c).keys = m.resources.keys := by
  unfold resourcesAt
  cases h : m.resourceExceptions.get? c with
  | none => rfl
  | some r => exact (m.valid.resourceExceptions _ (InsertionMap.mem_of_get? h)).2

end Machine

end HexFabric
