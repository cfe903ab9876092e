import HexFabric.Key.Layout
import HexFabric.Key.Pattern
import HexFabric.Placement

/-! Giving every net a key. Nets are numbered on their source chip in the order of nets. -/

namespace HexFabric

/-- How wide the fields of keys are. -/
inductive KeyPolicy where
  /-- As narrow as the machine and the busiest chip allow. -/
  | narrowest
  | fixed (layout : KeyLayout)
  deriving DecidableEq

/-- The keys of all nets, by number, each with the mask under which it is matched. -/
structure KeyAssignment where
  layout : KeyLayout
  keys : Array Pattern
  deriving DecidableEq

def KeyAssignment.keyOf (a : KeyAssignment) (net : Nat) : Checked Pattern := fetch a.keys net

namespace KeyPolicy

def validate : KeyPolicy → Except Error Unit
  | narrowest => .ok ()
  | fixed l =>
    if 32 < l.totalBits then .error (.invalidConfig (.keyTooWide l.xBits l.yBits l.indexBits))
    else .ok ()

end KeyPolicy

namespace Partitioning

def sourceChips (part : Partitioning) (p : Placement) : Checked (List Chip) :=
  part.nets.toList.mapM fun n => p.chipOf n.source

/-- The number of nets from each chip, by cell. -/
def sourceCounts (g : Grid) (sources : List Chip) : Checked (Array Nat) :=
  sources.foldlM (fun counts c => adjust counts (g.cell c) (· + 1)) (Array.replicate g.cells 0)

/-- Each live chip with the number of nets from it, in the order of the scan. -/
def liveCounts (m : Machine) (counts : Array Nat) : Checked (List (Chip × Nat)) :=
  m.liveChips.mapM fun c => do return (c, ← fetch counts (m.cell c))

/-- The first chip with the most nets. -/
def busiest (counts : List (Chip × Nat)) : Chip × Nat :=
  counts.foldl (fun best e => if best.2 < e.2 then e else best) (⟨0, 0⟩, 0)

/-- More nets come from a chip than can be numbered in so many bits. -/
def exhausted (chip : Chip) (count indexBits : Nat) : Error :=
  .keyspaceExhausted chip count indexBits (1 <<< indexBits)

/-- The widths that a policy leads to. -/
def chooseLayout (g : Grid) (counts : List (Chip × Nat)) : KeyPolicy → Except Error KeyLayout
  | .narrowest =>
    let (chip, count) := busiest counts
    let layout : KeyLayout := ⟨bitsFor g.width, bitsFor g.height, bitsFor count⟩
    if 32 < layout.totalBits then
      .error (exhausted chip count (32 - (layout.xBits + layout.yBits)))
    else .ok layout
  | .fixed layout =>
    if layout.xBits < bitsFor g.width ∨ layout.yBits < bitsFor g.height then
      .error (.invalidConfig (.coordinatesTooNarrow layout.xBits layout.yBits g.width g.height))
    else
      match counts.find? fun e => layout.indexCapacity < e.2 with
      | some (chip, count) => .error (exhausted chip count layout.indexBits)
      | none => .ok layout

/-- The keys of nets with the given source chips; `next` has the next number of each chip, by
cell. -/
def numberNets [Build] (g : Grid) (layout : KeyLayout) :
    List Chip → Array Nat → Checked (List Pattern)
  | [], _ => .ok []
  | c :: rest, next => do
    let index ← fetch next (g.cell c)
    assert (index < layout.indexCapacity) .wideIndex
    let next ← adjust next (g.cell c) (· + 1)
    return ⟨layout.key c index, layout.mask⟩ :: (← numberNets g layout rest next)

def allocateKeys [Build] (part : Partitioning) (p : Placement) (m : Machine) (policy : KeyPolicy) :
    Outcome KeyAssignment := do
  policy.validate
  let sources ← part.sourceChips p
  let counts ← liveCounts m (← sourceCounts m.toGrid sources)
  let layout ← chooseLayout m.toGrid counts policy
  let keys ← numberNets m.toGrid layout sources (Array.replicate m.cells 0)
  return ⟨layout, keys.toArray⟩

end Partitioning

end HexFabric
