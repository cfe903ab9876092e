import HexFabric.Chip
import HexFabric.Resource

/-! What stops a computation whose caller broke a promise, and computations that can be stopped in
this way. -/

namespace HexFabric

/-- A broken promise of a caller. It is no answer: a computation that meets one has none. -/
inductive Defect where
  /-- More of a resource was given back than was taken. -/
  | underflow (resource : Resource)
  /-- A share of atoms that lie outside the whole, or of nothing. -/
  | badShare
  /-- A coordinate taken round a ring of length zero, or atoms cut into granules of none. -/
  | divisionByZero
  | indexOutOfRange
  | emptyRange
  /-- A slice put on a second chip. -/
  | placedTwice (slice : Nat)
  /-- A slice on no chip where its chip is asked for. -/
  | notPlaced (slice : Nat)
  /-- A finished placement that does not fit the machine. -/
  | overfullPlacement
  /-- A chip reached by a search, but from nowhere. -/
  | parentless (chip : Chip)
  /-- An array of more bytes than there are addresses. -/
  | tooLarge
  /-- A move that is longer than it may be. -/
  | farTarget
  /-- The number of a net that its field of the key does not hold. -/
  | wideIndex
  /-- A table that lost or changed a route when it was minimised. -/
  | misrouting (chip : Chip)
  deriving DecidableEq

/-- A computation that stops at a defect. -/
abbrev Checked (α : Type) : Type := Except Defect α

/-- How the program is built. A build for tests checks assertions that a build for use leaves out. -/
class Build where
  asserts : Bool

@[reducible] def Build.forUse : Build := ⟨false⟩

@[reducible] def Build.forTests : Build := ⟨true⟩

instance : Build := .forUse

/-- Stops at a defect unless `p` holds, in a build that checks assertions. -/
@[macro_inline] def assert [Build] (p : Prop) [Decidable p] (d : Defect) : Checked Unit :=
  match Build.asserts with
  | true => if p then .ok () else .error d
  | false => .ok ()

def fetch {α : Type} (xs : Array α) (i : Nat) : Checked α :=
  match xs[i]? with
  | some a => .ok a
  | none => .error .indexOutOfRange

/-- Replaces the element at an index. -/
def store {α : Type} (xs : Array α) (i : Nat) (a : α) : Checked (Array α) :=
  if i < xs.size then .ok (xs.setIfInBounds i a) else .error .indexOutOfRange

/-- Changes the element at an index. -/
def adjust {α : Type} (xs : Array α) (i : Nat) (f : α → α) : Checked (Array α) :=
  if i < xs.size then .ok (xs.modify i f) else .error .indexOutOfRange

end HexFabric
