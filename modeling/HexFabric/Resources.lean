import HexFabric.Defect
import HexFabric.SortedMap

/-! Quantities of resources. A resource that is not named counts as zero, but a vector that names it
with zero differs from one that does not. -/

namespace HexFabric

abbrev Resources : Type := SortedMap Resource Nat

namespace Resources

def none : Resources := SortedMap.empty

/-- The quantity of a resource, zero where it is not named. -/
def quantity (r : Resources) (k : Resource) : Nat := (r.get? k).getD 0

def set (r : Resources) (k : Resource) (q : Nat) : Resources := r.insert k q

def isZero (r : Resources) : Bool := r.entries.all (·.2 == 0)

/-- The sum of two vectors. It names what either of them names. -/
def add (r s : Resources) : Resources :=
  s.entries.foldl (fun acc e => acc.alter e.1 fun q => q.getD 0 + e.2) r

/-- `r` without `s`, which is a part of it. It names what either of them names. -/
def sub (r s : Resources) : Checked Resources :=
  s.entries.foldlM (fun acc e =>
    if acc.quantity e.1 < e.2 then .error (.underflow e.1)
    else .ok (acc.set e.1 (acc.quantity e.1 - e.2))) r

/-- What `used` leaves of a capacity, resource by resource, and zero where it takes more. -/
def remainingOf (used capacity : Resources) : Resources :=
  capacity.mapValues fun k q => q - used.quantity k

/-- The demand of an atom range: of a whole of `extent` atoms, `n` atoms from the start have the
floor of their part of each quantity, and a range has what its end has beyond its start. So the
parts of any division of the whole add up to it. -/
def share (r : Resources) (lo hi extent : Nat) : Resources :=
  r.mapValues fun _ q => q * hi / extent - q * lo / extent

/-- `share`, for a range inside a whole that has atoms. -/
def share? (r : Resources) (lo hi extent : Nat) : Checked Resources :=
  if lo ≤ hi ∧ hi ≤ extent ∧ 0 < extent then .ok (r.share lo hi extent) else .error .badShare

end Resources

end HexFabric
