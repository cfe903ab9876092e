import HexFabric.Resources

/-! Whether a demand fits a capacity, and by how much it fails to. -/

namespace HexFabric

/-- A resource of which more is required than available. -/
structure Shortfall where
  resource : Resource
  required : Nat
  available : Nat
  deriving DecidableEq

/-- A ratio of two quantities, rounded to a binary64 number. Ratios are not negative, so they are
ordered as their bit patterns are. -/
structure Ratio where
  bits : UInt64
  deriving DecidableEq

namespace Ratio

def zero : Ratio := ⟨0⟩

/-- `q` of `capacity`; a demand on a capacity of zero is infinitely large. -/
def of (q capacity : Nat) : Ratio :=
  if capacity = 0 then ⟨0x7ff0000000000000⟩
  else ⟨(q.toUInt64.toFloat / capacity.toUInt64.toFloat).toBits⟩

instance : LT Ratio := ⟨fun a b => a.bits < b.bits⟩

instance : DecidableLT Ratio := fun a b => inferInstanceAs (Decidable (a.bits < b.bits))

end Ratio

namespace Resources

/-- The first resource on which `demand` exceeds `capacity`. -/
def firstShortfall (demand capacity : Resources) : Option Shortfall :=
  (demand.entries.find? fun e => capacity.quantity e.1 < e.2).map fun e =>
    ⟨e.1, e.2, capacity.quantity e.1⟩

def fitsWithin (demand capacity : Resources) : Bool := (demand.firstShortfall capacity).isNone

/-- The resource on which `demand` takes the largest part of `capacity`, with that part; the first
such resource, and none where nothing is demanded. -/
def worstRatio (demand capacity : Resources) : Option Resource × Ratio :=
  demand.entries.foldl (fun worst e =>
    if e.2 = 0 then worst
    else
      let ratio := Ratio.of e.2 (capacity.quantity e.1)
      if worst.1.isNone ∨ worst.2 < ratio then (some e.1, ratio) else worst) (.none, .zero)

/-- The capacity, of those given and `closest`, with the least worst ratio; the first of several.
There is none if the demand fits one of those given. -/
def closestCapacity (demand : Resources) :
    Option (Ratio × Resources) → List Resources → Option Resources
  | closest, [] => closest.map (·.2)
  | closest, capacity :: rest =>
    if demand.fitsWithin capacity then .none
    else
      let ratio := (demand.worstRatio capacity).2
      match closest with
      | some (least, c) =>
        closestCapacity demand (if ratio < least then some (ratio, capacity) else some (least, c))
          rest
      | .none => closestCapacity demand (some (ratio, capacity)) rest

/-- For a demand that fits none of `capacities`, the first shortfall against the one that it comes
closest to fitting. -/
def closestShortfall (demand : Resources) (capacities : List Resources) : Option Shortfall :=
  (closestCapacity demand .none capacities).bind demand.firstShortfall

end Resources

end HexFabric
