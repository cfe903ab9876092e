import HexFabric.Order

/-! Sets of keys that agree on some of their bits. -/

namespace HexFabric

/-- The keys that agree with `key` on the bits of `mask`. -/
structure Pattern where
  key : BitVec 32
  mask : BitVec 32
  deriving DecidableEq

namespace Pattern

/-- The pattern of keys that agree with `key` on the bits of `mask`, with other bits cleared. -/
def of (key mask : BitVec 32) : Pattern := ⟨key &&& mask, mask⟩

/-- A key agrees with the pattern. -/
def accepts (p : Pattern) (key : BitVec 32) : Bool := key &&& p.mask == p.key

/-- Some key agrees with both patterns. -/
def overlaps (p q : Pattern) : Bool := (p.key ^^^ q.key) &&& p.mask &&& q.mask == 0

/-- Patterns are ordered by mask, then by key. -/
instance : LT Pattern := ⟨fun p q => p.mask < q.mask ∨ p.mask = q.mask ∧ p.key < q.key⟩

instance : DecidableLT Pattern := fun p q =>
  inferInstanceAs (Decidable (p.mask < q.mask ∨ p.mask = q.mask ∧ p.key < q.key))

theorem lt_iff {p q : Pattern} : p < q ↔ p.mask < q.mask ∨ p.mask = q.mask ∧ p.key < q.key :=
  Iff.rfl

end Pattern

instance : StrictLinear Pattern where
  irrefl p := by simp [Pattern.lt_iff]
  trans h h' := by
    simp only [Pattern.lt_iff, BitVec.lt_def, BitVec.toNat_eq] at *
    omega
  connected {p q} h h' := by
    cases p; cases q
    simp only [Pattern.lt_iff, Pattern.mk.injEq, BitVec.lt_def, BitVec.toNat_eq] at *
    omega

/-- The lowest bit that is set. -/
def lowestBit? (w : BitVec 32) : Option Nat := (List.range 32).find? fun i => w.getLsbD i

theorem getLsbD_of_lowestBit? {w : BitVec 32} {i : Nat} (h : lowestBit? w = some i) :
    i < 32 ∧ w.getLsbD i = true :=
  ⟨List.mem_range.1 (List.mem_of_find?_eq_some h), by simpa using List.find?_some h⟩

end HexFabric
