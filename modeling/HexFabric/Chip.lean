import HexFabric.Link
import HexFabric.Order

/-! Chips, named by their place on the grid, and the order in which the grid is scanned. -/

namespace HexFabric

/-- A chip, by its column and row. -/
structure Chip where
  x : Nat
  y : Nat
  deriving DecidableEq

namespace Chip

/-- Chips are scanned column by column. -/
instance : LT Chip := ⟨fun a b => a.x < b.x ∨ a.x = b.x ∧ a.y < b.y⟩

instance : DecidableLT Chip := fun a b =>
  inferInstanceAs (Decidable (a.x < b.x ∨ a.x = b.x ∧ a.y < b.y))

theorem lt_iff {a b : Chip} : a < b ↔ a.x < b.x ∨ a.x = b.x ∧ a.y < b.y := Iff.rfl

instance : ToString Chip := ⟨fun c => s!"({c.x}, {c.y})"⟩

end Chip

instance : StrictLinear Chip where
  irrefl a := by simp [Chip.lt_iff]
  trans h h' := by simp only [Chip.lt_iff] at *; omega
  connected {a b} h h' := by
    cases a; cases b
    simp only [Chip.lt_iff, Chip.mk.injEq] at *
    omega

instance : StrictLinear Link where
  irrefl a := Nat.lt_irrefl a.index
  trans h h' := Nat.lt_trans h h'
  connected {a b} h h' := by
    have : a.index = b.index := Nat.le_antisymm (Nat.not_lt.1 h') (Nat.not_lt.1 h)
    rw [← Link.ofIndex_index a, this, Link.ofIndex_index]

end HexFabric
