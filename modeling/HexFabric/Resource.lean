import HexFabric.Order

/-! The kinds of resource that chips offer and slices need, and their order. -/

namespace HexFabric

inductive Resource where
  | cores
  /-- Memory shared by the cores of a chip and outside it, in bytes. -/
  | sdram
  /-- Memory shared by the cores of a chip and on it, in bytes. -/
  | sram
  | named (name : String)
  deriving DecidableEq

namespace Resource

def label : Resource → String
  | cores => "cores"
  | sdram => "sdram"
  | sram => "sram"
  | named name => name

instance : ToString Resource := ⟨label⟩

/-- The place of the kind of a resource among the kinds; all named resources share the last. -/
def rank : Resource → Nat
  | cores => 0
  | sdram => 1
  | sram => 2
  | named _ => 3

/-- Built-in resources come first, then the named ones by name. -/
instance : LT Resource := ⟨fun a b => a.rank < b.rank ∨ a.rank = b.rank ∧ a.label < b.label⟩

instance : DecidableLT Resource := fun a b =>
  inferInstanceAs (Decidable (a.rank < b.rank ∨ a.rank = b.rank ∧ a.label < b.label))

theorem lt_iff {a b : Resource} :
    a < b ↔ a.rank < b.rank ∨ a.rank = b.rank ∧ a.label < b.label := Iff.rfl

theorem eq_of_rank_of_label {a b : Resource} (hr : a.rank = b.rank) (hl : a.label = b.label) :
    a = b := by
  cases a <;> cases b <;> simp_all [rank, label]

end Resource

instance : StrictLinear Resource where
  irrefl a := by simp [Resource.lt_iff]
  trans {a b c} h h' := by
    simp only [Resource.lt_iff] at *
    rcases h with h | ⟨h, hl⟩ <;> rcases h' with h' | ⟨h', hl'⟩
    · exact .inl (Nat.lt_trans h h')
    · exact .inl (h' ▸ h)
    · exact .inl (h ▸ h')
    · exact .inr ⟨h.trans h', String.lt_trans hl hl'⟩
  connected {a b} h h' := by
    simp only [Resource.lt_iff, not_or, not_and] at h h'
    have hr : a.rank = b.rank := by omega
    exact Resource.eq_of_rank_of_label hr (String.le_antisymm (h'.2 hr.symm) (h.2 hr))

end HexFabric
