/-! A set listed in the order of first insertion. -/

namespace HexFabric

/-- Elements in the order in which each was first inserted. -/
structure InsertionSet (α : Type) where
  elems : List α
  distinct : elems.Nodup

namespace InsertionSet

variable {α : Type} [DecidableEq α]

def empty : InsertionSet α := ⟨[], List.nodup_nil⟩

instance : Membership α (InsertionSet α) := ⟨fun s a => a ∈ s.elems⟩

instance (a : α) (s : InsertionSet α) : Decidable (a ∈ s) :=
  inferInstanceAs (Decidable (a ∈ s.elems))

/-- Adds `a` at the end, unless it is there already. -/
def insert (s : InsertionSet α) (a : α) : InsertionSet α :=
  if h : a ∈ s.elems then s
  else ⟨s.elems ++ [a], by
    refine List.nodup_append.2 ⟨s.distinct, by simp, fun b hb c hc hbc => ?_⟩
    simp only [List.mem_singleton] at hc
    exact h (hc ▸ hbc ▸ hb)⟩

/-- The elements of a list in order of first appearance. -/
def ofList (as : List α) : InsertionSet α := as.foldl insert empty

@[simp] theorem mem_insert {s : InsertionSet α} {a b : α} : b ∈ s.insert a ↔ b ∈ s ∨ b = a := by
  unfold insert
  split
  · exact ⟨.inl, fun h => h.elim id (· ▸ ‹a ∈ s.elems›)⟩
  · exact List.mem_append.trans (or_congr Iff.rfl List.mem_singleton)

/-- `s` and `t` have the same elements, in whatever order. -/
def sameElems (s t : InsertionSet α) : Bool :=
  s.elems.all (· ∈ t.elems) && t.elems.all (· ∈ s.elems)

end InsertionSet

end HexFabric
