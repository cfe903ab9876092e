/-! Strict linear orders, and lists kept strictly ascending: a set in sorted order. Main statements:
insertion keeps a list ascending, and a list so built holds what was put into it. -/

namespace HexFabric

/-- `<` is a strict linear order on `α`. -/
class StrictLinear (α : Type) [LT α] : Prop where
  irrefl : ∀ a : α, ¬a < a
  trans : ∀ {a b c : α}, a < b → b < c → a < c
  connected : ∀ {a b : α}, ¬a < b → ¬b < a → a = b

instance : StrictLinear Nat where
  irrefl := Nat.lt_irrefl
  trans := Nat.lt_trans
  connected h h' := by omega

namespace StrictLinear

variable {α : Type} [LT α] [StrictLinear α]

theorem asymm {a b : α} (h : a < b) : ¬b < a := fun h' => irrefl a (trans h h')

theorem not_lt_trans {a b c : α} (hab : ¬b < a) (hbc : ¬c < b) : ¬c < a := by
  intro hca
  by_cases h : a < b
  · exact hbc (trans hca h)
  · rw [connected h hab] at hca
    exact hbc hca

theorem not_lt_or_not_lt (a b : α) : ¬b < a ∨ ¬a < b := by
  by_cases h : b < a
  · exact .inr (asymm h)
  · exact .inl h

end StrictLinear

namespace Ascending

variable {α : Type} [LT α] [DecidableLT α]

/-- Puts `a` in its place among ascending elements, unless it is there already. -/
def insert (a : α) : List α → List α
  | [] => [a]
  | b :: rest => if a < b then a :: b :: rest else if b < a then b :: insert a rest else b :: rest

/-- The elements of a list, ascending and each once. -/
def ofList (as : List α) : List α :=
  as.foldr insert []

variable [StrictLinear α]

@[simp] theorem mem_insert {a b : α} {bs : List α} : b ∈ insert a bs ↔ b = a ∨ b ∈ bs := by
  induction bs with
  | nil => simp [insert]
  | cons c rest ih =>
    unfold insert
    split
    · simp
    · split
      · simp only [List.mem_cons, ih]
        exact ⟨fun h => h.elim (.inr ∘ .inl) (·.imp_right .inr),
          fun h => h.elim (.inr ∘ .inl) (·.imp_right .inr)⟩
      · have := StrictLinear.connected ‹¬a < c› ‹¬c < a›
        simp [this]

@[simp] theorem mem_ofList {b : α} {as : List α} : b ∈ ofList as ↔ b ∈ as := by
  induction as with
  | nil => simp [ofList]
  | cons a rest ih => simpa [ofList] using or_congr_right ih

theorem pairwise_insert {a : α} {bs : List α} (h : bs.Pairwise (· < ·)) :
    (insert a bs).Pairwise (· < ·) := by
  induction bs with
  | nil => simp [insert]
  | cons c rest ih =>
    obtain ⟨hc, hrest⟩ := List.pairwise_cons.1 h
    unfold insert
    split
    · refine List.pairwise_cons.2 ⟨fun x hx => ?_, h⟩
      rcases List.mem_cons.1 hx with rfl | hx
      · assumption
      · exact StrictLinear.trans ‹a < c› (hc x hx)
    · split
      · refine List.pairwise_cons.2 ⟨fun x hx => ?_, ih hrest⟩
        rcases mem_insert.1 hx with rfl | hx
        · assumption
        · exact hc x hx
      · exact h

theorem pairwise_ofList (as : List α) : (ofList as).Pairwise (· < ·) := by
  induction as with
  | nil => simp [ofList]
  | cons a rest ih => exact pairwise_insert ih

end Ascending

end HexFabric
