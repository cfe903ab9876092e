import HexFabric.Key.Pattern

/-! Patterns as the sets of the keys they accept. A pattern is clean if its key has no bits outside
its mask. Two clean patterns overlap exactly if some key is accepted by both, and two patterns that
differ in one bit of the key accept together what the pattern without that bit accepts. -/

namespace HexFabric.Pattern

/-- No bit of the key lies outside the mask. -/
def Clean (p : Pattern) : Prop := p.key &&& p.mask = p.key

instance (p : Pattern) : Decidable p.Clean := inferInstanceAs (Decidable (_ = _))

theorem clean_of (key mask : BitVec 32) : (Pattern.of key mask).Clean := by
  simp [Clean, Pattern.of, BitVec.and_assoc]

theorem accepts_iff {p : Pattern} {k : BitVec 32} : p.accepts k ↔ k &&& p.mask = p.key := by
  simp [accepts]

theorem accepts_iff_getLsbD {p : Pattern} {k : BitVec 32} :
    p.accepts k ↔ ∀ i < 32, (k.getLsbD i && p.mask.getLsbD i) = p.key.getLsbD i := by
  rw [accepts_iff, BitVec.eq_of_getLsbD_eq_iff]
  simp

/-- A key is accepted by the pattern made of it. -/
theorem accepts_of_self (key mask : BitVec 32) : (Pattern.of key mask).accepts key :=
  accepts_iff.2 rfl

theorem Clean.getLsbD_mask {p : Pattern} (h : p.Clean) {i : Nat} (hi : p.key.getLsbD i = true) :
    p.mask.getLsbD i = true := by
  rw [← show p.key &&& p.mask = p.key from h, BitVec.getLsbD_and, Bool.and_eq_true] at hi
  exact hi.2

theorem overlaps_iff_getLsbD {p q : Pattern} :
    p.overlaps q ↔ ∀ i < 32, p.mask.getLsbD i = true → q.mask.getLsbD i = true →
      p.key.getLsbD i = q.key.getLsbD i := by
  simp only [overlaps, beq_iff_eq, BitVec.eq_of_getLsbD_eq_iff, BitVec.getLsbD_and,
    BitVec.getLsbD_xor]
  refine forall₂_congr fun i _ => ?_
  cases p.key.getLsbD i <;> cases q.key.getLsbD i <;> cases p.mask.getLsbD i <;>
    cases q.mask.getLsbD i <;> simp

/-- Patterns that accept a key in common overlap. -/
theorem overlaps_of_accepts {p q : Pattern} {k : BitVec 32} (hp : p.accepts k)
    (hq : q.accepts k) : p.overlaps q := by
  rw [accepts_iff_getLsbD] at hp hq
  rw [overlaps_iff_getLsbD]
  intro i hi hpi hqi
  rw [← hp i hi, ← hq i hi, hpi, hqi]

/-- Clean patterns overlap exactly if they accept a key in common. -/
theorem overlaps_iff {p q : Pattern} (hp : p.Clean) (hq : q.Clean) :
    p.overlaps q ↔ ∃ k, p.accepts k ∧ q.accepts k := by
  refine ⟨fun h => ⟨p.key ||| q.key, ?_, ?_⟩, fun ⟨k, hpk, hqk⟩ => overlaps_of_accepts hpk hqk⟩
  all_goals
    rw [overlaps_iff_getLsbD] at h
    rw [accepts_iff_getLsbD]
    intro i hi
    have hpi := hp.getLsbD_mask (i := i)
    have hqi := hq.getLsbD_mask (i := i)
    have := h i hi
    rw [BitVec.getLsbD_or]
    grind

/-- The keys of two patterns that differ in bit `i` of the key are those of the pattern that does
not look at the bit. -/
theorem accepts_without_bit {p : Pattern} {i : Nat} (hi : i < 32)
    (hmask : p.mask.getLsbD i = true) (k : BitVec 32) :
    (Pattern.mk (p.key &&& ~~~BitVec.twoPow 32 i) (p.mask &&& ~~~BitVec.twoPow 32 i)).accepts k ↔
      p.accepts k ∨ (Pattern.mk (p.key ^^^ BitVec.twoPow 32 i) p.mask).accepts k := by
  simp only [accepts_iff_getLsbD, BitVec.getLsbD_and, BitVec.getLsbD_not, BitVec.getLsbD_xor,
    BitVec.getLsbD_twoPow]
  constructor
  · intro h
    have hrest : ∀ j < 32, j ≠ i → (k.getLsbD j && p.mask.getLsbD j) = p.key.getLsbD j := by
      intro j hj hji
      have := h j hj
      simpa [hj, hi, Ne.symm hji] using this
    by_cases hbit : k.getLsbD i = p.key.getLsbD i
    · left
      intro j hj
      by_cases hji : j = i
      · rw [hji, hmask, hbit, Bool.and_true]
      · exact hrest j hj hji
    · right
      intro j hj
      by_cases hji : j = i
      · subst hji
        cases hk : k.getLsbD j <;> cases hp : p.key.getLsbD j <;> simp_all
      · simpa [hi, Ne.symm hji] using hrest j hj hji
  · rintro (h | h) j hj
    all_goals
      have := h j hj
      by_cases hji : i = j
      · simp [hji, hj]
      · simpa [hi, hji, hj] using this

end HexFabric.Pattern
