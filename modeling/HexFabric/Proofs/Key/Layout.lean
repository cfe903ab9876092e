import HexFabric.Key.Layout
import HexFabric.Key.Pattern
import Mathlib.Algebra.Group.Nat.Defs

/-! Keys made of fields. A key has the bits of its fields side by side, so decoding gives back the
chip and the number it was made of, and keys made of different ones differ. -/

namespace HexFabric

/-- As many things as there are words of the width can be told apart. -/
theorem le_two_pow_bitsFor (n : Nat) : n ≤ 2 ^ bitsFor n := by
  unfold bitsFor
  by_cases h : n ≤ 1
  · rw [if_pos h]
    exact h
  · rw [if_neg h]
    have := Nat.lt_log2_self (n := n - 1)
    omega

/-- A width is enough exactly if it has words for all. -/
theorem bitsFor_le_iff {n bits : Nat} : bitsFor n ≤ bits ↔ n ≤ 2 ^ bits := by
  constructor
  · intro h
    exact Nat.le_trans (le_two_pow_bitsFor n) (Nat.pow_le_pow_right (by decide) h)
  · intro h
    unfold bitsFor
    by_cases hn : n ≤ 1
    · rw [if_pos hn]
      exact Nat.zero_le _
    · rw [if_neg hn]
      exact (Nat.log2_lt (by omega)).2 (by omega)

theorem getLsbD_fieldMask {bits : Nat} (h : bits ≤ 32) (i : Nat) :
    (fieldMask bits).getLsbD i = decide (i < bits) := by
  unfold fieldMask
  by_cases h0 : bits = 0
  · simp [h0]
  · rw [if_neg h0, BitVec.getLsbD_ushiftRight, BitVec.getLsbD_allOnes, decide_eq_decide]
    omega

section Field

variable {bits offset : Nat} (h : bits + offset ≤ 32)
include h

theorem getLsbD_mask (i : Nat) :
    (fieldMask bits <<< offset).getLsbD i = decide (offset ≤ i ∧ i < bits + offset) := by
  rw [BitVec.getLsbD_shiftLeft, getLsbD_fieldMask (by omega), Bool.eq_iff_iff]
  simp only [Bool.and_eq_true, Bool.not_eq_true', decide_eq_true_eq, decide_eq_false_iff_not]
  omega

/-- The bits of a number that is put into a field. -/
theorem getLsbD_field (n i : Nat) :
    ((BitVec.ofNat 32 n &&& fieldMask bits) <<< offset).getLsbD i =
      (decide (offset ≤ i ∧ i < bits + offset) && n.testBit (i - offset)) := by
  rw [BitVec.getLsbD_shiftLeft, BitVec.getLsbD_and, BitVec.getLsbD_ofNat,
    getLsbD_fieldMask (by omega), Bool.eq_iff_iff]
  simp only [Bool.and_eq_true, Bool.not_eq_true', decide_eq_true_eq, decide_eq_false_iff_not]
  constructor
  · rintro ⟨⟨hi, hlow⟩, ⟨_, hbit⟩, hfield⟩
    exact ⟨by omega, hbit⟩
  · rintro ⟨hfield, hbit⟩
    exact ⟨⟨by omega, by omega⟩, ⟨by omega, hbit⟩, by omega⟩

/-- The bits of the number that is read from a field. -/
theorem testBit_field (w : BitVec 32) (i : Nat) :
    ((w &&& fieldMask bits <<< offset) >>> offset).toNat.testBit i =
      (decide (i < bits) && w.getLsbD (offset + i)) := by
  have hin : decide (offset ≤ offset + i ∧ offset + i < bits + offset) = decide (i < bits) := by
    rw [decide_eq_decide]
    omega
  rw [BitVec.testBit_toNat, BitVec.getLsbD_ushiftRight, BitVec.getLsbD_and, getLsbD_mask h, hin,
    Bool.and_comm]

/-- A number is read from the field that has its bits. -/
theorem toNat_field {w : BitVec 32} {n : Nat} (hn : n < 2 ^ bits)
    (hw : ∀ i < bits, w.getLsbD (offset + i) = n.testBit i) :
    ((w &&& fieldMask bits <<< offset) >>> offset).toNat = n := by
  refine Nat.eq_of_testBit_eq fun i => ?_
  rw [testBit_field h]
  by_cases hi : i < bits
  · rw [hw i hi, decide_eq_true hi, Bool.true_and]
  · have hzero : n.testBit i = false :=
      Nat.testBit_lt_two_pow (Nat.lt_of_lt_of_le hn (Nat.pow_le_pow_right (by decide) (by omega)))
    rw [hzero, decide_eq_false hi, Bool.false_and]

end Field

namespace KeyLayout

/-- What a key can be made of: coordinates and a number that fit their fields. -/
structure Holds (l : KeyLayout) (c : Chip) (index : Nat) : Prop where
  x : c.x < 2 ^ l.xBits
  y : c.y < 2 ^ l.yBits
  index : index < 2 ^ l.indexBits

variable {l : KeyLayout} {c c' : Chip} {index index' : Nat}

section Bits

variable (h : l.totalBits ≤ 32)
include h

theorem fields_fit : l.xBits + l.xShift ≤ 32 ∧ l.yBits + l.yShift ≤ 32 ∧ l.indexBits + 0 ≤ 32 := by
  unfold xShift yShift totalBits at *
  omega

theorem getLsbD_key (c : Chip) (index i : Nat) : (l.key c index).getLsbD i =
    (decide (l.xShift ≤ i ∧ i < l.xBits + l.xShift) && c.x.testBit (i - l.xShift) ||
      decide (l.yShift ≤ i ∧ i < l.yBits + l.yShift) && c.y.testBit (i - l.yShift) ||
      decide (i < l.indexBits) && index.testBit i) := by
  obtain ⟨hx, hy, hindex⟩ := fields_fit h
  have hlow := getLsbD_field hindex index i
  rw [BitVec.shiftLeft_zero, Nat.sub_zero, Nat.add_zero] at hlow
  rw [key, BitVec.getLsbD_or, BitVec.getLsbD_or, getLsbD_field hx, getLsbD_field hy, indexMask,
    hlow]
  simp

theorem getLsbD_xMask (i : Nat) :
    l.xMask.getLsbD i = decide (l.xShift ≤ i ∧ i < l.xBits + l.xShift) :=
  getLsbD_mask (fields_fit h).1 i

theorem getLsbD_yMask (i : Nat) :
    l.yMask.getLsbD i = decide (l.yShift ≤ i ∧ i < l.yBits + l.yShift) :=
  getLsbD_mask (fields_fit h).2.1 i

theorem getLsbD_indexMask (i : Nat) : l.indexMask.getLsbD i = decide (i < l.indexBits) :=
  getLsbD_fieldMask (fields_fit h).2.2 i

theorem getLsbD_keyMask (i : Nat) : l.mask.getLsbD i = decide (i < l.totalBits) := by
  rw [mask, BitVec.getLsbD_or, BitVec.getLsbD_or, getLsbD_xMask h, getLsbD_yMask h,
    getLsbD_indexMask h]
  unfold xShift yShift totalBits
  grind

/-- No bit of a key lies outside the mask. -/
theorem key_and_mask (c : Chip) (index : Nat) : l.key c index &&& l.mask = l.key c index := by
  refine BitVec.eq_of_getLsbD_eq fun i _ => ?_
  rw [BitVec.getLsbD_and, getLsbD_keyMask h, getLsbD_key h]
  unfold xShift yShift totalBits
  grind

/-- A key is decoded to the chip and the number that it is made of. -/
theorem decode_key (hc : l.Holds c index) : l.decode (l.key c index) = (c, index) := by
  obtain ⟨hx, hy, hindex⟩ := fields_fit h
  have hkey := getLsbD_key h c index
  have hxShift : l.xShift = l.indexBits + l.yBits := rfl
  have hyShift : l.yShift = l.indexBits := rfl
  have hxField : ((l.key c index &&& l.xMask) >>> l.xShift).toNat = c.x := by
    refine toNat_field hx hc.x fun i hi => ?_
    rw [hkey, decide_eq_true (by omega), decide_eq_false (p := l.yShift ≤ _ ∧ _) (by omega),
      decide_eq_false (p := _ < l.indexBits) (by omega), Nat.add_sub_cancel_left]
    simp only [Bool.true_and, Bool.false_and, Bool.or_false]
  have hyField : ((l.key c index &&& l.yMask) >>> l.yShift).toNat = c.y := by
    refine toNat_field hy hc.y fun i hi => ?_
    rw [hkey, decide_eq_false (p := l.xShift ≤ _ ∧ _) (by omega),
      decide_eq_true (p := l.yShift ≤ _ ∧ _) (by omega),
      decide_eq_false (p := _ < l.indexBits) (by omega), Nat.add_sub_cancel_left]
    simp only [Bool.true_and, Bool.false_and, Bool.or_false, Bool.false_or]
  have hindexField : (l.key c index &&& l.indexMask).toNat = index := by
    have hbits : ∀ i < l.indexBits, (l.key c index).getLsbD (0 + i) = index.testBit i := by
      intro i hi
      rw [hkey, Nat.zero_add, decide_eq_false (p := l.xShift ≤ _ ∧ _) (by omega),
        decide_eq_false (p := l.yShift ≤ _ ∧ _) (by omega), decide_eq_true hi]
      simp only [Bool.true_and, Bool.false_and, Bool.false_or]
    have hfield := toNat_field hindex hc.index hbits
    rw [BitVec.shiftLeft_zero, BitVec.ushiftRight_zero] at hfield
    rw [indexMask, hfield]
  rw [decode, hxField, hyField, hindexField]

/-- Keys tell apart what they are made of. -/
theorem key_inj (hc : l.Holds c index) (hc' : l.Holds c' index')
    (heq : l.key c index = l.key c' index') : c = c' ∧ index = index' := by
  have hdecode := congrArg l.decode heq
  rw [decode_key h hc, decode_key h hc', Prod.mk.injEq] at hdecode
  exact hdecode

end Bits

end KeyLayout

end HexFabric
