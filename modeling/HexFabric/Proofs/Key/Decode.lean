import HexFabric.Proofs.Key.Layout
import Mathlib

/-! Keys and what they are made of, one to one. The three fields lie side by side from the lowest bit
on, empty ones and full ones included, so each bit of a key within the mask is in one field,
`KeyLayout.getLsbD_keyMask`. Hence a key is made again of what it is decoded to, `KeyLayout.key_decode`,
as what it is made of is what it is decoded to, `KeyLayout.decode_key`: `KeyLayout.decode_inverse`. -/

namespace HexFabric.KeyLayout

section

variable {l : KeyLayout} {k : BitVec 32} (h : l.totalBits ≤ 32)
include h

/-! ### Masks -/

theorem toNat_keyMask : l.mask.toNat = 2 ^ l.totalBits - 1 := by
  refine Nat.eq_of_testBit_eq fun i => ?_
  rw [BitVec.testBit_toNat, getLsbD_keyMask h, Nat.testBit_two_pow_sub_one]

theorem xMask_and_yMask : l.xMask &&& l.yMask = 0 := by
  refine BitVec.eq_of_getLsbD_eq fun i _ => ?_
  rw [BitVec.getLsbD_and, getLsbD_xMask h, getLsbD_yMask h]
  unfold xShift yShift
  grind

theorem xMask_and_indexMask : l.xMask &&& l.indexMask = 0 := by
  refine BitVec.eq_of_getLsbD_eq fun i _ => ?_
  rw [BitVec.getLsbD_and, getLsbD_xMask h, getLsbD_indexMask h]
  unfold xShift
  grind

theorem yMask_and_indexMask : l.yMask &&& l.indexMask = 0 := by
  refine BitVec.eq_of_getLsbD_eq fun i _ => ?_
  rw [BitVec.getLsbD_and, getLsbD_yMask h, getLsbD_indexMask h]
  unfold yShift
  grind

/-! ### Decoding -/

theorem testBit_decode_x (k : BitVec 32) (i : Nat) :
    (l.decode k).1.x.testBit i = (decide (i < l.xBits) && k.getLsbD (l.xShift + i)) :=
  testBit_field (fields_fit h).1 k i

theorem testBit_decode_y (k : BitVec 32) (i : Nat) :
    (l.decode k).1.y.testBit i = (decide (i < l.yBits) && k.getLsbD (l.yShift + i)) :=
  testBit_field (fields_fit h).2.1 k i

theorem testBit_decode_index (k : BitVec 32) (i : Nat) :
    (l.decode k).2.testBit i = (decide (i < l.indexBits) && k.getLsbD i) := by
  rw [decode, BitVec.testBit_toNat, BitVec.getLsbD_and, getLsbD_indexMask h, Bool.and_comm]

theorem holds_decode (k : BitVec 32) : l.Holds (l.decode k).1 (l.decode k).2 where
  x := Nat.lt_pow_two_of_testBit _ fun i hi => by
    rw [testBit_decode_x h, decide_eq_false (Nat.not_lt.2 hi), Bool.false_and]
  y := Nat.lt_pow_two_of_testBit _ fun i hi => by
    rw [testBit_decode_y h, decide_eq_false (Nat.not_lt.2 hi), Bool.false_and]
  index := Nat.lt_pow_two_of_testBit _ fun i hi => by
    rw [testBit_decode_index h, decide_eq_false (Nat.not_lt.2 hi), Bool.false_and]

/-- A key within the mask is made of the chip and the number that it is decoded to. -/
theorem key_decode (hk : k &&& l.mask = k) : l.key (l.decode k).1 (l.decode k).2 = k := by
  refine BitVec.eq_of_getLsbD_eq fun i _ => ?_
  have hbit : k.getLsbD i = (k.getLsbD i && decide (i < l.totalBits)) := by
    rw [← getLsbD_keyMask h, ← BitVec.getLsbD_and, hk]
  rw [getLsbD_key h, testBit_decode_x h, testBit_decode_y h, testBit_decode_index h]
  -- the bit is in one of the fields, where it comes back, or above all of them
  unfold xShift yShift totalBits at *
  grind

/-- In a layout that fits into a word, decoding undoes the making of a key from what its fields hold,
making undoes the decoding of any key within the mask, and the masks of the fields divide the lowest
bits of the word among them. -/
theorem decode_inverse :
    (∀ c index, l.Holds c index →
      l.decode (l.key c index) = (c, index) ∧ l.key c index &&& l.mask = l.key c index) ∧
    (∀ k, k &&& l.mask = k →
      l.Holds (l.decode k).1 (l.decode k).2 ∧ l.key (l.decode k).1 (l.decode k).2 = k) ∧
    (l.xMask &&& l.yMask = 0 ∧ l.xMask &&& l.indexMask = 0 ∧ l.yMask &&& l.indexMask = 0) ∧
    (l.xMask ||| l.yMask ||| l.indexMask).toNat = 2 ^ l.totalBits - 1 :=
  ⟨fun c index hc => ⟨decode_key h hc, key_and_mask h c index⟩,
    fun k hk => ⟨holds_decode h k, key_decode h hk⟩,
    ⟨xMask_and_yMask h, xMask_and_indexMask h, yMask_and_indexMask h⟩, toNat_keyMask h⟩

end

/-- The row takes up the whole word, and the empty column is past its top. -/
theorem decode_inverse_row :
    (totalBits ⟨0, 32, 0⟩ ≤ 32 ∧ Holds ⟨0, 32, 0⟩ ⟨0, 2 ^ 32 - 1⟩ 0 ∧
      0x89abcdef#32 &&& mask ⟨0, 32, 0⟩ = 0x89abcdef#32) ∧
    decode ⟨0, 32, 0⟩ (key ⟨0, 32, 0⟩ ⟨0, 2 ^ 32 - 1⟩ 0) = (⟨0, 2 ^ 32 - 1⟩, 0) ∧
    key ⟨0, 32, 0⟩ (decode ⟨0, 32, 0⟩ 0x89abcdef#32).1 (decode ⟨0, 32, 0⟩ 0x89abcdef#32).2 =
      0x89abcdef#32 := by
  have hbits : totalBits ⟨0, 32, 0⟩ ≤ 32 := by decide
  have hc : Holds ⟨0, 32, 0⟩ ⟨0, 2 ^ 32 - 1⟩ 0 := ⟨by decide, by decide, by decide⟩
  have hk : 0x89abcdef#32 &&& mask ⟨0, 32, 0⟩ = 0x89abcdef#32 := by decide
  obtain ⟨hmade, hdecoded, -⟩ := decode_inverse hbits
  exact ⟨⟨hbits, hc, hk⟩, (hmade _ _ hc).1, (hdecoded _ hk).2⟩

end HexFabric.KeyLayout
