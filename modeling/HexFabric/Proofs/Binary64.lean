import Mathlib

/-! Binary64 numbers that are not negative, and quotients of words among them. The patterns up to that
of infinity are ordered as their numbers are, `Binary64.ofBits_lt_iff`, and the quotient of two words
other than zero has such a pattern, `Binary64.toBits_div_le`. -/

namespace HexFabric.Binary64

open Float.Model (Format UnpackedFloat totalExponent)
open Float.Model.UnpackedFloat

/-! ### Patterns -/

/-- The pattern of infinity, above those of the finite numbers. -/
def top : Nat := 2047 * 2 ^ 52

/-- The mantissa of the finite number with pattern `n`, with the bit that is not stored. -/
def mantissa (n : Nat) : Nat := if n < 2 ^ 52 then n else 2 ^ 52 + n % 2 ^ 52

/-- Its exponent, which the smallest numbers share with those above them. -/
def exponent (n : Nat) : Int := (max (n / 2 ^ 52) 1 : Nat) - 1075

theorem mantissa_pos {n : Nat} (h : n ≠ 0) : 0 < mantissa n := by
  unfold mantissa
  split <;> omega

/-- Patterns are ordered by exponent, and by mantissa where they have the same exponent. -/
theorem lex_iff {n m : Nat} :
    exponent n < exponent m ∨ exponent n = exponent m ∧ mantissa n < mantissa m ↔ n < m := by
  unfold exponent mantissa
  split <;> split <;> omega

section Fields

variable {b : BitVec Format.binary64.numBits}

theorem toNat_unpackMantissa (b : BitVec Format.binary64.numBits) :
    (unpackMantissa b).toNat = b.toNat % 2 ^ 52 := by
  rw [unpackMantissa_def, BitVec.extractLsb'_toNat, Nat.shiftRight_zero]

theorem toNat_unpackExponent (h : b.toNat ≤ top) :
    (unpackExponent b).toNat = b.toNat / 2 ^ 52 := by
  have htop : top = 2047 * 2 ^ 52 := rfl
  rw [unpackExponent_def, BitVec.extractLsb'_toNat, Nat.shiftRight_eq_div_pow]
  change b.toNat / 2 ^ 52 % 2 ^ 11 = b.toNat / 2 ^ 52
  omega

theorem unpackSign_eq (h : b.toNat ≤ top) : unpackSign b = 0#1 := by
  have htop : top = 2047 * 2 ^ 52 := rfl
  apply BitVec.eq_of_toNat_eq
  rw [unpackSign_def, BitVec.extractLsb'_toNat, Nat.shiftRight_eq_div_pow]
  change b.toNat / 2 ^ 63 % 2 = 0
  omega

theorem unpackMantissa_eq_zero_iff (b : BitVec Format.binary64.numBits) :
    unpackMantissa b = 0#52 ↔ b.toNat % 2 ^ 52 = 0 := by
  rw [← BitVec.toNat_inj, toNat_unpackMantissa]
  rfl

theorem unpackExponent_eq_zero_iff (h : b.toNat ≤ top) :
    unpackExponent b = 0#11 ↔ b.toNat / 2 ^ 52 = 0 := by
  rw [← BitVec.toNat_inj, toNat_unpackExponent h]
  rfl

theorem unpackExponent_eq_neg_one_iff (h : b.toNat ≤ top) :
    unpackExponent b = -1#11 ↔ b.toNat / 2 ^ 52 = 2047 := by
  rw [← BitVec.toNat_inj, toNat_unpackExponent h]
  rfl

theorem toNat_one_append_unpackMantissa (b : BitVec Format.binary64.numBits) :
    (1#1 ++ unpackMantissa b).toNat = 2 ^ 52 + b.toNat % 2 ^ 52 := by
  rw [BitVec.toNat_append, ← Nat.shiftLeft_add_eq_or_of_lt (BitVec.isLt _), toNat_unpackMantissa]
  rfl

theorem unpack_of_le (h : b.toNat ≤ top) : unpack Format.binary64 b =
    if b.toNat = top then .infinity .positive
    else if h0 : b.toNat = 0 then .zero .positive
    else .finite .positive (mantissa b.toNat) (exponent b.toNat) (mantissa_pos h0) := by
  have htop : top = 2047 * 2 ^ 52 := rfl
  have hbias : ((Format.binary64.exponentBias : Nat) : Int) = 1023 := rfl
  have hpos : Sign.ofBitVec 0#1 = .positive := rfl
  simp only [UnpackedFloat.unpack, unpackExponent_eq_neg_one_iff h, unpackExponent_eq_zero_iff h,
    unpackMantissa_eq_zero_iff b, unpackSign_eq h, hpos, toNat_unpackMantissa b,
    toNat_unpackExponent h, toNat_one_append_unpackMantissa b, hbias]
  rcases Nat.lt_or_eq_of_le h with hlt | heq
  · rw [if_neg (show ¬b.toNat / 2 ^ 52 = 2047 by omega), if_neg (Nat.ne_of_lt hlt)]
    by_cases hsmall : b.toNat / 2 ^ 52 = 0
    · rw [if_pos hsmall]
      by_cases h0 : b.toNat = 0
      · rw [dif_pos (show b.toNat % 2 ^ 52 = 0 by omega), dif_pos h0]
      · rw [dif_neg (show ¬b.toNat % 2 ^ 52 = 0 by omega), dif_neg h0]
        simp only [finite.injEq, mantissa, exponent, true_and]
        rw [if_pos (show b.toNat < 2 ^ 52 by omega)]
        omega
    · rw [if_neg hsmall, dif_neg (show ¬b.toNat = 0 by omega)]
      simp only [finite.injEq, mantissa, exponent, true_and]
      rw [if_neg (show ¬b.toNat < 2 ^ 52 by omega)]
      omega
  · rw [if_pos (show b.toNat / 2 ^ 52 = 2047 by omega),
      if_pos (show b.toNat % 2 ^ 52 = 0 by omega), if_pos heq]

theorem unpack_lt_iff {a : BitVec Format.binary64.numBits} (ha : a.toNat ≤ top)
    (hb : b.toNat ≤ top) :
    (unpack Format.binary64 a).lt (unpack Format.binary64 b) ↔ a.toNat < b.toNat := by
  rw [unpack_of_le ha, unpack_of_le hb, UnpackedFloat.lt, beq_iff_eq]
  by_cases hat : a.toNat = top
  · have hge : ¬a.toNat < b.toNat := by omega
    rw [if_pos hat, iff_false_right hge]
    split_ifs <;> exact fun h => nomatch h
  rw [if_neg hat]
  by_cases hbt : b.toNat = top
  · have hlt : a.toNat < b.toNat := by omega
    rw [if_pos hbt, iff_true_right hlt]
    split_ifs <;> rfl
  rw [if_neg hbt]
  by_cases hb0 : b.toNat = 0
  · have hge : ¬a.toNat < b.toNat := by omega
    rw [dif_pos hb0, iff_false_right hge]
    split_ifs <;> exact fun h => nomatch h
  rw [dif_neg hb0]
  by_cases ha0 : a.toNat = 0
  · have hlt : a.toNat < b.toNat := by omega
    rw [dif_pos ha0, iff_true_right hlt]
    rfl
  rw [dif_neg ha0]
  simp only [UnpackedFloat.compare, Option.some.injEq, Ordering.then_eq_lt]
  rw [Int.compare_eq_lt, Int.compare_eq_eq, Nat.compare_eq_lt]
  exact lex_iff

end Fields

theorem unpack_ofBits {a : UInt64} (h : a.toNat ≤ top) :
    (Float.ofBits a).toModel.unpack = unpack Format.binary64 a.toBitVec := by
  have hle : a.toBitVec.toNat ≤ 2047 * 2 ^ 52 := h
  have hvalid : Format.binary64.Valid a.toBitVec := by
    refine ⟨fun hexp hmant => absurd ?_ hmant⟩
    have hinf := (unpackExponent_eq_neg_one_iff hle).1 hexp
    refine (unpackMantissa_eq_zero_iff a.toBitVec).2 ?_
    omega
  change unpack Format.binary64 (pack Format.binary64 (unpack Format.binary64 a.toBitVec)) = _
  rw [pack_unpack_of_valid hvalid]

theorem ofBits_lt_iff {a b : UInt64} (ha : a.toNat ≤ top) (hb : b.toNat ≤ top) :
    Float.ofBits a < Float.ofBits b ↔ a < b := by
  have hlt : Float.ofBits a < Float.ofBits b ↔
      (Float.ofBits a).toModel.unpack.lt (Float.ofBits b).toModel.unpack = true := by
    change decide ((Float.ofBits a).toModel < (Float.ofBits b).toModel) = true ↔ _
    rw [decide_eq_true_eq]
    rfl
  rw [hlt, unpack_ofBits ha, unpack_ofBits hb]
  exact unpack_lt_iff ha hb

/-! ### Rounding -/

theorem mantissa_shiftRight (em : ExtendedMantissa) (k : Nat) :
    (em >>> k).mantissa = em.mantissa / 2 ^ k := by
  induction k with
  | zero => exact (Nat.div_one _).symm
  | succ k ih =>
    change (em >>> k).shiftRightOne.mantissa = em.mantissa / 2 ^ (k + 1)
    rw [ExtendedMantissa.shiftRightOne, ih, Nat.div_div_eq_div_mul, Nat.pow_succ]

theorem mantissa_ofMantissaAndAccuracy (m : Nat) (accuracy : Accuracy) :
    (ExtendedMantissa.ofMantissaAndAccuracy m accuracy).mantissa = m := by
  rcases accuracy with _ | _ | _ | _ <;> rfl

theorem roundedMantissa_bounds (em : ExtendedMantissa) :
    em.mantissa ≤ em.roundedMantissa ∧ em.roundedMantissa ≤ em.mantissa + 1 := by
  unfold ExtendedMantissa.roundedMantissa
  rcases em.accuracy with _ | _ | _ | _ <;> simp only [Accuracy.roundToNearestEven] <;> omega

theorem targetExponent_eq (total : Int) :
    Format.binary64.targetExponent total = max (total - 53) (-1074) := rfl

/-- By how many places a mantissa is shifted to fit the format. -/
def shiftFor (m : Nat) (e : Int) : Nat :=
  (Format.binary64.targetExponent (totalExponent m e) - e).toNat

theorem shift_bounds {m : Nat} (hm : 0 < m) {e : Int} (he : -1074 ≤ e) :
    0 < m / 2 ^ shiftFor m e ∧ m / 2 ^ shiftFor m e < 2 ^ 53 ∧
      e + shiftFor m e ≤ max e (m.log2 + e - 52) := by
  obtain ⟨k, hk⟩ : ∃ k, k = shiftFor m e := ⟨_, rfl⟩
  rw [← hk]
  rw [shiftFor, targetExponent_eq, totalExponent] at hk
  have hlow : 2 ^ m.log2 ≤ m := Nat.log2_self_le (Nat.ne_of_gt hm)
  have hhigh : m < 2 ^ (m.log2 + 1) := Nat.lt_log2_self
  have hpow : 2 ^ k ≤ 2 ^ m.log2 := Nat.pow_le_pow_right (by decide) (by omega)
  refine ⟨Nat.div_pos (hpow.trans hlow) (Nat.two_pow_pos k), ?_, by omega⟩
  rw [Nat.div_lt_iff_lt_mul (Nat.two_pow_pos k), ← Nat.pow_add]
  exact hhigh.trans_le (Nat.pow_le_pow_right (by decide) (by omega))

/-- A number that is not too large is rounded to a finite one. -/
theorem exists_roundWithAccuracy {m : Nat} (hm : 0 < m) {e : Int} (he : -1074 ≤ e) (he' : e ≤ 0)
    (hsize : m.log2 + e < 64) (accuracy : Accuracy) :
    ∃ f e' h, roundWithAccuracy Format.binary64 .positive m e accuracy = .finite .positive f e' h ∧
      f < 2 ^ 53 ∧ -1074 ≤ e' ∧ e' ≤ 970 := by
  obtain ⟨hpos, hlt, hexp⟩ := shift_bounds hm he
  obtain ⟨k, hk⟩ : ∃ k, k = shiftFor m e := ⟨_, rfl⟩
  obtain ⟨r, hr⟩ : ∃ r,
      r = (ExtendedMantissa.ofMantissaAndAccuracy m accuracy >>> k).roundedMantissa := ⟨_, rfl⟩
  have hround := roundedMantissa_bounds (ExtendedMantissa.ofMantissaAndAccuracy m accuracy >>> k)
  rw [← hr, mantissa_shiftRight, mantissa_ofMantissaAndAccuracy] at hround
  rw [← hk] at hpos hlt hexp
  -- rounding up can carry into one more bit, for which there is a second shift
  have hlog : r.log2 < 54 := (Nat.log2_lt (by omega)).2 (by omega)
  obtain ⟨hpos', hlt', hexp'⟩ := shift_bounds (m := r) (by omega) (e := e + k) (by omega)
  unfold shiftFor at *
  unfold roundWithAccuracy shiftToTargetExponent shiftToExponent
  simp only [← hk, ← hr, mantissa_shiftRight, mantissa_ofMantissaAndAccuracy]
  rw [dif_neg (Nat.ne_of_gt hpos')]
  exact ⟨_, _, hpos', rfl, hlt', by omega, by omega⟩

theorem toNat_packComponents (e : BitVec 11) (m : BitVec 52) :
    (packComponents Format.binary64 .positive e m).toNat = e.toNat * 2 ^ 52 + m.toNat := by
  change (0#1 ++ e ++ m).toNat = e.toNat * 2 ^ 52 + m.toNat
  rw [BitVec.toNat_append, ← Nat.shiftLeft_add_eq_or_of_lt m.isLt, BitVec.toNat_append,
    Nat.shiftLeft_eq]
  simp

theorem toNat_pack_finite {m : Nat} {e : Int} (h : 0 < m) :
    (pack Format.binary64 (.finite .positive m e h)).toNat =
      if 2047 ≤ (e + 1075).toNat then top
      else if m.log2 = 52 then (e + 1075).toNat * 2 ^ 52 + m % 2 ^ 52 else m % 2 ^ 52 := by
  have hbias : (e + Format.binary64.exponentBias +
      Format.binary64.mantissaBitsWithoutImplicit).toNat = (e + 1075).toNat := by
    change (e + 1023 + 52).toNat = (e + 1075).toNat
    omega
  have hover : 2 ^ Format.binary64.exponentBits ≤ (e + 1075).toNat + 1 ↔
      2047 ≤ (e + 1075).toNat := by
    change 2048 ≤ (e + 1075).toNat + 1 ↔ 2047 ≤ (e + 1075).toNat
    omega
  have hfull : m.log2 + 1 = Format.binary64.mantissaBits ↔ m.log2 = 52 := by
    change m.log2 + 1 = 53 ↔ m.log2 = 52
    omega
  simp only [pack, hbias, hover, hfull]
  split_ifs with hinf hnormal
  · rfl
  · rw [toNat_packComponents, BitVec.toNat_ofNat, BitVec.toNat_ofNat,
      Nat.mod_eq_of_lt (by omega : (e + 1075).toNat < 2 ^ 11)]
  · rw [toNat_packComponents, BitVec.toNat_ofNat]
    exact Nat.zero_add _

/-! ### Words and their quotients -/

theorem exists_ofUInt64 {n : UInt64} (hn : n ≠ 0) :
    ∃ f e h, ofUInt64 Format.binary64 n = .finite .positive f e h ∧
      f < 2 ^ 53 ∧ -1074 ≤ e ∧ e ≤ 970 := by
  have hpos : 0 < n.toNat := Nat.pos_of_ne_zero fun h => hn (UInt64.toNat_inj.1 h)
  obtain ⟨k, hk⟩ : ∃ k,
      k = (0 - Format.binary64.targetExponent (totalExponent n.toNat 0)).toNat := ⟨_, rfl⟩
  have hsmall : k ≤ 52 := by
    rw [hk, targetExponent_eq, totalExponent]
    omega
  have hshift : n.toNat <<< k = n.toNat * 2 ^ k := Nat.shiftLeft_eq _ _
  have hm : 0 < n.toNat <<< k := hshift ▸ Nat.mul_pos hpos (Nat.two_pow_pos k)
  have hlog : (n.toNat <<< k).log2 < 64 + k := by
    rw [Nat.log2_lt (Nat.ne_of_gt hm), hshift, Nat.pow_add]
    exact Nat.mul_lt_mul_of_pos_right n.toNat_lt (Nat.two_pow_pos k)
  unfold ofUInt64 UnpackedFloat.ofNat UnpackedFloat.ofInt UnpackedFloat.normalize
  rw [Int.compare_eq_gt.2 (by omega)]
  simp only [Int.toNat_natCast, UnpackedFloat.round, decreaseExponent, ← hk]
  exact exists_roundWithAccuracy hm (by omega) (by omega) (by omega) _

/-- A word other than zero is a finite number above zero. -/
theorem exists_unpack_toFloat {n : UInt64} (hn : n ≠ 0) :
    ∃ m e h, n.toFloat.toModel.unpack = .finite .positive m e h := by
  obtain ⟨f, e, h, hn, hf, he, he'⟩ := exists_ofUInt64 hn
  have hlog : f.log2 = 52 ∨ f < 2 ^ 52 := by
    rw [Nat.log2_eq_iff (Nat.ne_of_gt h)]
    omega
  have hbits : 0 < (pack Format.binary64 (.finite .positive f e h)).toNat ∧
      (pack Format.binary64 (.finite .positive f e h)).toNat < top := by
    rw [toNat_pack_finite, if_neg (by omega), top]
    split_ifs <;> omega
  change ∃ m e h, unpack Format.binary64 (pack Format.binary64 (ofUInt64 Format.binary64 n)) =
    .finite .positive m e h
  rw [hn, unpack_of_le (Nat.le_of_lt hbits.2), if_neg (Nat.ne_of_lt hbits.2),
    dif_neg (Nat.ne_of_gt hbits.1)]
  exact ⟨_, _, _, rfl⟩

/-- The quotient by zero is infinite. -/
theorem toFloat_div_zero {q : UInt64} (hq : q ≠ 0) :
    q.toFloat / (0 : UInt64).toFloat = Float.ofBits 0x7ff0000000000000 := by
  obtain ⟨m, e, hm, hqm⟩ := exists_unpack_toFloat hq
  rw [← Float.toBits_inj]
  change (Float.Model.pack (UnpackedFloat.div Format.binary64 q.toFloat.toModel.unpack
    (.zero .positive))).toBits = 0x7ff0000000000000
  rw [hqm]
  rfl

theorem toBits_div_le {q c : UInt64} (hq : q ≠ 0) (hc : c ≠ 0) :
    (q.toFloat / c.toFloat).toBits.toNat ≤ top := by
  obtain ⟨m, e, hm, hqm⟩ := exists_unpack_toFloat hq
  obtain ⟨m', e', hm', hcm⟩ := exists_unpack_toFloat hc
  change (pack Format.binary64 (UnpackedFloat.div Format.binary64 q.toFloat.toModel.unpack
    c.toFloat.toModel.unpack)).toNat ≤ top
  rw [hqm, hcm]
  have hsign : Sign.positive / Sign.positive = Sign.positive := rfl
  simp only [UnpackedFloat.div, roundWithAccuracy, hsign]
  split_ifs with h0
  · exact Nat.zero_le top
  · rw [toNat_pack_finite, top]
    split_ifs <;> omega

end HexFabric.Binary64
