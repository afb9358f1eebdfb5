import Graft.Value.Basic
import Mathlib

/-!
# Whole numbers as floats

Numbers that count are floats, and counting with them is exact below `2 ^ 53`: sums and differences
of whole numbers are whole numbers again, and a whole number that is used as an index is that index.
-/

namespace Graft

open Float.Model (Format UnpackedFloat totalExponent)
open Float.Model.UnpackedFloat

namespace Whole

/-! ## Whole numbers taken apart -/

/-- The mantissa of a whole number: shifted so far to the left that it has 53 bits. -/
def mantissa (n : Nat) : Nat := n * 2 ^ (52 - n.log2)

/-- The exponent that goes with the mantissa. -/
def exponent (n : Nat) : Int := n.log2 - 52

variable {m n : Nat}

theorem mantissa_pos (hn : n ≠ 0) : 0 < mantissa n :=
  Nat.mul_pos (Nat.pos_of_ne_zero hn) (Nat.two_pow_pos _)

theorem log2_le (hn : n < 2 ^ 53) : n.log2 ≤ 52 := by
  rcases Nat.eq_zero_or_pos n with rfl | hpos
  · decide
  · have := (Nat.log2_lt hpos.ne').mpr hn
    omega

theorem log2_mul_two_pow (hn : n ≠ 0) (k : Nat) : (n * 2 ^ k).log2 = n.log2 + k := by
  have hpos : n * 2 ^ k ≠ 0 := (Nat.mul_pos (Nat.pos_of_ne_zero hn) (Nat.two_pow_pos k)).ne'
  refine (Nat.log2_eq_iff hpos).mpr ⟨?_, ?_⟩
  · rw [Nat.pow_add]
    exact Nat.mul_le_mul_right _ (Nat.log2_self_le hn)
  · rw [show n.log2 + k + 1 = n.log2 + 1 + k by omega, Nat.pow_add]
    exact Nat.mul_lt_mul_of_pos_right Nat.lt_log2_self (Nat.two_pow_pos k)

theorem log2_mantissa (hn : n ≠ 0) (hlt : n < 2 ^ 53) : (mantissa n).log2 = 52 := by
  have := log2_le hlt
  rw [mantissa, log2_mul_two_pow hn]
  omega

/-- A whole number as floats hold it. -/
def unpacked (n : Nat) : UnpackedFloat :=
  if hn : n = 0 then .zero .positive
  else .finite .positive (mantissa n) (exponent n) (mantissa_pos hn)

theorem unpacked_of_ne_zero (hn : n ≠ 0) :
    unpacked n = .finite .positive (mantissa n) (exponent n) (mantissa_pos hn) := dif_neg hn

/-! ## Shifting -/

/-- Shifting out zeros is exact. -/
theorem shiftRight_exact (m k : Nat) :
    ExtendedMantissa.ofMantissaAndAccuracy (m * 2 ^ k) .exact >>> k =
      ExtendedMantissa.ofMantissaAndAccuracy m .exact := by
  induction k generalizing m with
  | zero => simp [ExtendedMantissa.ofMantissaAndAccuracy, HShiftRight.hShiftRight, Nat.repeat]
  | succ k ih =>
      show ExtendedMantissa.shiftRightOne
        (ExtendedMantissa.ofMantissaAndAccuracy (m * 2 ^ (k + 1)) .exact >>> k) = _
      rw [show m * 2 ^ (k + 1) = m * 2 * 2 ^ k by ring, ih]
      simp [ExtendedMantissa.shiftRightOne, ExtendedMantissa.ofMantissaAndAccuracy]

theorem shiftToExponent_exact (m k : Nat) (e : Int) :
    shiftToExponent (m * 2 ^ k) (e - k) .exact e =
      (ExtendedMantissa.ofMantissaAndAccuracy m .exact, e) := by
  have hk : (e - (e - k)).toNat = k := by omega
  simp only [shiftToExponent, hk, shiftRight_exact]
  rw [Int.sub_add_cancel]

/-- The exponent that a number is rounded to depends on its size only. -/
theorem targetExponent_eq (hn : n ≠ 0) (hlt : n < 2 ^ 53) {m k : Nat} {e : Int}
    (hm : m = n * 2 ^ k) (he : e = -k) :
    Format.binary64.targetExponent (totalExponent m e) = exponent n := by
  subst hm he
  have := log2_le hlt
  simp only [Format.targetExponent, totalExponent, log2_mul_two_pow hn, Format.mantissaBits,
    Format.minExponent, exponent]
  push_cast
  omega

/-- Rounding leaves a whole number as it is, whatever power of two it is written with. -/
theorem roundWithAccuracy_exact (hn : n ≠ 0) (hlt : n < 2 ^ 53) (k : Nat) :
    roundWithAccuracy Format.binary64 .positive (mantissa n * 2 ^ k) (exponent n - k) .exact =
      unpacked n := by
  have hlog := log2_le hlt
  have hfirst : Format.binary64.targetExponent
      (totalExponent (mantissa n * 2 ^ k) (exponent n - k)) = exponent n :=
    targetExponent_eq hn hlt (k := 52 - n.log2 + k)
      (by rw [mantissa, Nat.mul_assoc, ← Nat.pow_add]) (by rw [exponent]; omega)
  have hsecond : Format.binary64.targetExponent (totalExponent (mantissa n) (exponent n)) =
      exponent n := targetExponent_eq hn hlt rfl (by rw [exponent]; omega)
  have hagain := shiftToExponent_exact (mantissa n) 0 (exponent n)
  rw [Nat.pow_zero, Nat.mul_one, Int.natCast_zero, Int.sub_zero] at hagain
  rw [unpacked_of_ne_zero hn, roundWithAccuracy]
  simp only [shiftToTargetExponent, hfirst, shiftToExponent_exact]
  simp [ExtendedMantissa.ofMantissaAndAccuracy, ExtendedMantissa.roundedMantissa,
    ExtendedMantissa.accuracy, Accuracy.roundToNearestEven, hsecond, hagain,
    (mantissa_pos hn).ne']

/-- A whole number times a power of two, with the exponent that undoes it, is the whole number. -/
theorem normalize_eq (hlt : n < 2 ^ 53) (k : Nat) :
    normalize Format.binary64 ((n * 2 ^ k : Nat) : Int) (-k) .positive = unpacked n := by
  rcases Nat.eq_zero_or_pos n with rfl | hpos
  · rw [Nat.zero_mul]
    rfl
  · have hlog := log2_le hlt
    have hpos' : (0 : Int) < ((n * 2 ^ k : Nat) : Int) := by
      exact_mod_cast Nat.mul_pos hpos (Nat.two_pow_pos k)
    rw [UnpackedFloat.normalize, Int.compare_eq_gt.mpr hpos']
    dsimp only
    rw [Int.toNat_natCast, UnpackedFloat.round, targetExponent_eq hpos.ne' hlt rfl rfl]
    have hdecrease : decreaseExponent (n * 2 ^ k) (-k) (exponent n) =
        (mantissa n * 2 ^ (k - (52 - n.log2)), exponent n - ((k - (52 - n.log2) : Nat) : Int)) := by
      have hshift : (-(k : Int) - exponent n).toNat = 52 - n.log2 - k := by
        rw [exponent]
        omega
      rw [decreaseExponent, hshift, Nat.shiftLeft_eq, mantissa, Nat.mul_assoc, Nat.mul_assoc,
        ← Nat.pow_add, ← Nat.pow_add, exponent]
      rw [show k + (52 - n.log2 - k) = 52 - n.log2 + (k - (52 - n.log2)) by omega]
      congr 1
      omega
    rw [hdecrease]
    exact roundWithAccuracy_exact hpos.ne' hlt _

/-- A whole number written with a smaller exponent. -/
theorem decreaseExponent_eq (hlt : n < 2 ^ 53) {k : Nat} (hk : 52 - n.log2 ≤ k) :
    (decreaseExponent (mantissa n) (exponent n) (-k)).1 = n * 2 ^ k := by
  have hlog := log2_le hlt
  have hshift : (exponent n - -(k : Int)).toNat = k - (52 - n.log2) := by
    rw [exponent]
    omega
  rw [decreaseExponent, hshift, Nat.shiftLeft_eq, mantissa, Nat.mul_assoc, ← Nat.pow_add]
  rw [Nat.add_sub_cancel' hk]

/-- Two whole numbers are exact when they are written with the smaller of their exponents. -/
theorem exists_common_exponent (hm : m < 2 ^ 53) (hn : n < 2 ^ 53) :
    ∃ k : Nat, min (exponent m) (exponent n) = -k ∧
      (decreaseExponent (mantissa m) (exponent m) (-k)).1 = m * 2 ^ k ∧
      (decreaseExponent (mantissa n) (exponent n) (-k)).1 = n * 2 ^ k := by
  have hlogm := log2_le hm
  have hlogn := log2_le hn
  obtain ⟨k, hk, hkm, hkn⟩ : ∃ k : Nat, min (exponent m) (exponent n) = -k ∧
      52 - m.log2 ≤ k ∧ 52 - n.log2 ≤ k := by
    rw [exponent, exponent]
    exact ⟨(-min (m.log2 - 52 : Int) (n.log2 - 52)).toNat, by omega, by omega, by omega⟩
  exact ⟨k, hk, decreaseExponent_eq hm hkm, decreaseExponent_eq hn hkn⟩

/-! ## Packing -/

theorem unpackSign_packComponents (s : Sign) (e : BitVec 11) (m : BitVec 52) :
    unpackSign (packComponents Format.binary64 s e m) = s.toBitVec := by
  show (s.toBitVec ++ e ++ m).extractLsb' 63 1 = s.toBitVec
  rw [BitVec.extractLsb'_append_eq_of_le (by decide),
    BitVec.extractLsb'_append_eq_of_le (by decide)]
  cases s <;> rfl

/-- Nothing of a whole number is lost when it is packed. -/
theorem unpack_pack (hlt : n < 2 ^ 53) :
    UnpackedFloat.unpack Format.binary64 (UnpackedFloat.pack Format.binary64 (unpacked n)) =
      unpacked n := by
  rcases Nat.eq_zero_or_pos n with rfl | hpos
  · rfl
  · have hn := hpos.ne'
    have hlog := log2_le hlt
    have hm := log2_mantissa hn hlt
    have hbounds := (Nat.log2_eq_iff (mantissa_pos hn).ne').mp hm
    have hbiased : (exponent n + Format.binary64.exponentBias +
        Format.binary64.mantissaBitsWithoutImplicit).toNat = n.log2 + 1023 := by
      show (exponent n + (1023 : Nat) + (52 : Nat)).toNat = _
      rw [exponent]
      omega
    have hexponent : (BitVec.ofNat 11 (n.log2 + 1023)).toNat = n.log2 + 1023 := by
      rw [BitVec.toNat_ofNat]
      exact Nat.mod_eq_of_lt (by omega)
    -- the exponent is neither of the two that are set apart
    have hones : BitVec.ofNat 11 (n.log2 + 1023) ≠ -1#11 := by
      intro h
      have := congrArg BitVec.toNat h
      rw [hexponent, show (-1#11).toNat = 2047 by decide] at this
      omega
    have hzero : BitVec.ofNat 11 (n.log2 + 1023) ≠ 0#11 := by
      intro h
      have := congrArg BitVec.toNat h
      rw [hexponent, show (0#11).toNat = 0 by decide] at this
      omega
    -- the leading bit is not stored, and put back when the number is unpacked
    have himplicit : (1#1 ++ BitVec.ofNat 52 (mantissa n)).toNat = mantissa n := by
      simp only [BitVec.toNat_append, BitVec.toNat_ofNat, Nat.shiftLeft_eq]
      show 2 ^ 52 ||| mantissa n % 2 ^ 52 = mantissa n
      rw [Nat.or_comm, Nat.or_two_pow_eq_add_of_lt (Nat.mod_lt _ (Nat.two_pow_pos 52))]
      omega
    rw [unpacked_of_ne_zero hn, UnpackedFloat.pack]
    simp only [hbiased, hm]
    rw [if_neg (show ¬ 2 ^ 11 ≤ n.log2 + 1023 + 1 by omega),
      if_pos (show 52 + 1 = Format.binary64.mantissaBits from rfl)]
    simp only [UnpackedFloat.unpack, unpackMantissa_packComponents,
      unpackExponent_packComponents, unpackSign_packComponents]
    rw [if_neg hones, if_neg hzero]
    have hunbiased : ((BitVec.ofNat 11 (n.log2 + 1023)).toNat : Int) -
        (Format.binary64.exponentBias + (52 : Nat)) = exponent n := by
      rw [hexponent]
      show ((n.log2 + 1023 : Nat) : Int) - ((1023 : Nat) + (52 : Nat)) = exponent n
      rw [exponent]
      omega
    simp only [himplicit, hunbiased]
    rfl

/-! ## Operations -/

theorem ofNat_eq (hlt : n < 2 ^ 53) : UnpackedFloat.ofNat Format.binary64 n = unpacked n := by
  have h := normalize_eq hlt 0
  rwa [Nat.pow_zero, Nat.mul_one] at h

theorem add_eq (hlt : m + n < 2 ^ 53) :
    UnpackedFloat.add Format.binary64 (unpacked m) (unpacked n) = unpacked (m + n) := by
  rcases Nat.eq_zero_or_pos m with rfl | hm
  · rw [Nat.zero_add]
    rcases Nat.eq_zero_or_pos n with rfl | hn
    · rfl
    · rw [unpacked_of_ne_zero hn.ne']
      rfl
  · rcases Nat.eq_zero_or_pos n with rfl | hn
    · rw [Nat.add_zero, unpacked_of_ne_zero hm.ne']
      rfl
    · -- Both are written with the smaller of the exponents, where the sum is exact.
      obtain ⟨k, hk, hkm, hkn⟩ := exists_common_exponent (show m < 2 ^ 53 by omega)
        (show n < 2 ^ 53 by omega)
      rw [unpacked_of_ne_zero hm.ne', unpacked_of_ne_zero hn.ne', UnpackedFloat.add]
      simp only [hk, hkm, hkn, Sign.apply]
      rw [← normalize_eq hlt k]
      congr 1
      push_cast
      ring

theorem sub_eq (hle : m ≤ n) (hlt : n < 2 ^ 53) :
    UnpackedFloat.sub Format.binary64 (unpacked n) (unpacked m) = unpacked (n - m) := by
  rcases Nat.eq_zero_or_pos m with rfl | hm
  · rcases Nat.eq_zero_or_pos n with rfl | hn
    · rfl
    · rw [Nat.sub_zero, unpacked_of_ne_zero hn.ne']
      rfl
  · have hn : 0 < n := by omega
    obtain ⟨k, hk, hkn, hkm⟩ := exists_common_exponent hlt (show m < 2 ^ 53 by omega)
    rw [unpacked_of_ne_zero hm.ne', unpacked_of_ne_zero hn.ne', UnpackedFloat.sub]
    simp only [hk, hkn, hkm, Sign.apply]
    rw [← normalize_eq (show n - m < 2 ^ 53 by omega) k]
    congr 1
    push_cast [hle]
    ring

theorem mul_one_eq (hlt : n < 2 ^ 53) :
    UnpackedFloat.mul Format.binary64 (unpacked n) (unpacked 1) = unpacked n := by
  rcases Nat.eq_zero_or_pos n with rfl | hn
  · rfl
  · have hone : unpacked 1 = .finite .positive (2 ^ 52) (-52) (by decide) := rfl
    rw [hone, unpacked_of_ne_zero hn.ne', UnpackedFloat.mul, ← unpacked_of_ne_zero hn.ne',
      ← roundWithAccuracy_exact hn.ne' hlt 52]
    rfl

/-- The whole number is what is left when it is cut off behind the point. -/
theorem toInt_eq (hlt : n < 2 ^ 53) (least most : Int) :
    (unpacked n).toInt least most = n := by
  rcases Nat.eq_zero_or_pos n with rfl | hn
  · rfl
  · have hlog := log2_le hlt
    have hkept : decreaseExponent (mantissa n) (exponent n) 0 = (mantissa n, exponent n) := by
      have hshift : (exponent n - 0).toNat = 0 := by
        rw [exponent]
        omega
      rw [decreaseExponent, hshift, Nat.shiftLeft_zero, Int.natCast_zero, Int.sub_zero]
    have hcut := shiftToExponent_exact n (52 - n.log2) 0
    rw [show (0 : Int) - ((52 - n.log2 : Nat) : Int) = exponent n by rw [exponent]; omega] at hcut
    rw [unpacked_of_ne_zero hn.ne', UnpackedFloat.toInt, roundToInt, hkept]
    simp only [mantissa, hcut]
    rfl

theorem toUInt64_eq (hlt : n < 2 ^ 53) : (unpacked n).toUInt64.toNat = n := by
  have hsize : n < UInt64.size := Nat.lt_trans hlt (by decide)
  rw [UnpackedFloat.toUInt64, toInt_eq hlt, Int.toNat_natCast, UInt64.ofNatClamp, dif_pos hsize]
  exact UInt64.toNat_ofNatLT

theorem beq_self (n : Nat) : (unpacked n).beq (unpacked n) = true := by
  rcases Nat.eq_zero_or_pos n with rfl | hn
  · rfl
  · rw [unpacked_of_ne_zero hn.ne', UnpackedFloat.beq, UnpackedFloat.compare]
    simp

theorem not_lt_zero (n : Nat) : (unpacked n).lt (unpacked 0) = false := by
  rcases Nat.eq_zero_or_pos n with rfl | hn
  · rfl
  · rw [unpacked_of_ne_zero hn.ne']
    rfl

theorem abs_eq (n : Nat) : (unpacked n).abs = unpacked n := by
  rcases Nat.eq_zero_or_pos n with rfl | hn
  · rfl
  · rw [unpacked_of_ne_zero hn.ne']
    rfl

theorem isFinite_unpacked (n : Nat) : (unpacked n).isFinite = true := by
  rcases Nat.eq_zero_or_pos n with rfl | hn
  · rfl
  · rw [unpacked_of_ne_zero hn.ne']
    rfl

/-! ## Floats -/

/-- A whole number as a float. -/
def packed (n : Nat) : Float := .ofModel (.pack (unpacked n))

theorem unpack_packed (hlt : n < 2 ^ 53) : (packed n).toModel.unpack = unpacked n :=
  unpack_pack hlt

theorem toFloat_ofNat (hlt : n < 2 ^ 53) : n.toUInt64.toFloat = packed n := by
  have hn : n.toUInt64.toNat = n :=
    (UInt64.toNat_ofNat_of_lt' (Nat.lt_trans hlt (by decide)))
  show Float.ofModel (.pack (UnpackedFloat.ofNat Format.binary64 n.toUInt64.toNat)) = _
  rw [hn, ofNat_eq hlt, packed]

/-- Numbers are converted exactly. -/
theorem ofNat_eq_packed (hlt : n < 2 ^ 53) : Float.ofNat n = packed n := by
  have hunfold : Float.ofNat n = n.toUInt64.toFloat * Float.exactlyRepresentablePowersOfTen[0] :=
    dif_pos ⟨hlt, by decide⟩
  have hone : Float.exactlyRepresentablePowersOfTen[0].toModel.unpack = unpacked 1 := rfl
  rw [hunfold, toFloat_ofNat hlt]
  show Float.ofModel (.pack (UnpackedFloat.mul Format.binary64 _ _)) = _
  rw [unpack_packed hlt, hone, mul_one_eq hlt, packed]

theorem ofNat_add (hlt : m + n < 2 ^ 53) :
    Float.ofNat m + Float.ofNat n = Float.ofNat (m + n) := by
  have hm : m < 2 ^ 53 := by omega
  have hn : n < 2 ^ 53 := by omega
  rw [ofNat_eq_packed hm, ofNat_eq_packed hn, ofNat_eq_packed hlt]
  show Float.ofModel (.pack (UnpackedFloat.add Format.binary64 _ _)) = _
  rw [unpack_packed hm, unpack_packed hn, add_eq hlt, packed]

theorem ofNat_sub (hle : m ≤ n) (hlt : n < 2 ^ 53) :
    Float.ofNat n - Float.ofNat m = Float.ofNat (n - m) := by
  have hm : m < 2 ^ 53 := by omega
  rw [ofNat_eq_packed hm, ofNat_eq_packed hlt, ofNat_eq_packed (show n - m < 2 ^ 53 by omega)]
  show Float.ofModel (.pack (UnpackedFloat.sub Format.binary64 _ _)) = _
  rw [unpack_packed hm, unpack_packed hlt, sub_eq hle hlt, packed]

theorem abs_ofNat (hlt : n < 2 ^ 53) : (Float.ofNat n).abs = Float.ofNat n := by
  rw [ofNat_eq_packed hlt]
  show Float.ofModel (.pack (UnpackedFloat.abs _)) = _
  rw [unpack_packed hlt, abs_eq, packed]

theorem toNat_wholeSize (hlt : n < 2 ^ 53) :
    (Value.wholeSize (.ofNat n)).toNat = n := by
  rw [Value.wholeSize, abs_ofNat hlt, ofNat_eq_packed hlt]
  show (UnpackedFloat.toUInt64 _).toNat = n
  rw [unpack_packed hlt, toUInt64_eq hlt]

end Whole

open Whole in
/-- A whole number that is used as an index is that index. -/
theorem Value.asIndex_ofNat {n : Nat} (hlt : n < 2 ^ 53) :
    Value.asIndex (.num (.ofNat n)) = .ok (n : Int) := by
  have hsize : Value.wholeSize (.ofNat n) = n.toUInt64 := by
    rw [← UInt64.toNat_inj, toNat_wholeSize hlt]
    exact (UInt64.toNat_ofNat_of_lt' (Nat.lt_trans hlt (by decide))).symm
  have hwhole : Value.isWhole (.ofNat n) = true := by
    have hfinite : (Float.ofNat n).isFinite = true := by
      rw [ofNat_eq_packed hlt]
      show UnpackedFloat.isFinite _ = true
      rw [unpack_packed hlt, isFinite_unpacked]
    have hsame : ((Value.wholeSize (.ofNat n)).toFloat == (Float.ofNat n).abs) = true := by
      rw [hsize, toFloat_ofNat hlt, abs_ofNat hlt, ofNat_eq_packed hlt]
      show UnpackedFloat.beq _ _ = true
      rw [unpack_packed hlt, beq_self]
    rw [Value.isWhole, hfinite, hsame]
    rfl
  have hpositive : ¬ Float.ofNat n < 0 := by
    have hzero : (0 : Float) = packed 0 := ofNat_eq_packed (by decide)
    rw [hzero, ofNat_eq_packed hlt]
    show ¬ decide ((packed n).toModel.unpack.lt (packed 0).toModel.unpack = true) = true
    rw [unpack_packed hlt, unpack_packed (by decide), not_lt_zero]
    decide
  show (if Value.isWhole (.ofNat n) then Except.ok (Value.wholePart (.ofNat n)) else _) = _
  rw [if_pos hwhole, Value.wholePart, if_neg hpositive, toNat_wholeSize hlt]
  rw [Nat.min_eq_left (by omega)]

end Graft
