import Graft.Decimal.Reading
import Graft.Decimal.Shortest
import Mathlib

/-!
# Numbers without a sign

A number in a text starts with a digit, and a sign before it is an operator of its own. What such a
number is read as has no sign either: it is made of products and quotients of floats without one.
-/

namespace Graft.Decimal

open Float.Model (UnpackedFloat Format)

/-! ## Floats taken apart -/

/-- The sign, if there is one, is the positive one. -/
def Unsigned : UnpackedFloat → Prop
  | .infinity s | .zero s | .finite s _ _ _ => s = .positive
  | .notANumber => True

variable {spec : Format} {a b : UnpackedFloat} {x y : Float}

theorem unsigned_round (spec : Format) (m : Nat) (e : Int) (acc : UnpackedFloat.Accuracy) :
    Unsigned (UnpackedFloat.roundWithAccuracy spec .positive m e acc) := by
  unfold UnpackedFloat.roundWithAccuracy
  dsimp only
  split <;> rfl

theorem unsigned_mul (ha : Unsigned a) (hb : Unsigned b) :
    Unsigned (UnpackedFloat.mul spec a b) := by
  cases a <;> cases b <;> cases ha <;> cases hb <;>
    first | exact unsigned_round _ _ _ _ | rfl | trivial

theorem unsigned_div (ha : Unsigned a) (hb : Unsigned b) :
    Unsigned (UnpackedFloat.div spec a b) := by
  cases a <;> cases b <;> cases ha <;> cases hb <;>
    first | exact unsigned_round _ _ _ _ | rfl | trivial

theorem unsigned_ofNat (spec : Format) (n : Nat) : Unsigned (UnpackedFloat.ofNat spec n) := by
  unfold UnpackedFloat.ofNat UnpackedFloat.ofInt UnpackedFloat.normalize
  split
  · next h => exact absurd (Int.compare_eq_lt.mp h) (by omega)
  · rfl
  · exact unsigned_round _ _ _ _

theorem unsigned_ofScientific (spec : Format) (m : Nat) (e : Int) :
    Unsigned (UnpackedFloat.ofScientific spec m e) := by
  unfold UnpackedFloat.ofScientific
  split
  · rfl
  · split
    · rfl
    · split
      · rfl
      · split
        · exact unsigned_mul rfl rfl
        · exact unsigned_div rfl rfl

/-! ## Bits -/

/-- The bit of the sign is clear. -/
def Clear (spec : Format) (b : BitVec spec.numBits) : Prop := UnpackedFloat.unpackSign b = 0#1

theorem negative_eq_false : negative x = false ↔ Clear .binary64 x.toBits.toBitVec := by
  unfold negative Clear UnpackedFloat.unpackSign
  rw [decide_eq_false_iff_not, ge_iff_le, UInt64.le_iff_toNat_le, ← BitVec.toNat_inj]
  have hbits := x.toBits.toNat_lt
  simp [BitVec.extractLsb_toNat, Nat.shiftRight_eq_div_pow]
  omega

theorem clear_packComponents (spec : Format) (e : BitVec spec.exponentBits)
    (m : BitVec spec.mantissaBitsWithoutImplicit) :
    Clear spec (UnpackedFloat.packComponents spec .positive e m) :=
  UnpackedFloat.unpackSign_packComponents .positive e m

theorem negative_pack (h : Unsigned a) : negative (.ofModel (.pack a)) = false := by
  rw [negative_eq_false]
  show Clear .binary64 (UnpackedFloat.pack .binary64 a)
  unfold UnpackedFloat.pack
  split
  · exact clear_packComponents _ _ _
  · cases h
    exact clear_packComponents _ _ _
  · cases h
    exact clear_packComponents _ _ _
  · cases h
    dsimp only
    split
    · exact clear_packComponents _ _ _
    · split <;> exact clear_packComponents _ _ _

theorem unsigned_unpack (h : negative x = false) : Unsigned x.toModel.unpack := by
  have hsign : UnpackedFloat.Sign.ofBitVec
      (@UnpackedFloat.unpackSign .binary64 x.toModel.toBits.toBitVec) = .positive :=
    if_pos (negative_eq_false.mp h)
  unfold Float.Model.unpack UnpackedFloat.unpack
  dsimp only
  rw [hsign]
  split
  · split
    · rfl
    · trivial
  · split
    · split <;> rfl
    · rfl

/-! ## Numbers that are read -/

theorem negative_mul (hx : negative x = false) (hy : negative y = false) :
    negative (x * y) = false :=
  negative_pack (unsigned_mul (unsigned_unpack hx) (unsigned_unpack hy))

theorem negative_div (hx : negative x = false) (hy : negative y = false) :
    negative (x / y) = false :=
  negative_pack (unsigned_div (unsigned_unpack hx) (unsigned_unpack hy))

/-- No constant that a number is read from carries a sign. -/
theorem negative_constants :
    negative 0 = false ∧ negative infinity = false ∧ negative undefinedNumber = false ∧
      ∀ e, (h : e < Float.exactlyRepresentablePowersOfTen.size) →
        negative Float.exactlyRepresentablePowersOfTen[e] = false := by
  decide +kernel

theorem negative_zero : negative 0 = false := negative_constants.1

theorem negative_ofScientific (m : Nat) (minus : Bool) (e : Nat) :
    negative (Float.ofScientific m minus e) = false := by
  have hwhole : negative m.toUInt64.toFloat = false := negative_pack (unsigned_ofNat _ _)
  obtain ⟨-, -, -, hpowers⟩ := negative_constants
  unfold Float.ofScientific
  split
  · dsimp only
    split
    · exact negative_div hwhole (hpowers e _)
    · exact negative_mul hwhole (hpowers e _)
  · exact negative_pack (unsigned_ofScientific _ _ _)

theorem negative_toFloat (coefficient : Nat) (exponent : Int) :
    negative (toFloat coefficient exponent) = false := by
  obtain ⟨-, hinfinity, -⟩ := negative_constants
  unfold toFloat
  split
  · exact negative_zero
  · dsimp only
    split
    · exact hinfinity
    · split
      · exact negative_zero
      · exact negative_ofScientific _ _ _

theorem negative_magnitude {cs : List Char} (h : magnitude? cs = some x) : negative x = false := by
  obtain ⟨-, hinfinity, hundefined, -⟩ := negative_constants
  unfold magnitude? at h
  dsimp only at h
  split at h
  · cases h
    exact hinfinity
  · split at h
    · cases h
      exact hundefined
    · split at h
      · cases h
      · obtain ⟨e, -, rfl⟩ := Option.map_eq_some_iff.mp h
        exact negative_toFloat _ _

/-- A text that does not start with a sign is read as a number without one. -/
theorem negative_read {cs : List Char} (h : read? cs = some x) (hsign : (spanSign cs).1 = false) :
    negative x = false := by
  unfold read? at h
  rcases hspan : spanSign cs with ⟨minus, rest⟩
  rw [hspan] at h hsign
  obtain ⟨y, hy, rfl⟩ := Option.map_eq_some_iff.mp h
  cases hsign
  exact negative_magnitude hy

/-! ## Finite numbers -/

theorem isFinite_iff : x.isFinite = true ↔ x.isNaN = false ∧ x.isInf = false := by
  unfold Float.isFinite Float.isNaN Float.isInf Float.Model.isFinite Float.Model.isNaN
    Float.Model.isInf
  cases x.toModel.unpack <;> simp [UnpackedFloat.isFinite, UnpackedFloat.isNaN,
    UnpackedFloat.isInf]

end Graft.Decimal
