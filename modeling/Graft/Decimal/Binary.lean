/-!
# Binary magnitudes

A finite float is a sign and a magnitude `mantissa * 2 ^ exponent`. This module takes the magnitude
out of the bits and compares it with the grids of decimal numbers `c * 10 ^ k`, all in exact integer
arithmetic.
-/

namespace Graft.Decimal

/-- The number `mantissa * 2 ^ exponent`. -/
structure Binary where
  mantissa : Nat
  exponent : Int
  deriving DecidableEq, Repr

namespace Binary

/-- The leading bit of a mantissa, which is not stored: `2 ^ 52`. -/
def leadingBit : Nat := 0x10000000000000

/-- The magnitude held in the low 63 bits of a finite float. -/
def ofBits (bits : UInt64) : Binary :=
  let field : Nat := bits.toNat / leadingBit % 2048
  let fraction : Nat := bits.toNat % leadingBit
  if field = 0 then ⟨fraction, -1074⟩ else ⟨fraction + leadingBit, (field : Int) - 1075⟩

/-- Quarter steps of the last place, so that the ends of the rounding interval are whole: the
numerator of `quarters * 2 ^ (exponent - 2) / 10 ^ k`. -/
def numerator (b : Binary) (k : Int) (quarters : Nat) : Nat :=
  quarters * Nat.pow 2 (b.exponent - 2).toNat * Nat.pow 10 (-k).toNat

/-- The denominator that belongs to `numerator`. -/
def denominator (b : Binary) (k : Int) : Nat :=
  Nat.pow 2 (2 - b.exponent).toNat * Nat.pow 10 k.toNat

/-- The lower end of the interval of reals that round to this magnitude, in quarter steps: half a
step below, or a quarter where the step below is half as wide. -/
def low (b : Binary) : Nat :=
  if b.mantissa = leadingBit ∧ b.exponent ≠ -1074 then 4 * b.mantissa - 1 else 4 * b.mantissa - 2

/-- The upper end of that interval, in quarter steps. -/
def high (b : Binary) : Nat := 4 * b.mantissa + 2

/-- Whether `c * 10 ^ k` rounds to this magnitude. The ends of the interval belong to it exactly
when the mantissa is even, since a tie goes to the even neighbour. -/
def admits (b : Binary) (k : Int) (c : Nat) : Bool :=
  let point := c * b.denominator k
  if b.mantissa % 2 = 0 then
    decide (b.numerator k b.low ≤ point ∧ point ≤ b.numerator k b.high)
  else
    decide (b.numerator k b.low < point ∧ point < b.numerator k b.high)

/-- An exponent of ten a little above the magnitude: `10 ^ b.above` is larger than it. -/
def above (b : Binary) : Int :=
  ((b.mantissa.log2 : Int) + b.exponent) * 30103 / 100000 + 2

end Binary

end Graft.Decimal
