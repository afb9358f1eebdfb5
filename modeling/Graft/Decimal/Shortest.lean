import Graft.Decimal.Binary

/-!
# The shortest decimal that reads back

A float is written with the fewest digits that read back as the same float; among those the nearest
one is taken, and of two equally near ones the larger. The text is positional: it has no exponent,
and a whole number has no point.
-/

namespace Graft.Decimal

/-- The magnitude `coefficient * 10 ^ exponent`. -/
structure Digits where
  coefficient : Nat
  exponent : Int
  deriving DecidableEq, Repr

namespace Binary

/-- The point of the grid of multiples of `10 ^ k` that stands for `b`, if one of the two
neighbours of `b` on that grid rounds to it. -/
def onGrid (b : Binary) (k : Int) : Option Nat :=
  let n := b.numerator k (4 * b.mantissa)
  let d := b.denominator k
  let below := n / d
  match b.admits k below, b.admits k (below + 1) with
  | true, true => if 2 * (n % d) < d then some below else some (below + 1)
  | true, false => some below
  | false, true => some (below + 1)
  | false, false => none

/-- The first of the grids `10 ^ k`, `10 ^ (k - 1)`, … that has a point for `b`. -/
def coarsest (b : Binary) : Nat → Int → Digits
  | 0, k => ⟨b.numerator k (4 * b.mantissa) / b.denominator k, k⟩
  | steps + 1, k =>
    match b.onGrid k with
    | some c => ⟨c, k⟩
    | none => coarsest b steps (k - 1)

/-- The fewest digits that read back: seventeen always suffice, and the search starts at most three
grids above the first digit. -/
def shortest (b : Binary) : Digits := b.coarsest 24 b.above

end Binary

/-- A run of zeros. -/
def zeros (n : Nat) : String := String.ofList (List.replicate n '0')

/-- Positional notation: zeros up to the point on either side, and no point in a whole number. -/
def Digits.positional (d : Digits) : String :=
  let digits := Nat.toDigits 10 d.coefficient
  if 0 ≤ d.exponent then
    String.ofList digits ++ zeros d.exponent.toNat
  else
    let point := (digits.length : Int) + d.exponent
    if 0 < point then
      String.ofList (digits.take point.toNat) ++ "." ++ String.ofList (digits.drop point.toNat)
    else
      "0." ++ zeros (-point).toNat ++ String.ofList digits

/-- Whether the sign bit is set. -/
def negative (x : Float) : Bool := x.toBits ≥ 0x8000000000000000

/-- The text of a float: `NaN`, `inf`, or the shortest positional decimal that reads back. A zero
keeps its sign. -/
def render (x : Float) : String :=
  if x.isNaN then "NaN"
  else
    let sign := if negative x then "-" else ""
    if x.isInf then sign ++ "inf"
    else
      let b := Binary.ofBits x.toBits
      if b.mantissa = 0 then sign ++ "0" else sign ++ b.shortest.positional

end Graft.Decimal
