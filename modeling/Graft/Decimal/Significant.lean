import Graft.Decimal.Shortest

/-!
# A fixed number of significant digits

Scientific notation with a given number of digits, rounded to the nearest such number; a tie goes to
the even digit.
-/

namespace Graft.Decimal

/-- The quotient rounded to the nearest whole number, a tie to the even one. -/
def roundHalfEven (n d : Nat) : Nat :=
  let q := n / d
  let r := n % d
  if 2 * r < d then q
  else if d < 2 * r then q + 1
  else if q % 2 = 0 then q else q + 1

namespace Binary

/-- The exponent of the leading decimal digit, sought downwards from `k`. -/
def leading (b : Binary) : Nat → Int → Int
  | 0, k => k
  | steps + 1, k =>
    if b.denominator k ≤ b.numerator k (4 * b.mantissa) then k else leading b steps (k - 1)

/-- The coefficient of exactly `count` digits and the exponent of its first digit. -/
def significant (b : Binary) (count : Nat) : Nat × Int :=
  let e := b.leading 8 b.above
  let k := e - (count : Int) + 1
  let c := roundHalfEven (b.numerator k (4 * b.mantissa)) (b.denominator k)
  if c = Nat.pow 10 count then (Nat.pow 10 (count - 1), e + 1) else (c, e)

end Binary

/-- Scientific notation with `count` significant digits, such as `2.500e-3`; what is not a finite
nonzero number is written as `render` writes it. -/
def scientific (count : Nat) (x : Float) : String :=
  let b := Binary.ofBits x.toBits
  if x.isNaN || x.isInf || b.mantissa == 0 then render x
  else
    let (c, e) := b.significant count
    let digits := Nat.toDigits 10 c
    let sign := if negative x then "-" else ""
    let fraction := String.ofList (digits.drop 1)
    let point := if digits.length ≤ 1 then "" else "."
    sign ++ String.ofList (digits.take 1) ++ point ++ fraction ++ "e" ++ toString e

end Graft.Decimal
