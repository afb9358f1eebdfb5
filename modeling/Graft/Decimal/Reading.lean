/-!
# Reading decimals

`read?` takes the text of a number apart and gives the nearest float. It accepts an optional sign
and then one of the words `inf`, `infinity` and `nan` in any case, or digits with an optional point
and an optional exponent, with a digit on at least one side of the point.
-/

namespace Graft.Decimal

/-- The value of a run of decimal digits. -/
def digitsValue (digits : List Char) : Nat :=
  digits.foldl (fun n c => 10 * n + (c.toNat - '0'.toNat)) 0

/-- Positive infinity. -/
def infinity : Float := Float.ofBits 0x7FF0000000000000

/-- The float that stands for an undefined number. -/
def undefinedNumber : Float := Float.ofBits 0x7FF8000000000000

/-- The float nearest to `coefficient * 10 ^ exponent`. What lies far outside the range of floats is
infinite or zero and is not computed. -/
def toFloat (coefficient : Nat) (exponent : Int) : Float :=
  if coefficient = 0 then 0
  else
    let magnitude := (Nat.toDigits 10 coefficient).length + exponent
    if 400 < magnitude then infinity
    else if magnitude < -400 then 0
    else Float.ofScientific coefficient (decide (exponent < 0)) exponent.natAbs

/-- The digits at the front of a text and what follows them. -/
def spanDigits (cs : List Char) : List Char × List Char :=
  (cs.takeWhile Char.isDigit, cs.dropWhile Char.isDigit)

/-- The sign at the front of a text, as "is it negative", and what follows it. -/
def spanSign : List Char → Bool × List Char
  | '-' :: cs => (true, cs)
  | '+' :: cs => (false, cs)
  | cs => (false, cs)

/-- The exponent that fills the rest of a number: nothing, or `e` and a whole number. -/
def exponent? : List Char → Option Int
  | [] => some 0
  | c :: cs =>
    if c = 'e' ∨ c = 'E' then
      let (minus, digits) := spanSign cs
      if digits.isEmpty || !digits.all Char.isDigit then none
      else if minus then some (-(digitsValue digits : Int)) else some (digitsValue digits)
    else none

/-- The digits after the point, if there is one, and what follows them. -/
def spanFraction : List Char → List Char × List Char
  | '.' :: cs => spanDigits cs
  | cs => ([], cs)

/-- A number without a sign. -/
def magnitude? (cs : List Char) : Option Float :=
  let word := cs.map Char.toLower
  if word = "inf".toList ∨ word = "infinity".toList then some infinity
  else if word = "nan".toList then some undefinedNumber
  else
    let (whole, afterWhole) := spanDigits cs
    let (fraction, afterFraction) := spanFraction afterWhole
    if whole.isEmpty && fraction.isEmpty then none
    else (exponent? afterFraction).map fun e =>
      toFloat (digitsValue (whole ++ fraction)) (e - fraction.length)

/-- The float that a text denotes, or `none` where the text is not a number. -/
def read? (text : List Char) : Option Float :=
  let (minus, cs) := spanSign text
  (magnitude? cs).map fun x => if minus then -x else x

end Graft.Decimal
