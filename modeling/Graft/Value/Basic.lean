import Graft.Decimal.Shortest
import Graft.Diagnostic

/-!
# Values

What a program computes with: numbers, truth values, arrays of numbers, tuples, and the value of a
block that has none. An operation that does not fit a value gives a diagnostic without a place; who
knows the place adds it.
-/

namespace Graft

/-- The result of a step that may fail. -/
abbrev Outcome := Except Diagnostic

inductive Value where
  | num (x : Float)
  | bool (b : Bool)
  | array (xs : Array Float)
  | tuple (vs : List Value)
  | unit
  deriving Inhabited, Repr

namespace Value

/-- The word for the sort of a value. -/
def sort : Value → String
  | .num _ => "number"
  | .bool _ => "bool"
  | .array _ => "array"
  | .tuple _ => "tuple"
  | .unit => "unit"

/-- The text of a value, given the text of its numbers. -/
def display (number : Float → String) : Value → String
  | .num x => number x
  | .bool b => if b then "true" else "false"
  | .array xs => "[" ++ String.intercalate ", " (xs.toList.map number) ++ "]"
  | .tuple [v] => "(" ++ v.display number ++ ",)"
  | .tuple vs => "(" ++ String.intercalate ", " (displayAll number vs) ++ ")"
  | .unit => "()"
where
  displayAll (number : Float → String) : List Value → List String
    | [] => []
    | v :: vs => v.display number :: displayAll number vs

/-- The text of a value, its numbers in the shortest form that reads back. -/
def text (v : Value) : String := v.display Decimal.render

/-! ## What can be wrong -/

/-- A value of another sort was expected. -/
def mismatch (what : String) (found : Value) : Diagnostic :=
  .of .type ("expected " ++ what ++ ", found " ++ found.sort)

/-- A number that counts is not whole. -/
def notWhole (x : Float) : Diagnostic :=
  .of .type ("expected an integer, found " ++ Decimal.render x)

/-- An index lies outside an array or tuple. -/
def outOfBounds (i : Int) (length : Nat) : Diagnostic :=
  .of .runtime s!"index {i} out of bounds for length {length}"

def notUnpackable (v : Value) : Diagnostic := .of .type ("cannot destructure a " ++ v.sort)

def wrongParts (wanted found : Nat) : Diagnostic :=
  .of .type s!"expected {wanted} value(s) to unpack, found {found}"

/-! ## Taking values apart -/

def asNum : Value → Outcome Float
  | .num x => .ok x
  | v => .error (mismatch "a number" v)

def asBool : Value → Outcome Bool
  | .bool b => .ok b
  | v => .error (mismatch "a bool" v)

def asArray : Value → Outcome (Array Float)
  | .array xs => .ok xs
  | v => .error (mismatch "an array" v)

/-- The absolute value of the whole part of a number below `2 ^ 64`; the greatest 64 bits from there
on. -/
def wholeSize (x : Float) : UInt64 := x.abs.toUInt64

/-- Whether a number is finite and whole; from `2 ^ 64` on every finite number is. -/
def isWhole (x : Float) : Bool :=
  x.isFinite && ((wholeSize x).toFloat == x.abs || decide (18446744073709551616 ≤ x.abs))

/-- The whole part of a number that is at most as large as 64 bits with a sign can hold. -/
def wholePart (x : Float) : Int :=
  if x < 0 then -(min (wholeSize x).toNat 0x8000000000000000 : Nat)
  else (min (wholeSize x).toNat 0x7fffffffffffffff : Nat)

/-- A whole number, as an index or the end of a range; beyond 64 bits the nearest one is taken. -/
def asIndex (v : Value) : Outcome Int := do
  let x ← v.asNum
  if isWhole x then .ok (wholePart x) else .error (notWhole x)

def length : Value → Outcome Nat
  | .array xs => .ok xs.size
  | .tuple vs => .ok vs.length
  | v => .error (mismatch "an array or tuple" v)

/-! ## Addressing

A negative index counts from the end. -/

/-- The position that an index denotes among `length` elements. -/
def position (i : Int) (length : Nat) : Outcome Nat :=
  let p := if i < 0 then i + length else i
  if p < 0 ∨ (length : Int) ≤ p then .error (outOfBounds i length) else .ok p.toNat

/-- The end of a slice: an index, moved into the array. -/
def clamp (i : Int) (length : Nat) : Nat :=
  min (if i < 0 then i + length else i).toNat length

/-- The element at an index of an array or tuple. -/
def index (v : Value) (i : Int) : Outcome Value :=
  match v with
  | .array xs => do
    let p ← position i xs.size
    return .num (xs.getD p 0)
  | .tuple vs => do
    let p ← position i vs.length
    return vs.getD p .unit
  | v => .error (mismatch "an array or tuple" v)

/-- The elements from the first index up to the second; indices outside an array mean its ends. -/
def slice (v : Value) (first last : Int) : Outcome Value := do
  let xs ← v.asArray
  return .array (xs.extract (clamp first xs.size) (clamp last xs.size))

/-- The array with another element at an index. -/
def store (v : Value) (i : Int) (element : Value) : Outcome Value := do
  let x ← element.asNum
  match v with
  | .array xs =>
    let p ← position i xs.size
    return .array (xs.setIfInBounds p x)
  | v => .error (mismatch "an array" v)

/-- The parts of a tuple or array that must have exactly `count` of them. -/
def unpack (v : Value) (count : Nat) : Outcome (List Value) := do
  let parts ← match v with
    | .tuple vs => .ok vs
    | .array xs => .ok (xs.toList.map .num)
    | v => .error (notUnpackable v)
  if parts.length = count then .ok parts else .error (wrongParts count parts.length)

/-! ## Equality -/

/-- Equality as programs see it: an undefined number differs from itself, and the zeros are
equal. -/
def equal : Value → Value → Bool
  | .num x, .num y => x == y
  | .bool a, .bool b => a == b
  | .array xs, .array ys => xs == ys
  | .tuple vs, .tuple ws => equalAll vs ws
  | .unit, .unit => true
  | _, _ => false
where
  equalAll : List Value → List Value → Bool
    | [], [] => true
    | v :: vs, w :: ws => v.equal w && equalAll vs ws
    | _, _ => false

end Value

end Graft
