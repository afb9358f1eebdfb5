import Graft.Tree.Basic
import Graft.Value.Basic

/-!
# Operators on values

Arithmetic works on numbers and, element by element, on arrays: a number goes with every element of
an array, and two arrays must be equally long.
-/

namespace Graft

/-- An arithmetic operator on numbers. The remainder has the sign of the divisor. -/
def BinaryOp.apply (op : BinaryOp) (x y : Float) : Float :=
  match op with
  | .add => x + y
  | .sub => x - y
  | .mul => x * y
  | .div => x / y
  | .rem => x - y * (x / y).floor
  | _ => x.pow y

namespace Value

def notApplicable (op : BinaryOp) (a b : Value) : Diagnostic :=
  .of .type ("cannot apply `" ++ op.text ++ "` to " ++ a.sort ++ " and " ++ b.sort)

def notApplicableTo (op : UnaryOp) (v : Value) : Diagnostic :=
  .of .type ("cannot apply `" ++ op.text ++ "` to " ++ v.sort)

def differentLengths (op : BinaryOp) (m n : Nat) : Diagnostic :=
  .of .runtime (s!"operands of `" ++ op.text ++ s!"` have different lengths ({m} and {n})")

/-- Arithmetic on numbers and arrays. -/
def arithmetic (op : BinaryOp) (a b : Value) : Outcome Value :=
  match a, b with
  | .num x, .num y => .ok (.num (op.apply x y))
  | .array xs, .num y => .ok (.array (xs.map fun x => op.apply x y))
  | .num x, .array ys => .ok (.array (ys.map fun y => op.apply x y))
  | .array xs, .array ys =>
    if xs.size = ys.size then .ok (.array (xs.zipWith op.apply ys))
    else .error (differentLengths op xs.size ys.size)
  | a, b => .error (notApplicable op a b)

/-- Comparison of two numbers. -/
def compare (test : Float → Float → Bool) (a b : Value) : Outcome Value := do
  return .bool (test (← a.asNum) (← b.asNum))

/-- A binary operator on two values. The logical ones look at the second value only if the first
one does not decide. -/
def binary (op : BinaryOp) (a b : Value) : Outcome Value :=
  match op with
  | .eq => .ok (.bool (a.equal b))
  | .ne => .ok (.bool (!a.equal b))
  | .lt => compare (fun x y => decide (x < y)) a b
  | .le => compare (fun x y => decide (x ≤ y)) a b
  | .gt => compare (fun x y => decide (y < x)) a b
  | .ge => compare (fun x y => decide (y ≤ x)) a b
  | .and => do if ← a.asBool then .bool <$> b.asBool else return .bool false
  | .or => do if ← a.asBool then return .bool true else .bool <$> b.asBool
  | .add | .sub | .mul | .div | .rem | .pow => arithmetic op a b

/-- A unary operator on a value. -/
def unary (op : UnaryOp) (v : Value) : Outcome Value :=
  match op, v with
  | .neg, .num x => .ok (.num (-x))
  | .neg, .array xs => .ok (.array (xs.map fun x => -x))
  | .not, .bool b => .ok (.bool (!b))
  | op, v => .error (notApplicableTo op v)

end Value

end Graft
