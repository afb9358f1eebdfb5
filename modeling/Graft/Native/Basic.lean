import Graft.Native.Special
import Graft.Value.Operators

/-!
# Primitives

The functions that are given and not written in the language: the builtins, which every program
sees under their bare names, and the library modules `math` and `array`, whose names are qualified.
-/

namespace Graft

/-- The functions of one number in the module `math`. -/
inductive MathFunction where
  | exp
  | log
  | log10
  | sqrt
  | sin
  | cos
  | tan
  | tanh
  | atan
  | floor
  | ceil
  | erf
  | erfc
  | gamma
  | lnGamma
  | normPdf
  | normCdf
  deriving DecidableEq, Repr

namespace MathFunction

def all : List MathFunction :=
  [.exp, .log, .log10, .sqrt, .sin, .cos, .tan, .tanh, .atan, .floor, .ceil, .erf, .erfc, .gamma,
    .lnGamma, .normPdf, .normCdf]

def name : MathFunction → String
  | .exp => "math.exp"
  | .log => "math.log"
  | .log10 => "math.log10"
  | .sqrt => "math.sqrt"
  | .sin => "math.sin"
  | .cos => "math.cos"
  | .tan => "math.tan"
  | .tanh => "math.tanh"
  | .atan => "math.atan"
  | .floor => "math.floor"
  | .ceil => "math.ceil"
  | .erf => "math.erf"
  | .erfc => "math.erfc"
  | .gamma => "math.gamma"
  | .lnGamma => "math.ln_gamma"
  | .normPdf => "math.norm_pdf"
  | .normCdf => "math.norm_cdf"

def apply : MathFunction → Float → Float
  | .exp => Float.exp
  | .log => Float.log
  | .log10 => Float.log10
  | .sqrt => Float.sqrt
  | .sin => Float.sin
  | .cos => Float.cos
  | .tan => Float.tan
  | .tanh => Float.tanh
  | .atan => Float.atan
  | .floor => Float.floor
  | .ceil => Float.ceil
  | .erf => Special.erf
  | .erfc => Special.erfc
  | .gamma => Special.gamma
  | .lnGamma => Special.lnGamma
  | .normPdf => Special.normalDensity
  | .normCdf => Special.normalDistribution

end MathFunction

inductive Native where
  | len
  | abs
  | min
  | max
  | round
  | sum
  | assert
  | math (f : MathFunction)
  | atan2
  | pow
  | beta
  | zeros
  | full
  | zerosLike
  | fullLike
  | empty
  | arange
  | arraySum
  | mean
  | std
  | dot
  deriving DecidableEq, Repr

namespace Native

def builtins : List Native := [.len, .abs, .min, .max, .round, .sum, .assert]

/-- The members of the library modules. -/
def library : List Native :=
  MathFunction.all.map .math ++
    [.atan2, .pow, .beta, .zeros, .full, .zerosLike, .fullLike, .empty, .arange, .arraySum, .mean,
      .std, .dot]

/-- The name under which a program reaches the primitive, with its module. -/
def name : Native → String
  | .len => "len"
  | .abs => "abs"
  | .min => "min"
  | .max => "max"
  | .round => "round"
  | .sum => "sum"
  | .assert => "assert"
  | .math f => f.name
  | .atan2 => "math.atan2"
  | .pow => "math.pow"
  | .beta => "math.beta"
  | .zeros => "array.zeros"
  | .full => "array.full"
  | .zerosLike => "array.zeros_like"
  | .fullLike => "array.full_like"
  | .empty => "array.empty"
  | .arange => "array.arange"
  | .arraySum => "array.sum"
  | .mean => "array.mean"
  | .std => "array.std"
  | .dot => "array.dot"

/-- The least and the greatest number of arguments. -/
def arity : Native → Nat × Nat
  | .min | .max => (1, 2)
  | .atan2 | .pow | .beta | .full | .fullLike | .dot => (2, 2)
  | .arange => (1, 3)
  | _ => (1, 1)

/-- The builtin of that name. -/
def builtin? (name : String) : Option Native := builtins.find? fun n => n.name == name

/-- The member of a library module. -/
def member? (module name : String) : Option Native :=
  library.find? fun n => n.name == module ++ "." ++ name

/-- The constant of a library module. -/
def constant? (module name : String) : Option Value :=
  if module = "math" then
    match name with
    | "pi" => some (.num Special.pi)
    | "e" => some (.num Special.euler)
    | "nan" => some (.num Decimal.undefinedNumber)
    | "inf" => some (.num Decimal.infinity)
    | _ => none
  else none

/-! ## What can be wrong -/

def wrongArity (n : Native) (given : Nat) : Diagnostic :=
  let (least, greatest) := n.arity
  let expected := if least = greatest then s!"{least}" else s!"{least} to {greatest}"
  .of .type ("`" ++ n.name ++ "` takes " ++ expected ++ s!" argument(s), {given} given")

/-- A function of numbers and arrays was given something else; `prelude` names the function where
the report does. -/
def notNumeric (prelude : String) (v : Value) : Diagnostic := .of .type (prelude ++ v.sort)

def emptyExtremum (name : String) : Diagnostic :=
  .of .runtime (name ++ " of an empty array")

def negativeLength (n : Int) : Diagnostic :=
  .of .runtime s!"array length must be non-negative, found {n}"

def badStep : Diagnostic := .of .runtime "arange step must be finite and non-zero"

def differentDotLengths (m n : Nat) : Diagnostic :=
  .of .runtime s!"array.dot of lengths {m} and {n}"

def failedAssertion : Diagnostic := .of .runtime "assertion failed"

def noBeta (a b : Float) (reason : String) : Diagnostic :=
  .of .runtime
    ("math.beta(" ++ Decimal.render a ++ ", " ++ Decimal.render b ++ "): " ++ reason)

/-! ## Functions of numbers -/

/-- A function of one number, or of every element of an array. -/
def mapNumbers (prelude : String) (f : Float → Float) (v : Value) : Outcome Value :=
  match v with
  | .num x => .ok (.num (f x))
  | .array xs => .ok (.array (xs.map f))
  | v => .error (notNumeric prelude v)

/-- The nearest whole number, of two equally near the even one; a zero keeps the sign. -/
def roundHalfEven (x : Float) : Float :=
  let y := x.abs
  if x.isNaN || decide (4503599627370496 ≤ y) then x
  else
    let below := y.floor
    let rest := y - below
    let even := (below / 2).floor == below / 2
    let r := if rest < 0.5 || (rest == 0.5 && even) then below else below + 1
    if Decimal.negative x then -r else r

/-- The sum in order; that of nothing is the negative zero. -/
def sumOf (xs : Array Float) : Float := xs.foldl (· + ·) (-0.0)

def meanOf (xs : Array Float) : Float := sumOf xs / xs.size.toFloat

/-- The population standard deviation. -/
def deviationOf (xs : Array Float) : Float :=
  let m := meanOf xs
  (sumOf (xs.map fun x => (x - m) * (x - m)) / xs.size.toFloat).sqrt

/-- The smaller number, or the larger one; undefined if one of them is. -/
def pickOf (larger : Bool) (x y : Float) : Float :=
  if x.isNaN || y.isNaN then Decimal.undefinedNumber
  else if larger then if x < y then y else x
  else if y < x then y else x

/-- The smallest or largest of some numbers. -/
def extremumOf (larger : Bool) : List Float → Option Float
  | [] => none
  | x :: rest => some (rest.foldl (pickOf larger) x)

/-- The extremum of an array or of two numbers. -/
def extremum (name : String) (larger : Bool) (args : List Value) : Outcome Value := do
  let found ← match args with
    | [.array xs] => pure (extremumOf larger xs.toList)
    | [v] => throw (notNumeric (name ++ " of a single ") v)
    | [a, b] => do pure (extremumOf larger [← a.asNum, ← b.asNum])
    | _ => pure none
  match found with
  | some x => return .num x
  | none => throw (emptyExtremum name)

/-- The sum of an array, or of a tuple of numbers. -/
def sumValue : Value → Outcome Value
  | .array xs => .ok (.num (sumOf xs))
  | .tuple vs => do return .num (← vs.foldlM (fun total v => do return total + (← v.asNum)) 0)
  | v => .error (notNumeric "sum expects an array, found " v)

/-! ## Arrays -/

/-- The length that an argument asks for. -/
def lengthOf (v : Value) : Outcome Nat := do
  let n ← v.asIndex
  if n < 0 then throw (negativeLength n) else return n.toNat

def filled (length : Nat) (x : Float) : Value := .array (Array.replicate length x)

/-- The numbers from `start` up to `stop`, which is left out. -/
def rangeOf (start stop step : Float) : Outcome Value :=
  if step == 0 || !step.isFinite then .error badStep
  else
    let count := ((stop - start) / step).ceil
    let count := if 0 < count then count.toUInt64.toNat else 0
    .ok (.array ((Array.range count).map fun i => start + step * i.toFloat))

def dotOf (xs ys : Array Float) : Outcome Value :=
  if xs.size = ys.size then .ok (.num (sumOf (xs.zipWith (· * ·) ys)))
  else .error (differentDotLengths xs.size ys.size)

/-! ## Calls -/

/-- The primitive on arguments whose number fits. -/
def apply (n : Native) (args : List Value) : Outcome Value :=
  match n, args with
  | .len, [v] => do return .num (← v.length).toFloat
  | .abs, [v] => mapNumbers "abs expects a number or array, found " Float.abs v
  | .min, args => extremum "min" false args
  | .max, args => extremum "max" true args
  | .round, [v] => mapNumbers "round expects a number or array, found " roundHalfEven v
  | .sum, [v] => sumValue v
  | .assert, [v] => do if ← v.asBool then return .unit else throw failedAssertion
  | .math f, [v] => mapNumbers "expected a number or array, found " f.apply v
  | .atan2, [y, x] => do return .num ((← y.asNum).atan2 (← x.asNum))
  | .pow, [a, b] => Value.binary .pow a b
  | .beta, [a, b] => do
    let x ← a.asNum
    let y ← b.asNum
    match Special.beta x y with
    | .ok r => return .num r
    | .error reason => throw (noBeta x y reason)
  | .zeros, [n] => do return filled (← lengthOf n) 0
  | .full, [n, v] => do
    let x ← v.asNum
    return filled (← lengthOf n) x
  | .zerosLike, [v] => do return filled (← v.asArray).size 0
  | .fullLike, [v, fill] => do
    let x ← fill.asNum
    return filled (← v.asArray).size x
  | .empty, [n] => do return filled (← lengthOf n) Decimal.undefinedNumber
  | .arange, [stop] => do rangeOf 0 (← stop.asNum) 1
  | .arange, [start, stop] => do rangeOf (← start.asNum) (← stop.asNum) 1
  | .arange, [start, stop, step] => do rangeOf (← start.asNum) (← stop.asNum) (← step.asNum)
  | .arraySum, [v] => do return .num (sumOf (← v.asArray))
  | .mean, [v] => do return .num (meanOf (← v.asArray))
  | .std, [v] => do return .num (deviationOf (← v.asArray))
  | .dot, [a, b] => do dotOf (← a.asArray) (← b.asArray)
  | n, args => .error (n.wrongArity args.length)

/-- Calls the primitive: the number of arguments is looked at first. -/
def call (n : Native) (args : List Value) : Outcome Value :=
  if args.length < n.arity.1 ∨ n.arity.2 < args.length then .error (n.wrongArity args.length)
  else n.apply args

/-- How the primitive is shown. -/
def display (n : Native) : String := "<native " ++ n.name ++ ">"

end Native

end Graft
