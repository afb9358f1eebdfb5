import Graft.Token.Basic
import Graft.Diagnostic
import Graft.Decimal.Reading

/-!
# Scanning

A source text is cut into pieces from left to right. Each piece is a token, a blank stretch (white
space or a comment up to the end of its line) or a character that belongs to no token. A piece is
never empty, so the cut ends; places are counted in bytes from the start of the whole text, also
where only a part of it is scanned.
-/

namespace Graft.Scan

/-- What can be wrong with the characters of a text. -/
inductive Problem where
  /-- A byte that starts no token. -/
  | strayByte (byte : UInt8)
  /-- A single `&` or `|`. -/
  | loneMark (byte : UInt8)
  /-- Text that looked like a number and is none. -/
  | malformedNumber (text : String)
  deriving DecidableEq, Repr

/-- A byte as the character of the same number. -/
def byteText (b : UInt8) : String := String.singleton (Char.ofUInt8 b)

/-- A byte in four upper-case hexadecimal digits. -/
def hexText (b : UInt8) : String :=
  let digits := (Nat.toDigits 16 b.toNat).map Char.toUpper
  String.ofList (List.replicate (4 - digits.length) '0' ++ digits)

def Problem.message : Problem → String
  | .strayByte b => "unexpected character '" ++ byteText b ++ "' (U+" ++ hexText b ++ ")"
  | .loneMark b => "unexpected '" ++ byteText b ++ "'; there are no bitwise operators"
  | .malformedNumber text => "malformed number literal '" ++ text ++ "'"

def Problem.help : Problem → Option String
  | .strayByte _ => some "this character is not part of the fastats syntax"
  | .loneMark b => some ("use `" ++ byteText b ++ byteText b ++ "` for the logical operator")
  | .malformedNumber _ => none

def Problem.report (p : Problem) (span : Span) : Diagnostic :=
  { kind := .malformed, message := p.message, span, help := p.help }

/-! ## Classes of bytes -/

/-- Space, tab, line feed, form feed and carriage return. -/
def isBlank (b : UInt8) : Bool := b == 32 || b == 9 || b == 10 || b == 12 || b == 13

def isDigit (b : UInt8) : Bool := 48 ≤ b && b ≤ 57

def isNameStart (b : UInt8) : Bool := (65 ≤ b && b ≤ 90) || (97 ≤ b && b ≤ 122) || b == 95

def isNamePart (b : UInt8) : Bool := isNameStart b || isDigit b

/-- Bytes below 128 as text. -/
def asciiText (bytes : List UInt8) : String := String.ofList (bytes.map Char.ofUInt8)

/-! ## Pieces -/

inductive Piece where
  | blank
  | token (t : Token)
  | fault (p : Problem)
  deriving Repr

/-- The name or reserved word written so. -/
def wordOf (text : String) : Token :=
  match Keyword.ofText? text with
  | some k => .word k
  | none => .name text

/-- How many bytes of a fraction follow the whole part: a point counts only before a digit. -/
def fractionLength : List UInt8 → Nat
  | 46 :: d :: rest => if isDigit d then 2 + (rest.takeWhile isDigit).length else 0
  | _ => 0

/-- How many bytes of an exponent follow: `e` counts only before a digit or a sign and a digit. -/
def exponentLength : List UInt8 → Nat
  | e :: s :: rest =>
    if e == 101 || e == 69 then
      if isDigit s then 2 + (rest.takeWhile isDigit).length
      else if s == 43 || s == 45 then
        match rest with
        | d :: more => if isDigit d then 3 + (more.takeWhile isDigit).length else 0
        | [] => 0
      else 0
    else 0
  | _ => 0

/-- How many bytes after its first digit belong to a number. -/
def numberLength (rest : List UInt8) : Nat :=
  let whole := (rest.takeWhile isDigit).length
  let fraction := fractionLength (rest.drop whole)
  whole + fraction + exponentLength (rest.drop (whole + fraction))

/-- A number, or the report that its text is none. -/
def numberOf (bytes : List UInt8) : Piece :=
  match Decimal.read? (bytes.map Char.ofUInt8) with
  | some x => .token (.number x)
  | none => .fault (.malformedNumber (asciiText bytes))

/-- The marks of one byte that start no longer mark. -/
def single? (b : UInt8) : Option Symbol :=
  match b with
  | 40 => some .openParen
  | 41 => some .closeParen
  | 123 => some .openBrace
  | 125 => some .closeBrace
  | 91 => some .openBracket
  | 93 => some .closeBracket
  | 44 => some .comma
  | 59 => some .semicolon
  | 64 => some .atSign
  | 43 => some .plus
  | 45 => some .minus
  | 47 => some .slash
  | 37 => some .percent
  | _ => none

/-- The marks that grow by one byte: the byte to grow by, the longer and the shorter mark. -/
def double? (b : UInt8) : Option (UInt8 × Symbol × Symbol) :=
  match b with
  | 46 => some (46, .dotDot, .dot)
  | 42 => some (42, .starStar, .star)
  | 61 => some (61, .equal, .assign)
  | 33 => some (61, .notEqual, .bang)
  | 60 => some (61, .lessEqual, .less)
  | 62 => some (61, .greaterEqual, .greater)
  | _ => none

/-- The piece that starts with a byte that is neither blank nor in a name or number. -/
def markPiece (b : UInt8) (rest : List UInt8) : Piece × Nat :=
  if b == 38 || b == 124 then
    if rest.head? = some b then (.token (.mark (if b == 38 then .andAnd else .orOr)), 1)
    else (.fault (.loneMark b), 0)
  else
    match double? b with
    | some (next, longer, shorter) =>
      if rest.head? = some next then (.token (.mark longer), 1) else (.token (.mark shorter), 0)
    | none =>
      match single? b with
      | some s => (.token (.mark s), 0)
      | none => (.fault (.strayByte b), 0)

/-- The piece at the front of a text, and how many bytes it has after its first. -/
def piece (b : UInt8) (rest : List UInt8) : Piece × Nat :=
  if isBlank b then (.blank, 0)
  else if b == 47 && rest.head? == some 47 then (.blank, (rest.takeWhile (· != 10)).length)
  else if isNameStart b then
    let more := rest.takeWhile isNamePart
    (.token (wordOf (asciiText (b :: more))), more.length)
  else if isDigit b then
    let more := numberLength rest
    (numberOf (b :: rest.take more), more)
  else markPiece b rest

/-! ## Texts -/

/-- A scanned text: its tokens, the place where it ends, and what was wrong with it. -/
structure Result where
  tokens : List Lexeme
  stop : Span
  diagnostics : List Diagnostic
  deriving Repr

/-- Puts a piece before a scanned text. -/
def Result.cons (r : Result) (p : Piece) (span : Span) : Result :=
  match p with
  | .blank => r
  | .token t => { r with tokens := ⟨t, span⟩ :: r.tokens }
  | .fault problem => { r with diagnostics := problem.report span :: r.diagnostics }

/-- Scans `bytes`, which start at `position` and end at `stop`. -/
def scanFrom (stop : Nat) (position : Nat) (bytes : List UInt8) : Result :=
  match bytes with
  | [] => ⟨[], ⟨stop, stop⟩, []⟩
  | b :: rest =>
    let (p, more) := piece b rest
    let next := position + 1 + more
    (scanFrom stop next (rest.drop more)).cons p ⟨position, next⟩
termination_by bytes.length
decreasing_by simp only [List.length_drop, List.length_cons]; omega

/-- Scans the bytes of `source` from `start` up to `stop`. -/
def range (source : String) (start stop : Nat) : Result :=
  let bytes := source.toUTF8.data.toList
  let stop := min stop bytes.length
  scanFrom stop (min start bytes.length) ((bytes.take stop).drop start)

/-- Scans a whole text. -/
def text (source : String) : Result := range source 0 source.utf8ByteSize

end Graft.Scan
