import Graft.Tree.Basic
import Graft.Tree.Cursor
import Graft.Token.Scan

/-!
# Reading trees

The grammar of the language, as steps along a list of tokens. Expressions are read by operator
strength. Reading goes on after a mistake, so that one text may have several reports; it accepts a
text exactly when there is none. Expressions and blocks may be nested 256 levels deep, and the
recursion is on the levels that are left.
-/

namespace Graft.Parse

/-- How deep expressions and blocks may be nested. -/
def maxLevels : Nat := 256

/-! ## Expressions -/

/-- The operator that a token stands for between two operands. -/
def binaryOf? : Token → Option BinaryOp
  | .mark .orOr => some .or
  | .mark .andAnd => some .and
  | .mark .equal => some .eq
  | .mark .notEqual => some .ne
  | .mark .less => some .lt
  | .mark .lessEqual => some .le
  | .mark .greater => some .gt
  | .mark .greaterEqual => some .ge
  | .mark .plus => some .add
  | .mark .minus => some .sub
  | .mark .star => some .mul
  | .mark .slash => some .div
  | .mark .percent => some .rem
  | .mark .starStar => some .pow
  | _ => none

/-- The operator that a token stands for before an operand. -/
def unaryOf? : Token → Option UnaryOp
  | .mark .minus => some .neg
  | .mark .bang => some .not
  | _ => none

/-- The names after the first one of a path. -/
def pathLoop : Nat → Parse (List String)
  | 0 => return []
  | fuel + 1 => do
    if ← eat .dot then
      match ← name? with
      | some n => return n.text :: (← pathLoop fuel)
      | none =>
        report .danglingDot
        return []
    else return []

/-- A name, or names joined by dots. -/
def path : Parse Path := do
  let first ← expectName
  return ⟨first.text, ← pathLoop (← remaining)⟩

/-- What follows an opening parenthesis: an expression, or a tuple if a comma follows the first
element. -/
def parenthesized (sub : Nat → Parse Expr) (start : Span) : Parse Expr := do
  let first ← sub 0
  if ← eat .comma then
    let more ← list .closeParen (sub 0)
    expect .closeParen
    return .tuple (first :: more) (start.merge (← before))
  else
    expect .closeParen
    return first

/-- A name, a path or a call. -/
def named (sub : Nat → Parse Expr) (start : Span) : Parse Expr := do
  let p ← path
  let pathSpan := start.merge (← before)
  if ← eat .openParen then
    let args ← list .closeParen (sub 0)
    expect .closeParen
    return .call p pathSpan args (start.merge (← before))
  else if p.isQualified then return .path p pathSpan
  else return .var p.first pathSpan

/-- An expression that no operator joins to anything. -/
def primary (sub : Nat → Parse Expr) : Parse Expr := do
  let start ← here
  match ← peek with
  | some (.number x) =>
    advance
    return .num x start
  | some (.word .trueWord) =>
    advance
    return .bool true start
  | some (.word .falseWord) =>
    advance
    return .bool false start
  | some (.mark .openParen) =>
    advance
    parenthesized sub start
  | some (.mark .openBracket) =>
    advance
    let elements ← list .closeBracket (sub 0)
    expect .closeBracket
    return .array elements (start.merge (← before))
  | some (.name _) => named sub start
  | _ =>
    report (.notAnExpression (← found))
    advance
    return .num 0 start

/-- The brackets after an expression. -/
def postfixLoop (sub : Nat → Parse Expr) : Nat → Expr → Parse Expr
  | 0, e => return e
  | fuel + 1, e => do
    if ← eat .openBracket then
      let first ← sub 0
      if ← eat .dotDot then
        let last ← sub 0
        expect .closeBracket
        postfixLoop sub fuel (.slice e first last (e.span.merge (← before)))
      else
        expect .closeBracket
        postfixLoop sub fuel (.index e first (e.span.merge (← before)))
    else return e

/-- An operand with the signs before it and the brackets after it. -/
def operand (sub : Nat → Parse Expr) : Parse Expr := do
  let start ← here
  match (← peek).bind unaryOf? with
  | some op =>
    advance
    let e ← sub UnaryOp.operandPower
    return .unary op e (start.merge e.span)
  | none =>
    let e ← primary sub
    postfixLoop sub (← remaining) e

/-- The operators of at least the strength `power` after an expression, with their right
operands. -/
def operatorLoop (sub : Nat → Parse Expr) (power : Nat) : Nat → Expr → Parse Expr
  | 0, left => return left
  | fuel + 1, left => do
    match (← peek).bind binaryOf? with
    | none => return left
    | some op =>
      if op.power < power then return left
      else
        advance
        let right ← sub op.rightPower
        operatorLoop sub power fuel (.binary op left right (left.span.merge right.span))

/-- An expression whose operators have at least the strength `power`, nested at most `levels`
deep. -/
def expr : Nat → Nat → Parse Expr
  | 0, _ => refuse (.num 0)
  | levels + 1, power =>
    deeper (levels + 1) (.num 0) do
      let left ← operand (expr levels)
      operatorLoop (expr levels) power (← remaining) left

/-! ## Statements -/

/-- The place that an expression before `=` names. -/
def placeOf (e : Expr) : Parse Place := do
  match e with
  | .var n s => return if n == "_" then .discard s else .var n s
  | .index (.var n s) i span => return .index ⟨n, s⟩ i span
  | _ =>
    reportAt .notAPlace e.span
    return .discard e.span

def pattern : Parse Pattern := do
  if ← eat .openParen then
    let names ← list .closeParen expectName
    expect .closeParen
    return .names names
  else return .name (← expectName)

def bindStmt (e : Parse Expr) : Parse Stmt := do
  let start ← here
  expectWord .letWord
  let target ← pattern
  expect .assign
  let init ← e
  return .bind target init (start.merge init.span)

/-- A conditional; `fuel` bounds the chain of `else if`, each of which stands in a block of its
own. -/
def branchStmt (e : Parse Expr) (b : Parse Block) (fuel : Nat) : Parse Stmt := do
  let start ← here
  expectWord .ifWord
  let condition ← e
  let yes ← b
  if ← eatWord .elseWord then
    if ← isAtWord .ifWord then
      match fuel with
      | 0 => return .branch condition yes none (start.merge (← before))
      | fuel + 1 =>
        let inner ← branchStmt e b fuel
        return .branch condition yes (some (.mk [inner] none inner.span)) (start.merge (← before))
    else
      let no ← b
      return .branch condition yes (some no) (start.merge (← before))
  else return .branch condition yes none (start.merge (← before))

def forStmt (e : Parse Expr) (b : Parse Block) : Parse Stmt := do
  let start ← here
  expectWord .forWord
  let counter ← expectName
  expectWord .inWord
  let first ← e
  expect .dotDot
  let last ← e
  let body ← b
  return .forRange counter first last body (start.merge (← before))

def whileStmt (e : Parse Expr) (b : Parse Block) : Parse Stmt := do
  let start ← here
  expectWord .whileWord
  let condition ← e
  let body ← b
  return .whileLoop condition body (start.merge (← before))

def giveStmt (e : Parse Expr) : Parse Stmt := do
  let start ← here
  expectWord .returnWord
  if (← isAt .closeBrace) || (← isAt .semicolon) || (← isAtEnd) then
    return .give none (start.merge (← before))
  else
    let value ← e
    return .give (some value) (start.merge (← before))

/-- An assignment, an expression for its effect, or, before a closing brace, the value of the
block. -/
def exprStmt (e : Parse Expr) : Parse (Stmt ⊕ Expr) := do
  let left ← e
  if ← isAt .closeBrace then return .inr left
  else if ← eat .assign then
    let value ← e
    let span := left.span.merge value.span
    match left with
    | .tuple elements _ => return .inl (.assignTuple (← elements.mapM placeOf) value span)
    | _ => return .inl (.assign (← placeOf left) value span)
  else return .inl (.eval left left.span)

/-- A statement, or the value of the block. -/
def stmt (e : Parse Expr) (b : Parse Block) : Parse (Stmt ⊕ Expr) := do
  match ← peek with
  | some (.word .letWord) => return .inl (← bindStmt e)
  | some (.word .ifWord) => return .inl (← branchStmt e b (← remaining))
  | some (.word .forWord) => return .inl (← forStmt e b)
  | some (.word .whileWord) => return .inl (← whileStmt e b)
  | some (.word .returnWord) => return .inl (← giveStmt e)
  | _ => exprStmt e

/-- The statements up to a closing brace, and the value of the block. -/
def stmtLoop (e : Parse Expr) (b : Parse Block) : Nat → Parse (List Stmt × Option Expr)
  | 0 => return ([], none)
  | fuel + 1 => do
    if (← isAt .closeBrace) || (← isAtEnd) then return ([], none)
    else if ← eat .semicolon then stmtLoop e b fuel
    else
      match ← stmt e b with
      | .inl s =>
        let (ss, tail) ← stmtLoop e b fuel
        return (s :: ss, tail)
      | .inr tail => return ([], some tail)

/-- A block nested at most `levels` deep. -/
def block : Nat → Parse Block
  | 0 => refuse (.mk [] none)
  | levels + 1 =>
    deeper (levels + 1) (.mk [] none) do
      let start ← here
      expect .openBrace
      let (stmts, tail) ← stmtLoop (expr levels 0) (block levels) (← remaining)
      let stop ← here
      expect .closeBrace
      return .mk stmts tail (start.merge stop)

/-! ## Items -/

/-- The markers before a function. -/
def markerLoop : Nat → Parse (List Ident)
  | 0 => return []
  | fuel + 1 => do
    if ← isAt .atSign then
      let start ← here
      advance
      let n ← expectName
      unless n.text == "fs" do reportAt (.unknownMarker n.text) n.span
      return ⟨n.text, start.merge n.span⟩ :: (← markerLoop fuel)
    else return []

/-- The parameters of a function after those in `seen`; a repeated one is reported. -/
def paramLoop : Nat → List Ident → Parse (List Ident)
  | 0, _ => return []
  | fuel + 1, seen => do
    if (← isAt .closeParen) || (← isAtEnd) then return []
    else
      let n ← expectName
      if seen.any fun p => p.text == n.text then reportAt (.repeatedParameter n.text) n.span
      if ← eat .comma then return n :: (← paramLoop fuel (n :: seen)) else return [n]

def definition (markers : List Ident) : Parse Definition := do
  expectWord .fnWord
  let name ← expectName
  expect .openParen
  let params ← paramLoop (← remaining) []
  expect .closeParen
  return { markers, name, params, body := ← block maxLevels }

/-- An item that starts at `start`, or nothing after a report. -/
def item (start : Span) (markers : List Ident) : Parse (Option Item) := do
  match ← peek with
  | some (.word .fnWord) =>
    let d ← definition markers
    return some (.function d (start.merge (← before)))
  | some (.word .useWord) =>
    expectWord .useWord
    let pathStart ← here
    let p ← path
    unless p.isQualified do report .unqualifiedUse
    let stop ← before
    return some (.import_ p (pathStart.merge stop) (start.merge stop))
  | some (.word .constWord) =>
    expectWord .constWord
    let name ← expectName
    expect .assign
    let value ← expr maxLevels 0
    return some (.constant name value (start.merge (← before)))
  | _ =>
    report (.notAnItem (← found))
    advance
    return none

def itemLoop : Nat → Parse (List Item)
  | 0 => return []
  | fuel + 1 => do
    if ← isAtEnd then return []
    else
      let start ← here
      let markers ← markerLoop (← remaining)
      if !markers.isEmpty && !(← isAtWord .fnWord) then report .strayMarker
      let read ← item start markers
      let _ ← eat .semicolon
      let more ← itemLoop fuel
      return read.toList ++ more

/-- Reads a list of tokens: the program, or everything that is wrong with it. -/
def tokens (lexemes : List Lexeme) (stop : Span) : Except (List Diagnostic) Program :=
  let start : Cursor := { rest := lexemes, stop }
  let (items, c) := (itemLoop lexemes.length).run start
  if c.reports.isEmpty then .ok ⟨items⟩ else .error c.reports.reverse

end Graft.Parse

namespace Graft.Program

/-- Reads a scanned text. A text with stray characters is not looked at any further. -/
def ofScan (s : Scan.Result) : Except (List Diagnostic) Program :=
  if s.diagnostics.isEmpty then Parse.tokens s.tokens s.stop else .error s.diagnostics

/-- Reads a source text: the program, or everything that is wrong with it. -/
def parse (source : String) : Except (List Diagnostic) Program := ofScan (Scan.text source)

end Graft.Program
