import Graft.Tree.Parser

/-!
# Reading by position

The grammar as it is read with a position in a list of tokens that ends with the end of the text,
and with a counter of the levels of nesting that were entered and not left. Whatever could go wrong
is a crash of its own: a place outside the list, a counter lowered below zero, a loop that goes on
without having stepped over a token, a descent that does not end.
-/

namespace Graft.Parse

/-- A token, or the end of the text, and its place. -/
structure Slot where
  token : Option Token
  span : Span

/-- The tokens of a text and its end. -/
def slots (lexemes : List Lexeme) (stop : Span) : List Slot :=
  lexemes.map (fun l => ⟨some l.token, l.span⟩) ++ [⟨none, stop⟩]

/-- What must not happen. -/
inductive Crash where
  /-- A place outside the list of tokens was looked at. -/
  | outOfBounds
  /-- The counter of levels was lowered below zero. -/
  | underflow
  /-- A loop went on without having stepped over a token. -/
  | stalled
  /-- Expressions or blocks were entered without end. -/
  | endless

/-- The state of a reader. -/
structure Machine where
  tokens : List Slot
  position : Nat := 0
  /-- How many levels were entered and not left. -/
  depth : Nat := 0
  diagnostics : List Diagnostic := []
  /-- What `depth` was after each item. -/
  depths : List Nat := []

/-- How many tokens are ahead, the end of the text among them. -/
def Machine.left (m : Machine) : Nat := m.tokens.length - m.position

/-- Adds a report. -/
def Machine.log (m : Machine) (d : Diagnostic) : Machine :=
  { m with diagnostics := m.diagnostics ++ [d] }

/-- Counts a level that is entered. -/
def Machine.deepen (m : Machine) : Machine := { m with depth := m.depth + 1 }

/-- A step of reading by position. -/
abbrev Indexed := StateT Machine (Except Crash)

namespace Indexed

variable {α β σ : Type}

/-! ## Steps -/

def slot : Indexed Slot := do
  let m ← get
  match m.tokens[m.position]? with
  | some s => return s
  | none => throw .outOfBounds

def peek : Indexed (Option Token) := return (← slot).token

def here : Indexed Span := return (← slot).span

/-- The place of the token behind; before the first token, that of the token ahead. -/
def before : Indexed Span := do
  let m ← get
  if m.position = 0 then here
  else
    match m.tokens[m.position - 1]? with
    | some s => return s.span
    | none => throw .outOfBounds

/-- How a report speaks of what is ahead. -/
def found : Indexed String := do
  match ← peek with
  | some t => return t.description
  | none => return "end of file"

def isAt (s : Symbol) : Indexed Bool := do
  match ← peek with
  | some (.mark t) => return t == s
  | _ => return false

def isAtWord (k : Keyword) : Indexed Bool := do
  match ← peek with
  | some (.word l) => return l == k
  | _ => return false

def isAtEnd : Indexed Bool := return (← peek).isNone

/-- Steps over one token; the end of the text is not stepped over. -/
def advance : Indexed Unit := do
  let _ ← slot
  modify fun m =>
    if m.position + 1 < m.tokens.length then { m with position := m.position + 1 } else m

/-- Reports a problem at `span`. -/
def reportAt (p : Problem) (span : Span) : Indexed Unit :=
  modify fun m => m.log (p.report span)

/-- Reports a problem at the token ahead. -/
def report (p : Problem) : Indexed Unit := do reportAt p (← here)

/-- Steps over the mark `s` if it is ahead, and tells whether it was. -/
def eat (s : Symbol) : Indexed Bool := do
  if ← isAt s then
    advance
    return true
  else return false

def eatWord (k : Keyword) : Indexed Bool := do
  if ← isAtWord k then
    advance
    return true
  else return false

def expect (s : Symbol) : Indexed Unit := do
  unless ← eat s do report (.expected ("'" ++ s.text ++ "'") (← found))

def expectWord (k : Keyword) : Indexed Unit := do
  unless ← eatWord k do report (.expected ("'" ++ k.text ++ "'") (← found))

/-- Steps over a name, if one is ahead. -/
def name? : Indexed (Option Ident) := do
  match ← peek with
  | some (.name text) =>
    let span ← here
    advance
    return some ⟨text, span⟩
  | _ => return none

def expectName : Indexed Ident := do
  match ← name? with
  | some n => return n
  | none =>
    report (.expected "identifier" (← found))
    return ⟨"_error_", ← here⟩

/-- A loop: `body` is given a way to go on, which it may take only after stepping over a token. -/
def again (body : (σ → Indexed β) → σ → Indexed β) (s : σ) (m : Machine) :
    Except Crash (β × Machine) :=
  body (fun s' m' => if m'.left < m.left then again body s' m' else throw .stalled) s m
termination_by m.left

/-- Steps over all tokens. -/
def skip : Indexed Unit := again (fun next () => do
  if ← isAtEnd then return ()
  else
    advance
    next ()) ()

/-! ## Levels -/

/-- Enters a level, or reports that none is left. -/
def enter : Indexed Bool := do
  modify Machine.deepen
  if maxLevels < (← get).depth then
    report .tooDeep
    return false
  else return true

def leave : Indexed Unit := do
  match (← get).depth with
  | 0 => throw .underflow
  | outer + 1 => modify fun m => { m with depth := outer }

/-- Reads one level deeper. Where no level is left the rest of the text is given up, and the level
is not left again. -/
def nested (stub : Span → α) (body : Indexed α) : Indexed α := do
  if ← enter then
    let x ← body
    leave
    return x
  else
    let span ← here
    skip
    return stub span

/-! ## Expressions -/

/-- A list separated by commas, up to the mark `close`. -/
def list (close : Symbol) (element : Indexed α) : Indexed (List α) := again (fun next () => do
  if (← isAt close) || (← isAtEnd) then return []
  else
    let x ← element
    if ← eat .comma then return x :: (← next ()) else return [x]) ()

/-- The names after the first one of a path. -/
def names : Indexed (List String) := again (fun next () => do
  if ← eat .dot then
    match ← name? with
    | some n => return n.text :: (← next ())
    | none =>
      report .danglingDot
      return []
  else return []) ()

def path : Indexed Path := do
  let first ← expectName
  return ⟨first.text, ← names⟩

def parenthesized (sub : Nat → Indexed Expr) (start : Span) : Indexed Expr := do
  let first ← sub 0
  if ← eat .comma then
    let more ← list .closeParen (sub 0)
    expect .closeParen
    return .tuple (first :: more) (start.merge (← before))
  else
    expect .closeParen
    return first

def named (sub : Nat → Indexed Expr) (start : Span) : Indexed Expr := do
  let p ← path
  let pathSpan := start.merge (← before)
  if ← eat .openParen then
    let args ← list .closeParen (sub 0)
    expect .closeParen
    return .call p pathSpan args (start.merge (← before))
  else if p.isQualified then return .path p pathSpan
  else return .var p.first pathSpan

def primary (sub : Nat → Indexed Expr) : Indexed Expr := do
  let start ← here
  match ← peek with
  | some (.number x) =>
    advance
    return .num x start
  | some (.word .trueWord) =>
    advance
    return .bool true start
  | some (.word .falseWord) =>
    advance
    return .bool false start
  | some (.mark .openParen) =>
    advance
    parenthesized sub start
  | some (.mark .openBracket) =>
    advance
    let elements ← list .closeBracket (sub 0)
    expect .closeBracket
    return .array elements (start.merge (← before))
  | some (.name _) => named sub start
  | _ =>
    report (.notAnExpression (← found))
    advance
    return .num 0 start

/-- The brackets after an expression. -/
def postfixes (sub : Nat → Indexed Expr) (e : Expr) : Indexed Expr := again (fun next e => do
  if ← eat .openBracket then
    let first ← sub 0
    if ← eat .dotDot then
      let last ← sub 0
      expect .closeBracket
      next (.slice e first last (e.span.merge (← before)))
    else
      expect .closeBracket
      next (.index e first (e.span.merge (← before)))
  else return e) e

def operand (sub : Nat → Indexed Expr) : Indexed Expr := do
  let start ← here
  match (← peek).bind unaryOf? with
  | some op =>
    advance
    let e ← sub UnaryOp.operandPower
    return .unary op e (start.merge e.span)
  | none =>
    let e ← primary sub
    postfixes sub e

/-- The operators of at least the strength `power` after an expression, with their right
operands. -/
def operators (sub : Nat → Indexed Expr) (power : Nat) (left : Expr) : Indexed Expr :=
  again (fun next left => do
    match (← peek).bind binaryOf? with
    | none => return left
    | some op =>
      if op.power < power then return left
      else
        advance
        let right ← sub op.rightPower
        next (.binary op left right (left.span.merge right.span))) left

/-- An expression; `fuel` bounds the descent. -/
def expr : Nat → Nat → Indexed Expr
  | 0, _ => throw .endless
  | fuel + 1, power =>
    nested (.num 0) do
      let left ← operand (expr fuel)
      operators (expr fuel) power left

/-! ## Statements -/

def placeOf (e : Expr) : Indexed Place := do
  match e with
  | .var n s => return if n == "_" then .discard s else .var n s
  | .index (.var n s) i span => return .index ⟨n, s⟩ i span
  | _ =>
    reportAt .notAPlace e.span
    return .discard e.span

def pattern : Indexed Pattern := do
  if ← eat .openParen then
    let names ← list .closeParen expectName
    expect .closeParen
    return .names names
  else return .name (← expectName)

def bindStmt (e : Indexed Expr) : Indexed Stmt := do
  let start ← here
  expectWord .letWord
  let target ← pattern
  expect .assign
  let init ← e
  return .bind target init (start.merge init.span)

/-- A conditional, with the conditionals that follow each other after `else`. -/
def branchStmt (e : Indexed Expr) (b : Indexed Block) : Indexed Stmt := again (fun next () => do
  let start ← here
  expectWord .ifWord
  let condition ← e
  let yes ← b
  if ← eatWord .elseWord then
    if ← isAtWord .ifWord then
      let inner ← next ()
      return .branch condition yes (some (.mk [inner] none inner.span)) (start.merge (← before))
    else
      let no ← b
      return .branch condition yes (some no) (start.merge (← before))
  else return .branch condition yes none (start.merge (← before))) ()

def forStmt (e : Indexed Expr) (b : Indexed Block) : Indexed Stmt := do
  let start ← here
  expectWord .forWord
  let counter ← expectName
  expectWord .inWord
  let first ← e
  expect .dotDot
  let last ← e
  let body ← b
  return .forRange counter first last body (start.merge (← before))

def whileStmt (e : Indexed Expr) (b : Indexed Block) : Indexed Stmt := do
  let start ← here
  expectWord .whileWord
  let condition ← e
  let body ← b
  return .whileLoop condition body (start.merge (← before))

def giveStmt (e : Indexed Expr) : Indexed Stmt := do
  let start ← here
  expectWord .returnWord
  if (← isAt .closeBrace) || (← isAt .semicolon) || (← isAtEnd) then
    return .give none (start.merge (← before))
  else
    let value ← e
    return .give (some value) (start.merge (← before))

def exprStmt (e : Indexed Expr) : Indexed (Stmt ⊕ Expr) := do
  let left ← e
  if ← isAt .closeBrace then return .inr left
  else if ← eat .assign then
    let value ← e
    let span := left.span.merge value.span
    match left with
    | .tuple elements _ => return .inl (.assignTuple (← elements.mapM placeOf) value span)
    | _ => return .inl (.assign (← placeOf left) value span)
  else return .inl (.eval left left.span)

def stmt (e : Indexed Expr) (b : Indexed Block) : Indexed (Stmt ⊕ Expr) := do
  match ← peek with
  | some (.word .letWord) => return .inl (← bindStmt e)
  | some (.word .ifWord) => return .inl (← branchStmt e b)
  | some (.word .forWord) => return .inl (← forStmt e b)
  | some (.word .whileWord) => return .inl (← whileStmt e b)
  | some (.word .returnWord) => return .inl (← giveStmt e)
  | _ => exprStmt e

/-- The statements up to a closing brace, and the value of the block. -/
def stmts (e : Indexed Expr) (b : Indexed Block) : Indexed (List Stmt × Option Expr) :=
  again (fun next () => do
    if (← isAt .closeBrace) || (← isAtEnd) then return ([], none)
    else if ← eat .semicolon then next ()
    else
      match ← stmt e b with
      | .inl s =>
        let (ss, tail) ← next ()
        return (s :: ss, tail)
      | .inr tail => return ([], some tail)) ()

/-- A block; `fuel` bounds the descent. -/
def block : Nat → Indexed Block
  | 0 => throw .endless
  | fuel + 1 =>
    nested (.mk [] none) do
      let start ← here
      expect .openBrace
      let (ss, tail) ← stmts (expr fuel 0) (block fuel)
      let stop ← here
      expect .closeBrace
      return .mk ss tail (start.merge stop)

/-! ## Items -/

/-- The markers before a function. -/
def markers : Indexed (List Ident) := again (fun next () => do
  if ← isAt .atSign then
    let start ← here
    advance
    let n ← expectName
    unless n.text == "fs" do reportAt (.unknownMarker n.text) n.span
    return ⟨n.text, start.merge n.span⟩ :: (← next ())
  else return []) ()

/-- The parameters of a function; a repeated one is reported. -/
def params : Indexed (List Ident) := again (fun next seen => do
  if (← isAt .closeParen) || (← isAtEnd) then return []
  else
    let n ← expectName
    if seen.any fun p => p.text == n.text then reportAt (.repeatedParameter n.text) n.span
    if ← eat .comma then return n :: (← next (n :: seen)) else return [n]) []

/-- One level more than there are is looked at, to refuse it. -/
def definition (markers : List Ident) : Indexed Definition := do
  expectWord .fnWord
  let name ← expectName
  expect .openParen
  let params ← params
  expect .closeParen
  return { markers, name, params, body := ← block (maxLevels + 1) }

def item (start : Span) (markers : List Ident) : Indexed (Option Item) := do
  match ← peek with
  | some (.word .fnWord) =>
    let d ← definition markers
    return some (.function d (start.merge (← before)))
  | some (.word .useWord) =>
    expectWord .useWord
    let pathStart ← here
    let p ← path
    unless p.isQualified do report .unqualifiedUse
    let stop ← before
    return some (.import_ p (pathStart.merge stop) (start.merge stop))
  | some (.word .constWord) =>
    expectWord .constWord
    let name ← expectName
    expect .assign
    let value ← expr (maxLevels + 1) 0
    return some (.constant name value (start.merge (← before)))
  | _ =>
    report (.notAnItem (← found))
    advance
    return none

/-- An item with its markers. -/
def markedItem : Indexed (Option Item) := do
  let start ← here
  let ms ← markers
  if !ms.isEmpty && !(← isAtWord .fnWord) then report .strayMarker
  item start ms

/-- Notes how deep the reader is. -/
def note : Indexed Unit := modify fun m => { m with depths := m.depths ++ [m.depth] }

def items : Indexed (List Item) := again (fun next () => do
  if ← isAtEnd then return []
  else
    let read ← markedItem
    note
    let _ ← eat .semicolon
    let more ← next ()
    return read.toList ++ more) ()

/-- Reads all tokens of a text from the first one on. -/
def file (lexemes : List Lexeme) (stop : Span) : Except Crash (List Item × Machine) :=
  items { tokens := slots lexemes stop }

end Indexed

end Graft.Parse
