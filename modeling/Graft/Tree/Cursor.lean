import Graft.Token.Basic
import Graft.Diagnostic

/-!
# Reading along a list of tokens

A cursor stands between two tokens of a text. It remembers the place of the token behind it, what
was reported so far, and how many levels of nesting were refused. The end of the text is no token:
stepping there leaves the cursor where it is.
-/

namespace Graft

/-- What can be wrong with the order of tokens. -/
inductive Parse.Problem where
  | tooDeep
  | unknownMarker (name : String)
  | strayMarker
  | notAnItem (found : String)
  | unqualifiedUse
  | expected (what found : String)
  | danglingDot
  | repeatedParameter (name : String)
  | notAnExpression (found : String)
  | notAPlace
  deriving DecidableEq, Repr

namespace Parse

namespace Problem

def message : Problem → String
  | .tooDeep => "nesting depth exceeded (maximum 256 levels)"
  | .unknownMarker name => "unknown marker `@" ++ name ++ "`"
  | .strayMarker => "markers are only allowed on functions"
  | .notAnItem found => "expected item, found " ++ found
  | .unqualifiedUse => "`use` needs a qualified path"
  | .expected what found => "expected " ++ what ++ ", found " ++ found
  | .danglingDot => "expected identifier after '.'"
  | .repeatedParameter name => "duplicate parameter `" ++ name ++ "`"
  | .notAnExpression found => "expected expression, found " ++ found
  | .notAPlace => "invalid assignment target"

def help : Problem → Option String
  | .tooDeep => some "extract deeply nested code into separate functions"
  | .unknownMarker _ => some "the only function marker is `@fs`"
  | .notAnItem _ => some "top-level items must be `fn`, `const`, or `use` declarations"
  | .unqualifiedUse =>
    some "write the library module and the primitive, e.g. `use math.erf`"
  | .notAnExpression _ =>
    some "expressions start with a literal, a name, '(', '[', '-' or '!'"
  | .notAPlace => some "assign to a variable `x = ...` or an element `x[i] = ...`"
  | _ => none

def report (p : Problem) (span : Span) : Diagnostic :=
  { kind := .malformed, message := p.message, span, help := p.help }

end Problem

structure Cursor where
  /-- The tokens ahead. -/
  rest : List Lexeme
  /-- The place where the text ends. -/
  stop : Span
  /-- The place of the token behind, if there is one. -/
  behind : Option Span := none
  /-- How many levels of nesting were refused. -/
  refused : Nat := 0
  /-- What was reported, the latest first. -/
  reports : List Diagnostic := []
  deriving Repr

namespace Cursor

/-- The token ahead. -/
def peek (c : Cursor) : Option Token := c.rest.head?.map Lexeme.token

/-- The place of the token ahead. -/
def here (c : Cursor) : Span :=
  match c.rest with
  | l :: _ => l.span
  | [] => c.stop

/-- The place of the token behind; before the first token, that of the token ahead. -/
def before (c : Cursor) : Span := c.behind.getD c.here

/-- Steps over one token. -/
def advance (c : Cursor) : Cursor :=
  match c.rest with
  | l :: rest => { c with rest, behind := some l.span }
  | [] => c

/-- Steps over all tokens. -/
def skip (c : Cursor) : Cursor :=
  { c with rest := [], behind := (c.rest.getLast?.map Lexeme.span).or c.behind }

def report (c : Cursor) (p : Problem) (span : Span) : Cursor :=
  { c with reports := p.report span :: c.reports }

/-- How a report speaks of what is ahead. -/
def found (c : Cursor) : String :=
  match c.peek with
  | some t => t.description
  | none => "end of file"

def isAt (c : Cursor) (s : Symbol) : Bool :=
  match c.peek with
  | some (.mark t) => t == s
  | _ => false

def isAtWord (c : Cursor) (k : Keyword) : Bool :=
  match c.peek with
  | some (.word l) => l == k
  | _ => false

def isAtEnd (c : Cursor) : Bool := c.rest.isEmpty

theorem advance_rest (c : Cursor) : c.advance.rest = c.rest.tail := by
  cases h : c.rest <;> simp [advance, h]

end Cursor

end Parse

/-- A step of reading: it moves the cursor and gives what it read. It never fails; what is wrong is
reported, and reading goes on. -/
abbrev Parse := StateM Parse.Cursor

namespace Parse

def peek : Parse (Option Token) := return (← get).peek

def here : Parse Span := return (← get).here

def before : Parse Span := return (← get).before

def found : Parse String := return (← get).found

def isAt (s : Symbol) : Parse Bool := return (← get).isAt s

def isAtWord (k : Keyword) : Parse Bool := return (← get).isAtWord k

def isAtEnd : Parse Bool := return (← get).isAtEnd

/-- How many tokens are ahead: no loop that steps over a token each time runs more often. -/
def remaining : Parse Nat := return (← get).rest.length

def advance : Parse Unit := modify Cursor.advance

/-- Reports a problem at `span`. -/
def reportAt (p : Problem) (span : Span) : Parse Unit := modify fun c => c.report p span

/-- Reports a problem at the token ahead. -/
def report (p : Problem) : Parse Unit := modify fun c => c.report p c.here

/-- Steps over the mark `s` if it is ahead, and tells whether it was. -/
def eat (s : Symbol) : Parse Bool := do
  if ← isAt s then
    advance
    return true
  else return false

def eatWord (k : Keyword) : Parse Bool := do
  if ← isAtWord k then
    advance
    return true
  else return false

/-- Steps over the mark `s`; another token is reported and left. -/
def expect (s : Symbol) : Parse Unit := do
  unless ← eat s do report (.expected ("'" ++ s.text ++ "'") (← found))

def expectWord (k : Keyword) : Parse Unit := do
  unless ← eatWord k do report (.expected ("'" ++ k.text ++ "'") (← found))

/-- Steps over a name, if one is ahead. -/
def name? : Parse (Option Ident) := do
  match ← peek with
  | some (.name text) =>
    let span ← here
    advance
    return some ⟨text, span⟩
  | _ => return none

/-- Steps over a name; another token is reported and left, and a name that no text has stands for
it. -/
def expectName : Parse Ident := do
  match ← name? with
  | some n => return n
  | none =>
    report (.expected "identifier" (← found))
    return ⟨"_error_", ← here⟩

/-- The elements of a list separated by commas, up to the mark `close`, which is left ahead. -/
def listLoop (close : Symbol) (element : Parse α) : Nat → Parse (List α)
  | 0 => return []
  | fuel + 1 => do
    if (← isAt close) || (← isAtEnd) then return []
    else
      let x ← element
      if ← eat .comma then return x :: (← listLoop close element fuel) else return [x]

/-- A list separated by commas; a comma may follow the last element. -/
def list (close : Symbol) (element : Parse α) : Parse (List α) := do
  listLoop close element (← remaining)

/-- Refuses to go one level deeper: reports it and gives up the rest of the text. -/
def refuse (stub : Span → α) : Parse α := do
  report .tooDeep
  let span ← here
  modify fun c => { c.skip with refused := c.refused + 1 }
  return stub span

/-- Goes one level deeper if one of the `levels` is left. A level once refused counts as taken for
good. -/
def deeper (levels : Nat) (stub : Span → α) (body : Parse α) : Parse α := do
  if levels ≤ (← get).refused then refuse stub else body

end Parse

end Graft
