import Graft.Diagnostic
import Graft.Decimal.Reading
import Graft.Text.Blank

/-!
# Settings

How specializations are made. Settings are read from the section `engine` of a file of lines
`key = value`; a `#` starts a comment, and other sections are skipped.
-/

namespace Graft

/-- Where a pass puts the functions that it makes. -/
inductive Isolation where
  /-- Into a table of its own. -/
  | separate
  /-- Into the namespaces, which are restored afterwards. -/
  | shared
  deriving DecidableEq, Repr

def Isolation.text : Isolation → String
  | .separate => "private"
  | .shared => "shared"

structure Settings where
  isolation : Isolation := .separate
  /-- Whether finished specializations are kept. -/
  cache : Bool := true
  parallel : Bool := true
  /-- Whether passes are traced. -/
  debug : Bool := false
  /-- Whether an override without a call site is refused. -/
  strictOverrides : Bool := false
  /-- How deep calls may be nested. -/
  maxRecursion : Nat := 1000
  deriving DecidableEq, Repr, Inhabited

namespace Settings

/-- The name of the file that settings are read from. -/
def fileName : String := "fastats.toml"

/-- The environment variable that turns tracing on or off. -/
def debugVariable : String := "FASTATS_DEBUG"

inductive Problem where
  | noEquation (line : String)
  | unknownIsolation (word : String)
  | notBool (key word : String)
  | notCount (word : String)
  | unknownKey (key : String)
  deriving DecidableEq, Repr

namespace Problem

def message : Problem → String
  | .noEquation line => "expected `key = value`, found '" ++ line ++ "'"
  | .unknownIsolation word => "unknown isolation mode '" ++ word ++ "'"
  | .notBool key word => key ++ " must be true or false, found '" ++ word ++ "'"
  | .notCount word => "max_recursion must be a positive integer, found '" ++ word ++ "'"
  | .unknownKey key => "unknown key '" ++ key ++ "' in [engine]"

def help : Problem → Option String
  | .unknownIsolation _ => some "use \"private\" or \"shared\""
  | .unknownKey _ =>
    some "known keys: isolation, cache, parallel, debug, strict_overrides, max_recursion"
  | _ => none

/-- The report on a line, which is counted from one. -/
def report (p : Problem) (line : Nat) : Diagnostic :=
  { kind := .malformed, message := fileName ++ s!": line {line}: " ++ p.message, span := .dummy,
    help := p.help }

end Problem

/-- A count in decimal digits, below `2 ^ 64`, with an optional plus sign. -/
def count? (cs : List Char) : Option Nat :=
  let digits := match cs with
    | '+' :: rest => rest
    | cs => cs
  if digits.isEmpty || !digits.all Char.isDigit then none
  else
    let n := Decimal.digitsValue digits
    if n < 0x10000000000000000 then some n else none

def bool? (word : String) : Option Bool :=
  if word = "true" then some true else if word = "false" then some false else none

def isQuote (c : Char) : Bool := c == '"'

/-- The settings with one of them changed. -/
def set (s : Settings) (key : String) (value : List Char) : Except Problem Settings :=
  let word := String.ofList value
  let flag (change : Bool → Settings) : Except Problem Settings :=
    match bool? word with
    | some b => .ok (change b)
    | none => .error (.notBool key word)
  match key with
  | "isolation" =>
    match String.ofList (trimWhere isQuote value) with
    | "private" => .ok { s with isolation := .separate }
    | "shared" => .ok { s with isolation := .shared }
    | other => .error (.unknownIsolation other)
  | "cache" => flag fun b => { s with cache := b }
  | "parallel" => flag fun b => { s with parallel := b }
  | "debug" => flag fun b => { s with debug := b }
  | "strict_overrides" => flag fun b => { s with strictOverrides := b }
  | "max_recursion" =>
    match count? value with
    | some n => .ok { s with maxRecursion := n }
    | none => .error (.notCount word)
  | other => .error (.unknownKey other)

/-- What one line of a settings file says. -/
inductive Line where
  | empty
  | section_ (name : String)
  | text (content : List Char)
  deriving DecidableEq, Repr

/-- Reads a line without its comment. -/
def Line.of (line : List Char) : Line :=
  let content := trimBlank (line.takeWhile (· != '#'))
  if content.isEmpty then .empty
  else if content.head? = some '[' ∧ content.getLast? = some ']' then
    .section_ (String.ofList (trimBlank (content.drop 1).dropLast))
  else .text content

/-- Takes a line of the section `engine` into the settings. -/
def setLine (s : Settings) (content : List Char) : Except Problem Settings :=
  match cutAtChar? '=' content with
  | none => .error (.noEquation (String.ofList content))
  | some (key, value) =>
    s.set (String.ofList (trimWhere isQuote (trimBlank key))) (trimBlank value)

/-- Takes the lines from number `n` on into the settings; `active` tells whether they stand in the
section `engine`. -/
def setLines (s : Settings) (active : Bool) (n : Nat) :
    List (List Char) → Except Diagnostic Settings
  | [] => .ok s
  | line :: rest =>
    match Line.of line with
    | .empty => setLines s active (n + 1) rest
    | .section_ name => setLines s (name == "engine") (n + 1) rest
    | .text content =>
      if active then
        match s.setLine content with
        | .ok s => setLines s active (n + 1) rest
        | .error p => .error (p.report n)
      else setLines s active (n + 1) rest

/-- Reads the text of a settings file. -/
def parse (text : String) : Except Diagnostic Settings :=
  setLines {} false 1 (splitAtChar '\n' text.toList)

/-- The settings under an environment in which `FASTATS_DEBUG` has the given value, if any. -/
def withDebugVariable (s : Settings) (value : Option String) : Settings :=
  match value with
  | none => s
  | some v =>
    { s with debug := ["1", "true", "yes"].contains (String.ofList (trimBlank v.toList)) }

end Settings

end Graft
