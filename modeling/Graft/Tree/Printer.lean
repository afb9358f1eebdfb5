import Graft.Tree.Basic
import Graft.Decimal.Shortest

/-!
# Printing trees

A tree is printed in one canonical layout: four spaces a level, one statement a line, and only the
parentheses without which the text would be read as another tree. A semicolon follows a statement
whose expression would otherwise go on into the next line.
-/

namespace Graft

/-- Texts joined by commas. -/
def commaText (texts : List String) : String := String.intercalate ", " texts

/-- The text in parentheses if `needed`. -/
def parenthesize (needed : Bool) (text : String) : String :=
  if needed then "(" ++ text ++ ")" else text

/-- A number as it is written in a program: the library's names for what no literal denotes. -/
def numberText (x : Float) : String :=
  if x.isNaN then "math.nan"
  else if x.isInf then if Decimal.negative x then "-math.inf" else "math.inf"
  else Decimal.render x

namespace Expr

/-- Whether an operand of an operator of strength `power` needs parentheses; `tight` is the side on
which an operator of the same strength needs them too. -/
def needsParens (power : Nat) (tight : Bool) : Expr → Bool
  | .binary op _ _ _ => op.power < power || (tight && op.power == power)
  | .unary .. => UnaryOp.operandPower < power
  | _ => false

/-- Whether the operand of a sign needs parentheses. -/
def needsParensSigned : Expr → Bool
  | .binary op _ _ _ => op.power < UnaryOp.operandPower
  | _ => false

/-- Whether what is indexed needs parentheses. -/
def needsParensIndexed : Expr → Bool
  | .binary .. | .unary .. => true
  | _ => false

/-- The expression on one line. -/
def text : Expr → String
  | .num x _ => numberText x
  | .bool b _ => if b then "true" else "false"
  | .var n _ => n
  | .path p _ => p.dotted
  | .binary op l r _ =>
    let rightGrouping := op == .pow
    parenthesize (l.needsParens op.power rightGrouping) l.text ++ " " ++ op.text ++ " " ++
      parenthesize (r.needsParens op.power (!rightGrouping)) r.text
  | .unary op e _ => op.text ++ parenthesize e.needsParensSigned e.text
  | .call c _ args _ => c.dotted ++ "(" ++ commaText (texts args) ++ ")"
  | .index e i _ => parenthesize e.needsParensIndexed e.text ++ "[" ++ i.text ++ "]"
  | .slice e a b _ =>
    parenthesize e.needsParensIndexed e.text ++ "[" ++ a.text ++ ".." ++ b.text ++ "]"
  | .array es _ => "[" ++ commaText (texts es) ++ "]"
  | .tuple [e] _ => "(" ++ e.text ++ ",)"
  | .tuple es _ => "(" ++ commaText (texts es) ++ ")"
where
  texts : List Expr → List String
    | [] => []
    | e :: es => e.text :: texts es

/-- Whether the text of the expression starts with a token that could go on from an expression
before it. -/
def startsOpen : Expr → Bool
  | .tuple .. | .array .. => true
  | .unary .neg _ _ => true
  | .binary _ l _ _ => l.startsOpen
  | .index e _ _ => e.startsOpen
  | .slice e _ _ _ => e.startsOpen
  | _ => false

end Expr

def Place.text : Place → String
  | .var n _ => n
  | .discard _ => "_"
  | .index base i _ => base.text ++ "[" ++ i.text ++ "]"

def Pattern.text : Pattern → String
  | .name n => n.text
  | .names ns => "(" ++ commaText (ns.map Ident.text) ++ ")"

namespace Stmt

/-- Whether the text of the statement ends with an expression. -/
def endsWithExpr : Stmt → Bool
  | .bind .. | .assign .. | .assignTuple .. | .eval .. | .give (some _) _ => true
  | _ => false

/-- Whether the text of the statement starts with a token that could go on from an expression before
it. -/
def startsOpen : Stmt → Bool
  | .assignTuple .. => true
  | .eval e _ => e.startsOpen
  | _ => false

/-- Whether a semicolon has to stand between the statement and what follows it. -/
def needsSemicolon (s : Stmt) (rest : List Stmt) (tail : Option Expr) : Bool :=
  s.endsWithExpr &&
    match rest with
    | next :: _ => next.startsOpen
    | [] => tail.any Expr.startsOpen

end Stmt

/-- The blanks in front of a line. -/
def indentation (depth : Nat) : String := String.ofList (List.replicate (4 * depth) ' ')

/-- A block in braces, given the text of its statements on their lines. -/
def framed (depth : Nat) (lines : String) (tail : Option Expr) : String :=
  let last := match tail with
    | some e => indentation (depth + 1) ++ e.text ++ "\n"
    | none => ""
  if lines.isEmpty && last.isEmpty then "\x7b\x7d"
  else "\x7b\n" ++ lines ++ last ++ indentation depth ++ "\x7d"

mutual

/-- A statement that starts at the given depth, without the blanks in front of it. -/
def Stmt.text (depth : Nat) : Stmt → String
  | .bind target init _ => "let " ++ target.text ++ " = " ++ init.text
  | .assign place value _ => place.text ++ " = " ++ value.text
  | .assignTuple places value _ =>
    "(" ++ commaText (places.map Place.text) ++ ") = " ++ value.text
  | .branch c yes none _ => "if " ++ c.text ++ " " ++ Block.text depth yes
  | .branch c yes (some no) _ =>
    "if " ++ c.text ++ " " ++ Block.text depth yes ++ " else " ++ Block.elseText depth no
  | .forRange v a b body _ =>
    "for " ++ v.text ++ " in " ++ a.text ++ ".." ++ b.text ++ " " ++ Block.text depth body
  | .whileLoop c body _ => "while " ++ c.text ++ " " ++ Block.text depth body
  | .eval e _ => e.text
  | .give (some e) _ => "return " ++ e.text
  | .give none _ => "return"
  termination_by structural s => s

/-- A block whose closing brace stands at the given depth. -/
def Block.text (depth : Nat) : Block → String
  | .mk stmts tail _ => framed depth (Block.linesText (depth + 1) tail stmts) tail
  termination_by structural b => b

/-- The block after `else`: one that holds nothing but an `if` is printed as that. -/
def Block.elseText (depth : Nat) : Block → String
  | .mk [.branch c yes no s] none _ => Stmt.text depth (.branch c yes no s)
  | .mk stmts tail _ => framed depth (Block.linesText (depth + 1) tail stmts) tail
  termination_by structural b => b

/-- Statements on lines of their own; `tail` is what follows the last one. -/
def Block.linesText (depth : Nat) (tail : Option Expr) : List Stmt → String
  | [] => ""
  | s :: rest =>
    indentation depth ++ Stmt.text depth s ++ (if s.needsSemicolon rest tail then ";" else "") ++
      "\n" ++ Block.linesText depth tail rest
  termination_by structural ss => ss

end

namespace Definition

/-- The name and the parameters. -/
def signature (d : Definition) : String :=
  "fn " ++ d.name.text ++ "(" ++ commaText (d.params.map Ident.text) ++ ")"

/-- The whole definition, markers first, each on a line of its own. -/
def text (d : Definition) : String :=
  String.join (d.markers.map fun m => "@" ++ m.text ++ "\n") ++ d.signature ++ " " ++
    d.body.text 0 ++ "\n"

end Definition

namespace Item

def isFunction : Item → Bool
  | .function .. => true
  | _ => false

def text : Item → String
  | .import_ p _ _ => "use " ++ p.dotted ++ "\n"
  | .constant n e _ => "const " ++ n.text ++ " = " ++ e.text ++ "\n"
  | .function d _ => d.text

end Item

namespace Program

/-- Items after another one: an empty line stands on both sides of a function. -/
def textAfter : Item → List Item → String
  | _, [] => ""
  | before, item :: rest =>
    (if item.isFunction || before.isFunction then "\n" else "") ++ item.text ++
      textAfter item rest

def text (p : Program) : String :=
  match p.items with
  | [] => ""
  | item :: rest => item.text ++ textAfter item rest

end Program

end Graft
