import Graft.Span

/-!
# Trees

The tree of a source text: expressions, statements, blocks and items. Every node carries the span of
the text that it was read from. `erase` forgets all spans, so two trees are the same program in
different layouts when their erasures are equal.
-/

namespace Graft

/-- A name, or names joined by dots. There is always a first one. -/
structure Path where
  first : String
  rest : List String := []
  deriving DecidableEq, Repr, Inhabited

namespace Path

/-- The names in order. -/
def parts (p : Path) : List String := p.first :: p.rest

/-- The path as written. -/
def dotted (p : Path) : String := String.intercalate "." p.parts

/-- Whether the path has more than one name. -/
def isQualified (p : Path) : Bool := !p.rest.isEmpty

/-- The name of a path of one name. -/
def single? (p : Path) : Option String := if p.rest.isEmpty then some p.first else none

theorem single?_eq_some {p : Path} {n : String} : p.single? = some n ↔ p = ⟨n, []⟩ := by
  obtain ⟨f, r⟩ := p
  cases r <;> simp [single?]

end Path

/-- Operators between two operands. -/
inductive BinaryOp where
  | or
  | and
  | eq
  | ne
  | lt
  | le
  | gt
  | ge
  | add
  | sub
  | mul
  | div
  | rem
  | pow
  deriving DecidableEq, Repr

namespace BinaryOp

def text : BinaryOp → String
  | .or => "||"
  | .and => "&&"
  | .eq => "=="
  | .ne => "!="
  | .lt => "<"
  | .le => "<="
  | .gt => ">"
  | .ge => ">="
  | .add => "+"
  | .sub => "-"
  | .mul => "*"
  | .div => "/"
  | .rem => "%"
  | .pow => "**"

/-- How strongly an operator holds its left operand. -/
def power : BinaryOp → Nat
  | .or => 2
  | .and => 4
  | .eq | .ne => 6
  | .lt | .le | .gt | .ge => 8
  | .add | .sub => 10
  | .mul | .div | .rem => 12
  | .pow => 17

/-- The weakest operator that the right operand may contain: only powers group to the right. -/
def rightPower (op : BinaryOp) : Nat :=
  match op with
  | .pow => 16
  | _ => op.power + 1

end BinaryOp

/-- Operators before one operand. -/
inductive UnaryOp where
  | neg
  | not
  deriving DecidableEq, Repr

namespace UnaryOp

def text : UnaryOp → String
  | .neg => "-"
  | .not => "!"

/-- The weakest operator that the operand may contain: a power binds tighter than a sign. -/
def operandPower : Nat := 14

end UnaryOp

inductive Expr where
  | num (x : Float) (span : Span)
  | bool (b : Bool) (span : Span)
  | var (name : String) (span : Span)
  /-- A constant of a library module, such as `math.pi`. -/
  | path (p : Path) (span : Span)
  | binary (op : BinaryOp) (left right : Expr) (span : Span)
  | unary (op : UnaryOp) (operand : Expr) (span : Span)
  | call (callee : Path) (calleeSpan : Span) (args : List Expr) (span : Span)
  | index (base at_ : Expr) (span : Span)
  | slice (base from_ to_ : Expr) (span : Span)
  | array (elements : List Expr) (span : Span)
  | tuple (elements : List Expr) (span : Span)
  deriving Repr, Inhabited

namespace Expr

def span : Expr → Span
  | num _ s | bool _ s | var _ s | path _ s | binary _ _ _ s | unary _ _ s | call _ _ _ s
  | index _ _ s | slice _ _ _ s | array _ s | tuple _ s => s

/-- The expression with another span; its parts keep theirs. -/
def withSpan (span : Span) : Expr → Expr
  | num x _ => num x span
  | bool b _ => bool b span
  | var n _ => var n span
  | path p _ => path p span
  | binary op l r _ => binary op l r span
  | unary op e _ => unary op e span
  | call c s es _ => call c s es span
  | index e i _ => index e i span
  | slice e a b _ => slice e a b span
  | array es _ => array es span
  | tuple es _ => tuple es span

/-- The expression without any span. -/
def erase : Expr → Expr
  | num x _ => num x .dummy
  | bool b _ => bool b .dummy
  | var n _ => var n .dummy
  | path p _ => path p .dummy
  | binary op l r _ => binary op l.erase r.erase .dummy
  | unary op e _ => unary op e.erase .dummy
  | call c _ es _ => call c .dummy (eraseAll es) .dummy
  | index e i _ => index e.erase i.erase .dummy
  | slice e a b _ => slice e.erase a.erase b.erase .dummy
  | array es _ => array (eraseAll es) .dummy
  | tuple es _ => tuple (eraseAll es) .dummy
where
  eraseAll : List Expr → List Expr
    | [] => []
    | e :: es => e.erase :: eraseAll es

end Expr

/-- What an assignment stores into. -/
inductive Place where
  | var (name : String) (span : Span)
  /-- The place `_` of a tuple assignment: the value is dropped. -/
  | discard (span : Span)
  | index (base : Ident) (at_ : Expr) (span : Span)
  deriving Repr, Inhabited

namespace Place

def span : Place → Span
  | var _ s | discard s | index _ _ s => s

def erase : Place → Place
  | var n _ => var n .dummy
  | discard _ => discard .dummy
  | index base i _ => index ⟨base.text, .dummy⟩ i.erase .dummy

end Place

/-- What a `let` binds. -/
inductive Pattern where
  | name (n : Ident)
  | names (ns : List Ident)
  deriving DecidableEq, Repr

namespace Pattern

def idents : Pattern → List Ident
  | name n => [n]
  | names ns => ns

def erase : Pattern → Pattern
  | name n => name ⟨n.text, .dummy⟩
  | names ns => names (ns.map fun n => ⟨n.text, .dummy⟩)

end Pattern

mutual

inductive Stmt where
  | bind (target : Pattern) (init : Expr) (span : Span)
  | assign (place : Place) (value : Expr) (span : Span)
  | assignTuple (places : List Place) (value : Expr) (span : Span)
  | branch (condition : Expr) (yes : Block) (no : Option Block) (span : Span)
  | forRange (counter : Ident) (first last : Expr) (body : Block) (span : Span)
  | whileLoop (condition : Expr) (body : Block) (span : Span)
  | eval (e : Expr) (span : Span)
  | give (value : Option Expr) (span : Span)

/-- Statements, and the expression whose value is the value of the block. -/
inductive Block where
  | mk (stmts : List Stmt) (tail : Option Expr) (span : Span)

end

deriving instance Repr for Stmt, Block

instance : Inhabited Block := ⟨.mk [] none .dummy⟩

instance : Inhabited Stmt := ⟨.give none .dummy⟩

def Stmt.span : Stmt → Span
  | bind _ _ s | assign _ _ s | assignTuple _ _ s | branch _ _ _ s | forRange _ _ _ _ s
  | whileLoop _ _ s | eval _ s | give _ s => s

namespace Block

def stmts : Block → List Stmt
  | mk ss _ _ => ss

def tail : Block → Option Expr
  | mk _ t _ => t

def span : Block → Span
  | mk _ _ s => s

end Block

mutual

def Stmt.erase : Stmt → Stmt
  | .bind t e _ => .bind t.erase e.erase .dummy
  | .assign p e _ => .assign p.erase e.erase .dummy
  | .assignTuple ps e _ => .assignTuple (ps.map Place.erase) e.erase .dummy
  | .branch c y none _ => .branch c.erase y.erase none .dummy
  | .branch c y (some n) _ => .branch c.erase y.erase (some n.erase) .dummy
  | .forRange v a b body _ => .forRange ⟨v.text, .dummy⟩ a.erase b.erase body.erase .dummy
  | .whileLoop c body _ => .whileLoop c.erase body.erase .dummy
  | .eval e _ => .eval e.erase .dummy
  | .give v _ => .give (v.map Expr.erase) .dummy

def Block.erase : Block → Block
  | .mk ss t _ => .mk (Block.eraseAll ss) (t.map Expr.erase) .dummy

def Block.eraseAll : List Stmt → List Stmt
  | [] => []
  | s :: ss => s.erase :: Block.eraseAll ss

end

/-- A function as it is written. -/
structure Definition where
  /-- The words after `@` in front of it. -/
  markers : List Ident := []
  name : Ident
  params : List Ident
  body : Block
  deriving Repr, Inhabited

namespace Definition

/-- Whether the function has the marker `@name`. -/
def isMarked (d : Definition) (name : String) : Bool := d.markers.any fun m => m.text == name

def erase (d : Definition) : Definition :=
  let bare : Ident → Ident := fun n => ⟨n.text, .dummy⟩
  { markers := d.markers.map bare, name := bare d.name, params := d.params.map bare,
    body := d.body.erase }

end Definition

inductive Item where
  /-- Binds a primitive of a library module under its last name. -/
  | import_ (path : Path) (pathSpan : Span) (span : Span)
  | constant (name : Ident) (value : Expr) (span : Span)
  | function (d : Definition) (span : Span)
  deriving Repr, Inhabited

namespace Item

def span : Item → Span
  | import_ _ _ s | constant _ _ s | function _ s => s

def erase : Item → Item
  | import_ p _ _ => import_ p .dummy .dummy
  | constant n e _ => constant ⟨n.text, .dummy⟩ e.erase .dummy
  | function d _ => function d.erase .dummy

end Item

/-- The items of a source text, in order. -/
structure Program where
  items : List Item
  deriving Repr, Inhabited

namespace Program

def erase (p : Program) : Program := ⟨p.items.map Item.erase⟩

/-- The functions, in order. -/
def functions (p : Program) : List Definition :=
  p.items.filterMap fun
    | .function d _ => some d
    | _ => none

/-- The first function of that name. -/
def find? (p : Program) (name : String) : Option Definition :=
  p.functions.find? fun d => d.name.text == name

/-- Where among the items the first function of that name stands. -/
def index? (p : Program) (name : String) : Option Nat :=
  p.items.findIdx? fun
    | .function d _ => d.name.text == name
    | _ => false

end Program

end Graft
