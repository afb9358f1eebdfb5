import Graft.Fault
import Graft.Native.Basic

/-!
# Evaluation

The meaning of expressions, statements and blocks, by recursion on the tree. What lies outside a
function comes in as a `Scope`: the value of a name that is not local, and what a call does. The
same evaluator thus serves a program as it is, a program under substitutions, and any other reading
of its calls.

Names are looked up late, when the run comes to them. Only `while` loops take fuel.
-/

namespace Graft

/-- The local variables of one call. -/
abbrev Locals := List (String × Value)

namespace Locals

def get? (name : String) : Locals → Option Value
  | [] => none
  | (n, v) :: rest => if n = name then some v else get? name rest

/-- Binds a name, in its place if it is bound. -/
def set (name : String) (v : Value) : Locals → Locals
  | [] => [(name, v)]
  | (n, w) :: rest => if n = name then (n, v) :: rest else (n, w) :: set name v rest

def setAll (locals : Locals) (names : List String) (vs : List Value) : Locals :=
  (names.zip vs).foldl (fun l (n, v) => set n v l) locals

@[simp] theorem get?_set_self (name : String) (v : Value) (l : Locals) :
    get? name (set name v l) = some v := by
  induction l with
  | nil => simp [set, get?]
  | cons p rest ih =>
    obtain ⟨n, w⟩ := p
    by_cases h : n = name <;> simp [set, get?, h, ih]

@[simp] theorem get?_set_of_ne {name other : String} (h : other ≠ name) (v : Value)
    (l : Locals) : get? other (set name v l) = get? other l := by
  induction l with
  | nil => simp [set, get?, h.symm]
  | cons p rest ih =>
    obtain ⟨n, w⟩ := p
    by_cases hn : n = name
    · subst hn; simp [set, get?, h.symm]
    · by_cases ho : n = other
      · subst ho; simp [set, get?, h]
      · simp [set, get?, hn, ho, ih]

end Locals

/-- What a function body sees of the world around it. -/
structure Scope (σ : Type) where
  /-- The value of a name that is not local, for the expression at `span`. -/
  outer : String → Span → Run σ Value
  /-- Calls what a path, written at `span`, names. -/
  call : Path → List Value → Span → Run σ Value

/-- A step of a function body: it reads and writes the local variables. -/
abbrev Eval (σ : Type) := StateT Locals (Run σ)

/-- How a statement ends: the next one follows, or the function gives a value. -/
inductive Flow where
  | next
  | give (v : Value)
  deriving Inhabited

namespace Eval

variable {σ α : Type}

/-- An operation on values, whose report belongs to `span`. -/
def at_ (span : Span) (o : Outcome α) : Eval σ α :=
  match o with
  | .ok a => pure a
  | .error d => throw (.report (d.orSpan span))

/-- Runs `body` for `count` successive values of the counter, until one gives a value. -/
def forLoop (name : String) (body : Eval σ Flow) :
    Nat → Int → Locals → σ → Except Fault (Flow × Locals) × σ
  | 0, _, locals, s => (.ok (.next, locals), s)
  | count + 1, i, locals, s =>
    match body (locals.set name (.num (Float.ofInt i))) s with
    | (.ok (.next, locals), s) => forLoop name body count (i + 1) locals s
    | r => r

/-- Runs `body` as long as `test` holds, until one gives a value. -/
def whileLoop (test : Eval σ Bool) (body : Eval σ Flow) :
    Nat → Locals → σ → Except Fault (Flow × Locals) × σ
  | 0, _, s => (.error .exhausted, s)
  | fuel + 1, locals, s =>
    match test locals s with
    | (.error e, s) => (.error e, s)
    | (.ok (false, locals), s) => (.ok (.next, locals), s)
    | (.ok (true, locals), s) =>
      match body locals s with
      | (.ok (.next, locals), s) => whileLoop test body fuel locals s
      | r => r

end Eval

/-! ## What can be wrong -/

def Path.notConstant (p : Path) (span : Span) : Diagnostic :=
  (Diagnostic.of .name ("`" ++ p.dotted ++ "` is not a library constant")).locate span

def Path.unknown (p : Path) (span : Span) : Diagnostic :=
  (Diagnostic.of .name ("unknown path `" ++ p.dotted ++ "`")).locate span

/-- The constant of a library module that a path names. -/
def Path.constant? (p : Path) (span : Span) : Outcome Value :=
  match p.rest with
  | [name] =>
    match Native.constant? p.first name with
    | some v => .ok v
    | none => .error (p.notConstant span)
  | _ => .error (p.unknown span)

/-! ## Expressions -/

namespace Expr

variable {σ : Type}

/-- The value of an expression. Operands are evaluated from left to right, and a logical operator
evaluates its right operand only if the left one does not decide. -/
def eval (scope : Scope σ) : Expr → Eval σ Value
  | .num x _ => pure (.num x)
  | .bool b _ => pure (.bool b)
  | .var n s => do
    match (← get).get? n with
    | some v => pure v
    | none => scope.outer n s
  | .path p s => Eval.at_ s (p.constant? s)
  | .binary .and l r _ => do
    if ← Eval.at_ l.span (← l.eval scope).asBool then
      return .bool (← Eval.at_ r.span (← r.eval scope).asBool)
    else return .bool false
  | .binary .or l r _ => do
    if ← Eval.at_ l.span (← l.eval scope).asBool then return .bool true
    else return .bool (← Eval.at_ r.span (← r.eval scope).asBool)
  | .binary op l r s => do
    let a ← l.eval scope
    let b ← r.eval scope
    Eval.at_ s (Value.binary op a b)
  | .unary op e s => do Eval.at_ s (Value.unary op (← e.eval scope))
  | .call callee calleeSpan args s => do
    let values ← evalAll scope args
    Run.orSpan s (scope.call callee values calleeSpan)
  | .index e i s => do
    let base ← e.eval scope
    let n ← Eval.at_ i.span (← i.eval scope).asIndex
    Eval.at_ s (base.index n)
  | .slice e a b s => do
    let base ← e.eval scope
    let first ← Eval.at_ a.span (← a.eval scope).asIndex
    let last ← Eval.at_ b.span (← b.eval scope).asIndex
    Eval.at_ s (base.slice first last)
  | .array es _ => do return .array (← evalNumbers scope es).toArray
  | .tuple es _ => do return .tuple (← evalAll scope es)
where
  evalAll (scope : Scope σ) : List Expr → Eval σ (List Value)
    | [] => pure []
    | e :: es => do
      let v ← e.eval scope
      return v :: (← evalAll scope es)
  evalNumbers (scope : Scope σ) : List Expr → Eval σ (List Float)
    | [] => pure []
    | e :: es => do
      let x ← Eval.at_ e.span (← e.eval scope).asNum
      return x :: (← evalNumbers scope es)

/-- The value of a condition. -/
def test (scope : Scope σ) (e : Expr) : Eval σ Bool := do
  Eval.at_ e.span (← e.eval scope).asBool

end Expr

/-! ## Statements -/

variable {σ : Type}

/-- Stores a value. An array that is not local becomes so before an element of it changes. -/
def Place.assign (scope : Scope σ) (place : Place) (v : Value) : Eval σ Unit := do
  match place with
  | .var n _ => modify (Locals.set n v)
  | .discard _ => pure ()
  | .index base i s =>
    let n ← Eval.at_ i.span (← i.eval scope).asIndex
    let current ← match (← get).get? base.text with
      | some w => pure w
      | none =>
        let w ← scope.outer base.text base.span
        modify (Locals.set base.text w)
        pure w
    let stored ← Eval.at_ s (current.store n v)
    modify (Locals.set base.text stored)

/-- Stores values one after another. -/
def Place.assignAll (scope : Scope σ) : List Place → List Value → Eval σ Unit
  | p :: ps, v :: vs => do
    p.assign scope v
    assignAll scope ps vs
  | _, _ => pure ()

mutual

/-- Runs a statement; `fuel` bounds every `while` loop. -/
def Stmt.exec (scope : Scope σ) (fuel : Nat) : Stmt → Eval σ Flow
  | .bind (.name n) e _ => do
    let v ← e.eval scope
    modify (Locals.set n.text v)
    return .next
  | .bind (.names ns) e s => do
    let parts ← Eval.at_ s ((← e.eval scope).unpack ns.length)
    modify fun l => l.setAll (ns.map Ident.text) parts
    return .next
  | .assign p e _ => do
    let v ← e.eval scope
    p.assign scope v
    return .next
  | .assignTuple ps e s => do
    let parts ← Eval.at_ s ((← e.eval scope).unpack ps.length)
    Place.assignAll scope ps parts
    return .next
  | .branch c yes none _ => do
    if ← c.test scope then Block.exec scope fuel yes else return .next
  | .branch c yes (some no) _ => do
    if ← c.test scope then Block.exec scope fuel yes else Block.exec scope fuel no
  | .forRange v a b body _ => do
    let first ← Eval.at_ a.span (← a.eval scope).asIndex
    let last ← Eval.at_ b.span (← b.eval scope).asIndex
    Eval.forLoop v.text (Block.exec scope fuel body) (last - first).toNat first
  | .whileLoop c body _ => Eval.whileLoop (c.test scope) (Block.exec scope fuel body) fuel
  | .eval e _ => do
    let _ ← e.eval scope
    return .next
  | .give (some e) _ => do return .give (← e.eval scope)
  | .give none _ => return .give .unit
  termination_by structural s => s

/-- Runs a block inside a function; the value of its last expression is dropped. -/
def Block.exec (scope : Scope σ) (fuel : Nat) : Block → Eval σ Flow
  | .mk stmts tail _ => do
    match ← Block.execAll scope fuel stmts with
    | .give v => return .give v
    | .next =>
      match tail with
      | some e =>
        let _ ← e.eval scope
        return .next
      | none => return .next
  termination_by structural b => b

def Block.execAll (scope : Scope σ) (fuel : Nat) : List Stmt → Eval σ Flow
  | [] => return .next
  | s :: ss => do
    match ← Stmt.exec scope fuel s with
    | .give v => return .give v
    | .next => Block.execAll scope fuel ss
  termination_by structural ss => ss

end

/-- The value of a function body. -/
def Block.value (scope : Scope σ) (fuel : Nat) (b : Block) : Eval σ Value := do
  match ← Block.execAll scope fuel b.stmts with
  | .give v => return v
  | .next =>
    match b.tail with
    | some e => e.eval scope
    | none => return .unit

namespace Definition

def wrongArity (d : Definition) (given : Nat) : Diagnostic :=
  (Diagnostic.of .type
    ("`" ++ d.name.text ++ s!"` takes {d.params.length} argument(s), {given} given")).locate
    d.name.span

/-- The value of a function on as many arguments as it has parameters. -/
def value (d : Definition) (scope : Scope σ) (fuel : Nat) (args : List Value) : Run σ Value := do
  let locals := Locals.setAll [] (d.params.map Ident.text) args
  return (← (d.body.value scope fuel).run locals).1

end Definition

end Graft
