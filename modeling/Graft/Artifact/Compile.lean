import Graft.Calls
import Graft.Fault
import Graft.Evaluate
import Graft.Tree.Names

/-!
# Compilation

A function becomes an artifact: every local name gets a slot, and every other name is resolved now,
once and for all. Callees are compiled with it, each once, so a chain of calls that comes back to
its first function cannot be compiled.
-/

namespace Graft

/-- How a compilation finds what a name of a namespace is bound to. -/
structure Linker where
  lookup : NamespaceId → String → Option Global
  isLive : NamespaceId → Bool
  /-- No chain of distinct bound functions is longer. -/
  bound : Nat

namespace Compile

structure State where
  /-- The next free number for an artifact. -/
  nextId : Nat
  /-- The artifacts made so far, by the numbers of their functions. -/
  done : List (Nat × Artifact) := []

end Compile

abbrev Compile := StateT Compile.State (Except Fault)

/-- Compilation inside one function: the names that it calls are recorded. -/
abbrev Lower := StateT (List (String × Digest)) Compile

namespace Compile

def fail {α : Type} (d : Diagnostic) : Compile α := throw (.report d)

/-- What a call of a bare name is linked to. -/
inductive Target where
  | native (n : Native)
  | artifact (a : Artifact)

def Target.fingerprint : Target → Digest
  | .native n => n.fingerprint
  | .artifact a => a.fingerprint

def cycle (active : List (Nat × String)) (f : Function) : Diagnostic :=
  let names := (active.dropWhile fun entry => entry.1 ≠ f.id).map Prod.snd ++ [f.name]
  ((Diagnostic.of .unsupported
    ("cannot compile recursive call graph " ++ Calls.chain names)).locate f.nameSpan).withHelp
    "compiled code is statically linked; call it unspecialized instead"

def notLinkable (c : Callable) (span : Span) : Diagnostic :=
  (Diagnostic.of .unsupported ("cannot link " ++ c.describe ++ " into compiled code")).locate span

/-- The names with a slot: the parameters, and then every other name that the function binds or
whose elements it stores into. -/
def layout (d : Definition) : List String :=
  (d.boundNames ++ d.storedArrays).foldl
    (fun names n => if names.contains n then names else names ++ [n]) (d.params.map Ident.text)

/-- The place of a name among others, their number if it is not there. Of several places the last one
counts: a parameter that is repeated holds its last argument. -/
def slotOf (name : String) : List String → Nat
  | [] => 0
  | n :: rest => if n = name ∧ name ∉ rest then 0 else slotOf name rest + 1

/-- What lowering needs to know of the function around it. -/
structure Context where
  layout : List String
  capture? : String → Option Value
  global? : String → Option Global
  link : String → Span → Compile Target

namespace Context

/-- The slot of a name. -/
def slot (c : Context) (name : String) : Nat := slotOf name c.layout

/-- The value that a local name has before it is assigned: the outer one of that name. -/
def outer? (c : Context) (name : String) : Option Value :=
  match c.capture? name with
  | some v => some v
  | none =>
    match c.global? name with
    | some (.constant v) => some v
    | _ => none

end Context

def ofOutcome {α : Type} (o : Outcome α) : Lower α :=
  match o with
  | .ok a => pure a
  | .error d => throw (.report d)

/-- Records a callee, unless its name is there. -/
def record (name : String) (d : Digest) : Lower Unit :=
  modify fun callees => if Dictionary.contains name callees then callees else callees ++ [(name, d)]

/-- A name that is read. -/
def variable_ (c : Context) (name : String) (span : Span) : Outcome Code :=
  if c.layout.contains name then .ok (.slot (c.slot name) name (c.outer? name) span)
  else
    match c.capture? name with
    | some v => .ok (.constant v span)
    | none =>
      match c.global? name with
      | some (.constant v) => .ok (.constant v span)
      | some (.callable callee) => .error (Calls.notAValue callee span)
      | none => .error (Calls.undefinedName name span)

/-- What a path that is called stands for. A bare name is recorded as a callee. -/
def target (c : Context) (p : Path) (span : Span) : Lower Target := do
  match p.single? with
  | some name =>
    let t ← c.link name span
    record name t.fingerprint
    return t
  | none => return .native (← ofOutcome (Calls.member? p span))

end Compile

open Compile in
/-- The code of an expression. -/
def Expr.lower (c : Context) : Expr → Lower Code
  | .num x s => pure (.constant (.num x) s)
  | .bool b s => pure (.constant (.bool b) s)
  | .var n s => ofOutcome (variable_ c n s)
  | .path p s => do return .constant (← ofOutcome (p.constant? s)) s
  | .binary op l r s => do
    let left ← l.lower c
    let right ← r.lower c
    match op with
    | .and => return .logical false left right s
    | .or => return .logical true left right s
    | op => return .binary op left right s
  | .unary op e s => do return .unary op (← e.lower c) s
  | .call callee calleeSpan args s => do
    let t ← target c callee calleeSpan
    let codes ← lowerAll c args
    match t with
    | .native n => return .native n codes s
    | .artifact a => return .linked a codes s
  | .index e i s => do
    let base ← e.lower c
    return .index base (← i.lower c) s
  | .slice e a b s => do
    let base ← e.lower c
    let first ← a.lower c
    return .slice base first (← b.lower c) s
  | .array es s => do return .array (← lowerAll c es) s
  | .tuple es s => do return .tuple (← lowerAll c es) s
where
  lowerAll (c : Context) : List Expr → Lower (List Code)
    | [] => pure []
    | e :: es => do
      let code ← e.lower c
      return code :: (← lowerAll c es)

open Compile in
def Place.lower (c : Context) : Place → Lower Store
  | .var n _ => pure (.slot (c.slot n))
  | .discard _ => pure .discard
  | .index base i s => do
    return .element (c.slot base.text) base.text (c.outer? base.text) (← i.lower c) s

namespace Compile

def lowerPlaces (c : Context) : List Place → Lower (List Store)
  | [] => pure []
  | p :: ps => do
    let store ← p.lower c
    return store :: (← lowerPlaces c ps)

def lowerOption (c : Context) : Option Expr → Lower (Option Code)
  | none => pure none
  | some e => do return some (← e.lower c)

end Compile

open Compile in
mutual

def Stmt.lower (c : Context) : Stmt → Lower Step
  | .bind (.name n) e _ => do return .bind (c.slot n.text) (← e.lower c)
  | .bind (.names ns) e s => do return .bindAll (ns.map fun n => c.slot n.text) (← e.lower c) s
  | .assign p e _ => do
    let value ← e.lower c
    return .assign (← p.lower c) value
  | .assignTuple ps e s => do
    let value ← e.lower c
    return .assignAll (← lowerPlaces c ps) value s
  | .branch e yes none _ => do
    let condition ← e.lower c
    return .branch condition (← Block.lower c yes) none
  | .branch e yes (some no) _ => do
    let condition ← e.lower c
    let yes ← Block.lower c yes
    return .branch condition yes (some (← Block.lower c no))
  | .forRange v a b body _ => do
    let first ← a.lower c
    let last ← b.lower c
    return .forRange (c.slot v.text) first last (← Block.lower c body)
  | .whileLoop e body _ => do
    let condition ← e.lower c
    return .whileLoop condition (← Block.lower c body)
  | .eval e _ => do return .eval (← e.lower c)
  | .give v _ => do return .give (← lowerOption c v)
  termination_by structural s => s

/-- The steps of a block. -/
def Block.lower (c : Context) : Block → Lower Steps
  | .mk stmts tail _ => do
    let steps ← Block.lowerAll c stmts
    return .mk steps (← lowerOption c tail)
  termination_by structural b => b

def Block.lowerAll (c : Context) : List Stmt → Lower (List Step)
  | [] => pure []
  | s :: ss => do
    let step ← Stmt.lower c s
    return step :: (← Block.lowerAll c ss)
  termination_by structural ss => ss

end

namespace Compile

/-- Links a bare name that `f` calls; `callee` compiles a function. -/
def linkName (env : Linker) (callee : Function → Compile Artifact) (f : Function) (name : String)
    (span : Span) : Compile Target := do
  let compiled (g : Function) : Compile Target :=
    tryCatch (do return .artifact (← callee g)) fun e =>
      throw (e.map fun d => d.withNote ("while compiling `" ++ f.name ++ "`"))
  match env.lookup f.home name with
  | some (.callable (.native n)) => return .native n
  | some (.callable (.artifact a)) => return .artifact a
  | some (.callable (.function g)) => compiled g
  | some (.callable (.gateway g)) => compiled g.function
  | some (.callable c@(.bound ..)) => fail (notLinkable c span)
  | some (.constant v) => fail (Calls.notAFunction name v span)
  | none =>
    match Native.builtin? name with
    | some n => return .native n
    | none => fail (Calls.undefinedFunction name span)

/-- Compiles one function, given how to compile its callees. -/
def compileUnit (env : Linker) (callee : Function → Compile Artifact) (f : Function) :
    Compile Artifact := do
  unless env.isLive f.home do fail (homeGone.orSpan f.nameSpan)
  let names := layout f.definition
  let context : Context :=
    { layout := names
      capture? := fun name => Dictionary.get? name f.captures
      global? := env.lookup f.home
      link := linkName env callee f }
  let (body, callees) ← (f.definition.body.lower context).run []
  let s ← get
  set { s with nextId := s.nextId + 1 }
  let info : ArtifactInfo :=
    { id := s.nextId, definition := f.definition, callees,
      fingerprint := .ofArtifact f.fingerprint callees }
  return .mk info names.length body

/-- Compiles a function that the functions in `active` wait for; `fuel` bounds how many more can
come to wait. -/
def function (env : Linker) (fuel : Nat) (active : List (Nat × String)) (f : Function) :
    Compile Artifact := do
  match (← get).done.find? fun entry => entry.1 = f.id with
  | some (_, a) => return a
  | none =>
    if active.any fun entry => entry.1 = f.id then fail (cycle active f)
    else
      match fuel with
      | 0 => throw .exhausted
      | fuel + 1 =>
        let a ← compileUnit env (function env fuel (active ++ [(f.id, f.name)])) f
        modify fun s => { s with done := (f.id, a) :: s.done }
        return a

end Compile

/-- Compiles a function and its callees, numbering the artifacts from `nextId` on; gives the next
free number as well. Each caller that waits is another bound function, so the fuel does not run out.
-/
def Linker.compile (env : Linker) (nextId : Nat) (f : Function) :
    Except Fault (Artifact × Nat) := do
  let (a, s) ← (Compile.function env (env.bound + 1) [] f).run { nextId }
  return (a, s.nextId)

end Graft
