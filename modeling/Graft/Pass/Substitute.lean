import Graft.Pass.Registry
import Graft.Pass.Source

/-!
# Passes

A pass makes substitutions in a function and in everything that it calls. Each name that the
function calls without a module is decided once: a name in the table is renamed to an alias that is
bound to the replacement; a name bound to a function is bound to that function after the same pass
over it; any other name is left alone.
-/

namespace Graft

/-- The replacements by the names of the call sites, in increasing order. -/
abbrev Substitution := List (String × Callable)

/-- The name under which a replacement is bound. No text can hold it. -/
def overrideAlias (name : String) : String := name ++ "@override"

namespace Pass

structure State where
  world : World
  registry : Registry
  /-- The names of the table that met a call site, in increasing order. -/
  matched : List String := []
  deriving Inhabited

end Pass

abbrev Pass := Run Pass.State

namespace Pass

/-- Adds a line to the trace, if `on`. -/
def trace (on : Bool) (line : String) : Pass Unit :=
  if on then
    modify fun s => { s with world := { s.world with trace := line :: s.world.trace } }
  else pure ()

/-- What a name is bound to, as the pass sees it. -/
def lookup (id : NamespaceId) (name : String) : Pass (Option Global) := do
  let s ← get
  return s.registry.table.lookup s.world id name

def install (id : NamespaceId) (key symbol : String) (g : Global) : Pass Unit :=
  modify fun s =>
    let (registry, world) := s.registry.install s.world id key symbol g
    { s with registry, world }

/-- Compiles a function against the bindings of the pass. -/
def compile (f : Function) : Pass Artifact := do
  let s ← get
  let (a, nextId) ← Run.ofExcept ((s.registry.table.linker s.world).compile s.world.nextId f)
  set { s with world := { s.world with nextId } }
  return a

def cycle (active : List (Nat × String)) (f : Function) : Diagnostic :=
  let names := (active.dropWhile fun entry => entry.1 ≠ f.id).map Prod.snd ++ [f.name]
  (Diagnostic.of .unsupported
    ("cannot specialize recursive call graph " ++ Calls.chain names)).locate f.nameSpan

/-- Decides one name that a function of namespace `id` calls: whether its calls go to the alias.
`callee` makes the pass over a function and compiles it. -/
def decide (table : Substitution) (debug : Bool) (callee : Function → Pass Artifact)
    (id : NamespaceId) (name : String) : Pass Bool := do
  match ← lookup id name with
  | none => return false
  | some current =>
    match Dictionary.get? name table with
    | some replacement =>
      let s ← get
      unless s.registry.isRecorded id (overrideAlias name) do
        let place := ((s.world.namespace? id).map Namespace.name).getD ""
        trace debug ("replacing `" ++ name ++ "` with " ++ replacement.describe ++ " in `" ++
          place ++ "`")
        install id (overrideAlias name) name (.callable replacement)
      modify fun s => { s with matched := Ordered.insert name s.matched }
      return true
    | none =>
      match current with
      | .callable c =>
        match c.plain? with
        | some f =>
          let a ← Run.mapReport
            (fun d => d.withNote ("while specializing callee `" ++ name ++ "`")) (callee f)
          install id name name (.callable (.artifact a))
          return false
        | none => return false
      | .constant _ => return false

/-- Decides names one after another; gives those whose calls go to their aliases. -/
def decideAll (table : Substitution) (debug : Bool) (callee : Function → Pass Artifact)
    (id : NamespaceId) : List String → Pass (List String)
  | [] => return []
  | name :: rest => do
    let renamed ← decide table debug callee id name
    let more ← decideAll table debug callee id rest
    return if renamed then name :: more else more

/-- The bare names that a body calls, each at its first call. -/
def calledInOrder (b : Block) : List String :=
  b.callSites.foldl
    (fun names site =>
      match site.callee.single? with
      | some n => if names.contains n then names else names ++ [n]
      | none => names) []

/-- The call with its callee renamed to the alias, if the callee is among `names`. -/
def renameCall (names : List String) : Expr → Expr
  | .call callee calleeSpan args s =>
    match callee.single? with
    | some n =>
      if names.contains n then .call ⟨overrideAlias n, []⟩ calleeSpan args s
      else .call callee calleeSpan args s
    | none => .call callee calleeSpan args s
  | e => e

/-- A body with the calls of the given names renamed. -/
def renameCalls (names : List String) (b : Block) : Block :=
  (b.mapM (m := Id) fun e => pure (renameCall names e)).run

/-- Makes the substitutions in the definition that a unit starts with. -/
def substituteUnit (table : Substitution) (debug : Bool) (callee : Function → Pass Artifact)
    (id : NamespaceId) (unit : Program) : Pass Program := do
  match unit.items with
  | .function d span :: rest =>
    let names ← decideAll table debug callee id (calledInOrder d.body)
    return ⟨.function { d with body := renameCalls names d.body } span :: rest⟩
  | _ => return unit

/-- Makes the substitutions in one function, given how to make them in its callees. -/
def substituteFunction (table : Substitution) (debug : Bool) (callee : Function → Pass Artifact)
    (f : Function) : Pass Function := do
  trace debug ("specializing `" ++ f.name ++ "`")
  let unit ← Run.ofOutcome f.extract
  let s ← get
  let _ ← Run.ofOutcome (s.world.home f)
  let unit ← substituteUnit table debug callee f.home unit
  let s ← get
  let g ← Run.ofOutcome (f.reassemble s.world.nextId unit)
  modify fun s => { s with world := { s.world with nextId := s.world.nextId + 1 } }
  return g

/-- Makes the substitutions in a function and in everything that it calls, while the functions in
`active` wait; `fuel` bounds how many more can come to wait. -/
def specialize (table : Substitution) (debug : Bool) (fuel : Nat) (active : List (Nat × String))
    (f : Function) : Pass Function := do
  if active.any fun entry => entry.1 = f.id then Run.fail (cycle active f)
  else
    match fuel with
    | 0 => throw .exhausted
    | fuel + 1 =>
      let callee (g : Function) : Pass Artifact := do
        compile (← specialize table debug fuel (active ++ [(f.id, f.name)]) g)
      substituteFunction table debug callee f

/-- The fuel that a pass needs: one step for each bound function, and one for the first. -/
def fuelFor (w : World) : Nat := w.bindingCount + 1

/-- The pass over a function. -/
def substitute (table : Substitution) (debug : Bool) (f : Function) : Pass Function := do
  specialize table debug (fuelFor (← get).world) [] f

/-- The pass over a function, and the artifact of what it gives. -/
def substituteCompiled (table : Substitution) (debug : Bool) (f : Function) : Pass Artifact := do
  compile (← substitute table debug f)

/-- Undoes every binding of the pass; gives how many there were. -/
def restore (debug : Bool) : Pass Nat := do
  let s ← get
  let (registry, world) := s.registry.restore s.world
  set { s with registry, world }
  let count := s.registry.replaced.length
  trace (debug && count != 0) s!"restored {count} binding(s)"
  return count

/-- Runs a pass with a new registry in the world. However it ends, its bindings are undone. Gives
the names that met a call site as well. -/
def within {α : Type} (table : SymbolTable) (debug : Bool) (pass : Pass α) :
    Act (α × List String) := do
  let w ← get
  let (result, s) := pass.run.run { world := w, registry := { table } }
  let (_, restored) := (restore debug).run.run s
  set restored.world
  match result with
  | .ok a => return (a, s.matched)
  | .error e => throw e

end Pass

end Graft
