import Graft.CallGraph
import Graft.Convert
import Graft.Pass.Reach
import Graft.Pass.Substitute

/-!
# Specialization

The artifact of a function under overrides. A replacement that is a plain function is first
specialized itself, so that it sees the overrides like any other function; the pass over the
function then works with finished replacements. Afterwards the namespaces are as they were.
-/

namespace Graft

/-- An override is plain logic: a gateway stands for its function. -/
def unwrapOverrides (overrides : List (String × Callable)) : List (String × Callable) :=
  overrides.map fun (name, c) => (name, c.unwrapped)

namespace Substitution

/-! ## Replacements -/

/-- The function that has to be specialized before it can be a replacement: a plain one, unless its
own name is overridden. -/
def pending? (raw : Substitution) : Callable → Option Function
  | .function f => if Dictionary.contains f.name raw then none else some f
  | _ => none

/-- Specializes one replacement under all overrides, in a pass of its own. -/
def prepareReplacement (raw : Substitution) (isolation : Isolation) (debug : Bool) (name : String)
    (f : Function) : Act (Artifact × List String) :=
  Run.mapReport (fun d => d.withNote ("while specializing override `" ++ name ++ "`"))
    (Pass.within (.ofIsolation isolation) debug (Pass.substituteCompiled raw debug f))

/-- Specializes the replacements that have to be; gives their artifacts by name, and the overrides
that met a call site in them. -/
def prepareReplacements (raw : Substitution) (isolation : Isolation) (debug : Bool) :
    Substitution → Act (Substitution × List String)
  | [] => return ([], [])
  | (name, c) :: rest => do
    match raw.pending? c with
    | none => prepareReplacements raw isolation debug rest
    | some f =>
      let (a, matched) ← prepareReplacement raw isolation debug name f
      let (table, more) ← prepareReplacements raw isolation debug rest
      return ((name, .artifact a) :: table, Ordered.union matched more)

/-- Converts the replacements that are not among those already made. -/
def convertOthers (made : Substitution) : Substitution → Act Substitution
  | [] => return []
  | (name, c) :: rest => do
    let c ← match Dictionary.get? name made with
      | some c => pure c
      | none => Run.mapReport (fun d => d.withNote ("given as override `" ++ name ++ "`")) c.convert
    return (name, c) :: (← convertOthers made rest)

/-- The table that a pass works with: every replacement made an artifact or a primitive. Gives the
overrides that met a call site meanwhile as well. -/
def prepare (raw : Substitution) (isolation : Isolation) (debug : Bool) :
    Act (Substitution × List String) := do
  let (made, matched) ← prepareReplacements raw isolation debug raw
  return (← convertOthers made raw, matched)

end Substitution

namespace Function

/-! ## The function -/

def recursive (f : Function) (cycle : List String) : Diagnostic :=
  (Diagnostic.of .unsupported
    ("cannot specialize recursive call graph " ++ Calls.chain cycle)).locate f.nameSpan

def unmatched (f : Function) (name : String) : Diagnostic :=
  (Diagnostic.of .name
    ("override `" ++ name ++ "` matches no call site reachable from `" ++ f.name ++ "`")).locate
    f.nameSpan

/-- Refuses a function that can call itself other than through an override. -/
def checkAcyclic (f : Function) (overrides : List (String × Callable)) : Act Unit := do
  let g ← Run.ofExcept (CallGraph.build (← get) f (Dictionary.keys overrides))
  match g.findCycle with
  | some cycle => Run.fail (f.recursive cycle)
  | none => pure ()

/-- Tells of the overrides that met no call site, or refuses the first one if that is strict. -/
def checkMatched (f : Function) (strict debug : Bool) : List String → Pass Unit
  | [] => pure ()
  | name :: rest => do
    if strict then Run.fail (f.unmatched name)
    else
      Pass.trace debug ("ignoring override `" ++ name ++ "`: no call site")
      f.checkMatched strict debug rest

/-- Makes the artifact of a function under overrides, whether or not one is kept. -/
def specializeAnew (f : Function) (overrides : List (String × Callable)) (debug : Bool) :
    Act Artifact := do
  let settings := (← get).settings
  let raw : Substitution := Dictionary.sorted overrides
  let (table, used) ← raw.prepare settings.isolation debug
  let pass : Pass Artifact := do
    let a ← Pass.substituteCompiled table debug f
    let matched := Ordered.union used (← get).matched
    let idle := (Dictionary.keys table).filter fun name => !matched.contains name
    f.checkMatched settings.strictOverrides debug idle
    return a
  return (← Pass.within (.ofIsolation settings.isolation) debug pass).1

/-- What is kept under a key; the look-up is counted. -/
def cached (f : Function) (key : CacheKey) (debug : Bool) : Act (Option Artifact) := do
  let w ← get
  let (found, cache) := w.cache.get key
  set { w with cache }
  if found.isSome then
    Act.trace debug ("cache hit for `" ++ f.name ++ "` " ++ key.digest.display)
  return found

/-- The artifact of a function under overrides: the one kept, or else a new one, which is kept. -/
def specialize (f : Function) (overrides : List (String × Callable)) (debug : Bool) :
    Act Artifact := do
  let overrides := unwrapOverrides overrides
  let w ← get
  if w.settings.cache then
    let key := w.cacheKey f overrides
    match ← f.cached key debug with
    | some a => return a
    | none =>
      f.checkAcyclic overrides
      let a ← f.specializeAnew overrides debug
      modify fun w => { w with cache := w.cache.insert w.generations key a }
      return a
  else
    f.checkAcyclic overrides
    f.specializeAnew overrides debug

/-- The definition of a function under overrides, which is not compiled. -/
def explain (f : Function) (overrides : List (String × Callable)) (debug : Bool) :
    Act Definition := do
  let overrides := unwrapOverrides overrides
  f.checkAcyclic overrides
  let raw : Substitution := Dictionary.sorted overrides
  let (table, _) ← raw.prepare .separate debug
  let (g, _) ← Pass.within (.ofIsolation .separate) debug (Pass.substitute table debug f)
  return g.definition

end Function

end Graft
