import Graft.Call
import Graft.Gateway.Keyword
import Graft.Gateway.Specialize

/-!
# Calls of gateways

A call without overrides runs the function as it is. A call with overrides runs its specialization,
or gives the specialization itself if that is asked for.
-/

namespace Graft

/-- What a call of a gateway gives. -/
inductive Product where
  | value (v : Value)
  | artifact (a : Artifact)
  deriving Inhabited

namespace Product

def notAValue (a : Artifact) : Diagnostic :=
  .of .type ("expected a value, got compiled function `" ++ a.name ++ "`")

def notAnArtifact (v : Value) : Diagnostic :=
  .of .type ("expected a compiled function, got a " ++ v.sort)

def asValue : Product → Outcome Value
  | .value v => .ok v
  | .artifact a => .error (notAValue a)

def asArtifact : Product → Outcome Artifact
  | .artifact a => .ok a
  | .value v => .error (notAnArtifact v)

end Product

namespace Gateway

/-- Calls a gateway, given how callables with substitutions made ahead are called. -/
def callWith (bound : BoundCall) (g : Gateway) (args : List Value) (ks : Keywords) :
    Act Product := do
  let f := g.function
  let r ← Run.ofOutcome (Request.ofKeywords f ks)
  let debug := r.debug || (← get).settings.debug
  if r.overrides.isEmpty then
    if r.returnCallable then
      Act.trace debug ("compiling `" ++ f.name ++ "` without overrides")
      return .artifact (← f.compile)
    else
      let args ← Run.ofOutcome (f.arguments args r.values)
      return .value (← f.callWith bound args)
  else
    let a ← f.specialize r.overrides debug
    if r.returnCallable then return .artifact a
    else
      let args ← Run.ofOutcome (f.arguments args r.values)
      return .value (← Run.ofExcept (a.call ampleFuel args))

/-- Calls a gateway with substitutions made ahead; such calls are nested at most as deep as the fuel
says. -/
def callBound : Nat → BoundCall
  | 0, _, _, _ => throw .exhausted
  | fuel + 1, g, overrides, args => do
    Run.ofOutcome (← g.callWith (callBound fuel) args (.ofOverrides overrides)).asValue

/-- Calls a gateway. -/
def call (g : Gateway) (args : List Value) (ks : Keywords) : Act Product :=
  g.callWith (callBound ampleFuel) args ks

def onlyOverrides (g : Gateway) : Diagnostic :=
  (Diagnostic.of .type
    ("only overrides can be bound to `" ++ g.function.name ++ "`")).locate g.function.nameSpan

/-- Makes substitutions ahead; nothing but overrides can be given. -/
def partialApply (g : Gateway) (ks : Keywords) : Act Callable := do
  let r ← Run.ofOutcome (Request.ofKeywords g.function ks)
  if r.returnCallable || r.debug || !r.values.isEmpty then Run.fail g.onlyOverrides
  else return g.bind (← Act.freshId) r.overrides

/-- The text of the definition that the overrides make of a gateway. -/
def explain (g : Gateway) (ks : Keywords) : Act String := do
  let r ← Run.ofOutcome (Request.ofKeywords g.function ks)
  let debug := r.debug || (← get).settings.debug
  return (← g.function.explain r.overrides debug).text

end Gateway

namespace Callable

/-- Calls a callable with nothing but arguments. -/
def call (c : Callable) (args : List Value) : Act Value :=
  c.callWith (Gateway.callBound ampleFuel) args

/-- Calls a gateway, possibly with substitutions made ahead, with keyword arguments; the
substitutions made ahead come first. Nothing else takes keyword arguments. -/
def callKeywords? (c : Callable) (args : List Value) (ks : Keywords) : Option (Act Product) :=
  match c with
  | .gateway g => some (g.call args ks)
  | .bound _ g overrides _ => some (g.call args (.ofOverrides overrides ++ ks))
  | _ => none

end Callable

end Graft
