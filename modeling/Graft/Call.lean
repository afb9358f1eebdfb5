import Graft.Artifact.Run
import Graft.World

/-!
# Calls

What a call does in the world: the evaluator under the scope of a function, which looks names up in
the captured values, in the namespace of the function, and among the builtins. A gateway that is
called by name is called as its function. How deep calls may be nested is a limit of the namespace
of the first function; only a callable with substitutions made ahead starts to count anew.
-/

namespace Graft

/-- How a callable with substitutions made ahead is called. -/
abbrev BoundCall := Gateway → List (String × Callable) → List Value → Act Value

namespace Function

/-- What the body of a function sees of the world; `call` calls what a bare name is bound to. -/
def scope (f : Function) (call : Callable → List Value → Act Value) : Scope World where
  outer name span := do
    match Dictionary.get? name f.captures with
    | some v => return v
    | none =>
      match (← get).lookup f.home name with
      | some (.constant v) => return v
      | some (.callable c) => Run.fail (Calls.notAValue c span)
      | none => Run.fail (Calls.undefinedName name span)
  call p args span := do
    match p.single? with
    | none =>
      let n ← Run.ofOutcome (Calls.member? p span)
      Run.ofOutcome (n.call args)
    | some name =>
      match (← get).lookup f.home name with
      | some (.callable c) => call c args
      | some (.constant v) => Run.fail (Calls.notAFunction name v span)
      | none =>
        match Native.builtin? name with
        | some n => Run.ofOutcome (n.call args)
        | none => Run.fail (Calls.undefinedFunction name span)

def tooDeep (f : Function) (limit : Nat) : Diagnostic :=
  (Diagnostic.of .runtime s!"maximum recursion depth ({limit}) exceeded").locate f.nameSpan

/-- Calls a function when `depth` more levels are left out of `limit`. -/
def callAt (bound : BoundCall) (limit : Nat) (depth : Nat) (f : Function) (args : List Value) :
    Act Value := do
  if args.length ≠ f.arity then Run.fail (f.definition.wrongArity args.length)
  else
    match depth with
    | 0 => Run.fail (f.tooDeep limit)
    | depth + 1 =>
      let _ ← Run.ofOutcome ((← get).home f)
      let call (c : Callable) (args : List Value) : Act Value :=
        match c with
        | .function g => callAt bound limit depth g args
        | .gateway g => callAt bound limit depth g.function args
        | .artifact a => Run.ofExcept (a.call ampleFuel args)
        | .native n => Run.ofOutcome (n.call args)
        | .bound _ g overrides _ => bound g overrides args
      f.definition.value (f.scope call) ampleFuel args

/-- Calls a function as it is, without substitutions. -/
def callWith (bound : BoundCall) (f : Function) (args : List Value) : Act Value := do
  let home ← Run.ofOutcome ((← get).home f)
  f.callAt bound home.maxRecursion home.maxRecursion args

end Function

/-- Calls a callable with nothing but arguments. -/
def Callable.callWith (bound : BoundCall) (c : Callable) (args : List Value) : Act Value :=
  match c with
  | .function f => f.callWith bound args
  | .gateway g => g.function.callWith bound args
  | .artifact a => Run.ofExcept (a.call ampleFuel args)
  | .native n => Run.ofOutcome (n.call args)
  | .bound _ g overrides _ => bound g overrides args

end Graft
