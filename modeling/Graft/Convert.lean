import Graft.Artifact.Compile
import Graft.World

/-!
# Conversion

Compiling a function against the namespaces as they are, and making an artifact of whatever compiled
code can be linked to.
-/

namespace Graft

/-- How a compilation finds bindings outside of passes. -/
def World.linker (w : World) : Linker :=
  { lookup := w.lookup
    isLive := fun id => (w.namespace? id).isSome
    bound := w.bindingCount }

/-- Compiles a function against the namespaces as they are. -/
def Function.compile (f : Function) : Act Artifact := do
  let w ← get
  let (a, nextId) ← Run.ofExcept (w.linker.compile w.nextId f)
  set { w with nextId }
  return a

namespace Callable

def notPlain (c : Callable) : Diagnostic :=
  (Diagnostic.of .type ("cannot compile " ++ c.describe ++ ": not a plain function")).withHelp
    "pass the function itself, without @fs or bound overrides"

/-- A callable that compiled code can be linked to. Artifacts and primitives are such already. -/
def convert (c : Callable) : Act Callable :=
  match c with
  | .artifact _ | .native _ => pure c
  | .function f => do return .artifact (← f.compile)
  | .gateway _ | .bound .. => Run.fail c.notPlain

end Callable

end Graft
