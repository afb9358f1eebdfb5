import Graft.Artifact.Code
import Graft.Digest.Definition
import Graft.Text.Dictionary

/-!
# Functions and callables

A function is a definition together with the place that it came from, the values that it closes
over, and the namespace in which its other names are looked up. A callable is anything that a name
can be bound to and that can be called.
-/

namespace Graft

/-- A text that definitions were read from. -/
structure SourceText where
  name : String
  text : String
  deriving DecidableEq, Repr, Inhabited

inductive Origin where
  /-- The item at `span` of a text that is kept. -/
  | source (file : SourceText) (span : Span)
  /-- A text that was not kept. -/
  | interactive
  deriving DecidableEq, Repr, Inhabited

/-- A namespace is known by its number, which is never used again. -/
abbrev NamespaceId := Nat

/-- The namespace of a function is gone. -/
def homeGone : Diagnostic :=
  .of .runtime "the module this function was defined in no longer exists"

structure Function where
  /-- No two functions have one number. -/
  id : Nat
  definition : Definition
  origin : Origin
  home : NamespaceId
  /-- The values that the function closes over, in increasing order of their names. -/
  captures : List (String × Value)
  fingerprint : Digest
  deriving Inhabited

/-- The record of a function: its definition and the values that it closes over. -/
def Record.function (definition : Digest) (captures : List (String × Value)) : Record :=
  Record.start .key ++ Record.digest definition ++ Record.word captures.length ++
    captures.flatMap fun (name, v) => Record.string name ++ Record.value v

namespace Function

def build (id : Nat) (definition : Definition) (origin : Origin) (home : NamespaceId)
    (captures : List (String × Value)) : Function :=
  { id, definition, origin, home, captures,
    fingerprint := (Record.function definition.fingerprint captures).hash }

/-- The function with another body. -/
def withDefinition (f : Function) (id : Nat) (definition : Definition) : Function :=
  build id definition f.origin f.home f.captures

/-- The function closing over other values. -/
def withCaptures (f : Function) (id : Nat) (captures : List (String × Value)) : Function :=
  build id f.definition f.origin f.home captures

def name (f : Function) : String := f.definition.name.text

def nameSpan (f : Function) : Span := f.definition.name.span

def params (f : Function) : List String := f.definition.params.map Ident.text

def arity (f : Function) : Nat := f.definition.params.length

end Function

/-- A function whose calls may come with substitutions. -/
structure Gateway where
  id : Nat
  function : Function
  deriving Inhabited

inductive Callable where
  | function (f : Function)
  | artifact (a : Artifact)
  | native (n : Native)
  | gateway (g : Gateway)
  /-- A gateway with substitutions made ahead. -/
  | bound (id : Nat) (g : Gateway) (overrides : List (String × Callable)) (fingerprint : Digest)
  deriving Inhabited

namespace Callable

/-- The word for the sort of a callable. -/
def kind : Callable → String
  | .function _ => "function"
  | .artifact _ => "compiled function"
  | .native _ => "native function"
  | .gateway _ => "specialized function"
  | .bound .. => "partial function"

/-- The name under which the callable was declared. -/
def name : Callable → String
  | .function f => f.name
  | .artifact a => a.name
  | .native n => n.name
  | .gateway g => g.function.name
  | .bound _ g _ _ => g.function.name

/-- Sort and name, for reports. -/
def describe (c : Callable) : String := c.kind ++ " `" ++ c.name ++ "`"

def fingerprint : Callable → Digest
  | .function f => f.fingerprint
  | .artifact a => a.fingerprint
  | .native n => n.fingerprint
  | .gateway g => g.function.fingerprint
  | .bound _ _ _ d => d

/-- Whether two callables are one object, and not merely alike. -/
def same : Callable → Callable → Bool
  | .function f, .function g => f.id == g.id
  | .artifact a, .artifact b => a.id == b.id
  | .native m, .native n => m == n
  | .gateway g, .gateway h => g.id == h.id
  | .bound i _ _ _, .bound j _ _ _ => i == j
  | _, _ => false

/-- A gateway stands for its function. -/
def unwrapped : Callable → Callable
  | .gateway g => .function g.function
  | c => c

/-- The plain function that a call descends into, if there is one. -/
def plain? : Callable → Option Function
  | .function f => some f
  | .gateway g => some g.function
  | _ => none

/-- The namespaces in which a callable looks names up itself. -/
def homes : Callable → List NamespaceId
  | .function f => [f.home]
  | .gateway g => [g.function.home]
  | .bound _ g overrides _ => g.function.home :: homesAll overrides
  | .artifact _ | .native _ => []
where
  homesAll : List (String × Callable) → List NamespaceId
    | [] => []
    | (_, c) :: rest => c.homes ++ homesAll rest

/-- The record of which object a callable is. Functions alike in two namespaces call different
functions, so content alone would not do. -/
def identity : Callable → Record
  | .function f => ofFunction f
  | .gateway g => ofFunction g.function
  | .artifact a => Record.string "compiled" ++ Record.word a.id
  | .native n => Record.string "native" ++ Record.string n.name
  | .bound _ g overrides _ =>
    Record.string "partial" ++ Record.word g.function.id ++ Record.word overrides.length ++
      identities overrides
where
  ofFunction (f : Function) : Record :=
    Record.string "fn" ++ Record.word f.id ++ Record.digest f.fingerprint
  identities : List (String × Callable) → Record
    | [] => []
    | (name, c) :: rest => Record.string name ++ c.identity ++ identities rest

end Callable

/-- Increasing order of names; entries with one name stay in their order. -/
def sortByName {α : Type} (entries : List (String × α)) : List (String × α) :=
  entries.mergeSort fun a b => decide (a.1 ≤ b.1)

/-- The record of a gateway with substitutions made ahead. -/
def Record.bound (function : Digest) (overrides : List (String × Digest)) : Record :=
  Record.start .key ++ Record.digest function ++ Record.word overrides.length ++
    (sortByName overrides).flatMap fun (name, d) => Record.string name ++ Record.digest d

namespace Gateway

/-- The gateway with substitutions made ahead. -/
def bind (g : Gateway) (id : Nat) (overrides : List (String × Callable)) : Callable :=
  .bound id g overrides
    (Record.bound g.function.fingerprint (overrides.map fun (n, c) => (n, c.fingerprint))).hash

end Gateway

/-- What a name of a namespace is bound to. -/
inductive Global where
  | constant (v : Value)
  | callable (c : Callable)
  deriving Inhabited

end Graft
