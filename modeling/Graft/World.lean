import Graft.Cache
import Graft.Fault
import Graft.Settings

/-!
# The world

Everything that outlives a call: the namespaces and their bindings, the cache, the settings, and the
trace of what passes did. Namespaces come and go; what still refers to one that is gone notices when
it needs it.
-/

namespace Graft

structure Namespace where
  name : String
  globals : List (String × Global) := []
  /-- How often a binding was defined or removed. -/
  generation : Nat := 0
  maxRecursion : Nat := 1000
  deriving Inhabited

namespace Namespace

def get? (ns : Namespace) (name : String) : Option Global := Dictionary.get? name ns.globals

/-- Defines or redefines a name, which counts as a change. -/
def define (ns : Namespace) (name : String) (g : Global) : Namespace :=
  { ns with globals := Dictionary.put name g ns.globals, generation := ns.generation + 1 }

/-- Removes a name, which counts as a change if it was there. -/
def remove (ns : Namespace) (name : String) : Namespace :=
  if (ns.get? name).isSome then
    { ns with globals := Dictionary.erase name ns.globals, generation := ns.generation + 1 }
  else ns

/-- Sets or clears a name for a while, which counts as no change. -/
def install (ns : Namespace) (name : String) : Option Global → Namespace
  | some g => { ns with globals := Dictionary.put name g ns.globals }
  | none => { ns with globals := Dictionary.erase name ns.globals }

/-- The defined names in increasing order. -/
def names (ns : Namespace) : List String := Ordered.ofList (Dictionary.keys ns.globals)

/-- The callables that names are bound to. -/
def callables (ns : Namespace) : List Callable :=
  ns.globals.filterMap fun
    | (_, .callable c) => some c
    | _ => none

@[simp] theorem get?_define_self (ns : Namespace) (name : String) (g : Global) :
    (ns.define name g).get? name = some g := by simp [define, get?]

theorem get?_define_of_ne {name other : String} (h : other ≠ name) (ns : Namespace) (g : Global) :
    (ns.define name g).get? other = ns.get? other := by
  simp [define, get?, Dictionary.get?_put_of_ne h]

@[simp] theorem generation_define (ns : Namespace) (name : String) (g : Global) :
    (ns.define name g).generation = ns.generation + 1 := rfl

/-- Only definitions and removals count as changes. -/
@[simp] theorem generation_install (ns : Namespace) (name : String) (g : Option Global) :
    (ns.install name g).generation = ns.generation := by cases g <;> rfl

end Namespace

structure World where
  settings : Settings := {}
  /-- The next number for a function, an artifact, a gateway or a namespace. -/
  nextId : Nat := 1
  /-- The namespaces that are still there. -/
  namespaces : List (NamespaceId × Namespace) := []
  cache : Cache := {}
  /-- What passes told about themselves, the latest first. -/
  trace : List String := []
  deriving Inhabited

namespace World

def namespace? (w : World) (id : NamespaceId) : Option Namespace :=
  (w.namespaces.find? fun entry => entry.1 = id).map Prod.snd

/-- What a name is bound to in a namespace. -/
def lookup (w : World) (id : NamespaceId) (name : String) : Option Global :=
  (w.namespace? id).bind fun ns => ns.get? name

def generations (w : World) : Generations := fun id => (w.namespace? id).map Namespace.generation

/-- Changes a namespace, if it is there. -/
def update (w : World) (id : NamespaceId) (f : Namespace → Namespace) : World :=
  { w with namespaces := w.namespaces.map fun (i, ns) => if i = id then (i, f ns) else (i, ns) }

def define (w : World) (id : NamespaceId) (name : String) (g : Global) : World :=
  w.update id fun ns => ns.define name g

def remove (w : World) (id : NamespaceId) (name : String) : World :=
  w.update id fun ns => ns.remove name

def install (w : World) (id : NamespaceId) (name : String) (g : Option Global) : World :=
  w.update id fun ns => ns.install name g

/-- The world without a namespace. -/
def drop (w : World) (id : NamespaceId) : World :=
  { w with namespaces := w.namespaces.filter fun entry => entry.1 ≠ id }

/-- A new, empty namespace. -/
def addNamespace (w : World) (name : String) : NamespaceId × World :=
  (w.nextId,
    { w with
      nextId := w.nextId + 1
      namespaces := (w.nextId, { name, maxRecursion := w.settings.maxRecursion }) :: w.namespaces })

/-- How many names are bound in all namespaces: no chain of distinct bound functions is longer. -/
def bindingCount (w : World) : Nat :=
  w.namespaces.foldr (fun entry n => entry.2.globals.length + n) 0

/-- The namespace of a function, or the report that it is gone. -/
def home (w : World) (f : Function) : Outcome Namespace :=
  match w.namespace? f.home with
  | some ns => .ok ns
  | none => .error (homeGone.orSpan f.nameSpan)

end World

/-- A run over a state that holds the world. -/
abbrev Act := Run World

namespace Act

/-- The next free number. -/
def freshId : Act Nat := do
  let w ← get
  set { w with nextId := w.nextId + 1 }
  return w.nextId

/-- Adds a line to the trace, if `on`. -/
def trace (on : Bool) (line : String) : Act Unit :=
  if on then modify fun w => { w with trace := line :: w.trace } else pure ()

end Act

end Graft
