import Graft.Artifact.Compile
import Graft.World

/-!
# Bindings made for a while

A pass binds names for its own duration, either in a table of its own that lies over the namespaces
or in the namespaces themselves. The registry remembers what every name was bound to before its
first binding, so that `restore` puts everything back.
-/

namespace Graft

/-- Where a pass puts its bindings. -/
inductive SymbolTable where
  /-- Into a table that is looked into before the namespaces. -/
  | overlay (entries : List ((NamespaceId × String) × Global))
  /-- Into the namespaces. -/
  | shared
  deriving Inhabited

namespace SymbolTable

/-- An empty table of the given kind. -/
def ofIsolation : Isolation → SymbolTable
  | .separate => .overlay []
  | .shared => .shared

/-- What the table itself holds for a name. -/
def held (t : SymbolTable) (w : World) (id : NamespaceId) (name : String) : Option Global :=
  match t with
  | .overlay entries => (entries.find? fun entry => entry.1 = (id, name)).map Prod.snd
  | .shared => w.lookup id name

/-- What a name is bound to, as the pass sees it. -/
def lookup (t : SymbolTable) (w : World) (id : NamespaceId) (name : String) : Option Global :=
  (t.held w id name).or (w.lookup id name)

/-- Sets or clears what the table holds for a name. -/
def write (t : SymbolTable) (w : World) (id : NamespaceId) (name : String) (g : Option Global) :
    SymbolTable × World :=
  match t with
  | .overlay entries =>
    let others := entries.filter fun entry => entry.1 ≠ (id, name)
    match g with
    | some g => (.overlay (((id, name), g) :: others), w)
    | none => (.overlay others, w)
  | .shared => (.shared, w.install id name g)

/-- How many bindings the table adds to those of the namespaces. -/
def size : SymbolTable → Nat
  | .overlay entries => entries.length
  | .shared => 0

/-- How a compilation finds bindings during a pass. -/
def linker (t : SymbolTable) (w : World) : Linker :=
  { lookup := t.lookup w
    isLive := fun id => (w.namespace? id).isSome
    bound := w.bindingCount + t.size }

end SymbolTable

/-- A binding that a pass made. -/
structure Replaced where
  home : NamespaceId
  /-- The name that is bound now. -/
  key : String
  /-- The name at the call sites for which it was bound. -/
  symbol : String
  /-- What the table held for the key before. -/
  previous : Option Global
  deriving Inhabited

structure Registry where
  table : SymbolTable
  /-- In the order in which the keys were first bound. -/
  replaced : List Replaced := []
  deriving Inhabited

namespace Registry

/-- Whether the pass has bound a key. -/
def isRecorded (r : Registry) (id : NamespaceId) (key : String) : Bool :=
  r.replaced.any fun entry => entry.key = key ∧ entry.home = id

/-- Binds a key. Only the first binding of a key is recorded. -/
def install (r : Registry) (w : World) (id : NamespaceId) (key symbol : String) (g : Global) :
    Registry × World :=
  let previous := r.table.held w id key
  let (table, w) := r.table.write w id key (some g)
  if r.isRecorded id key then ({ r with table }, w)
  else ({ table, replaced := r.replaced ++ [⟨id, key, symbol, previous⟩] }, w)

/-- The call-site names for which something was bound, in the order of their first binding. -/
def symbols (r : Registry) : List String :=
  r.replaced.foldl
    (fun names entry => if names.contains entry.symbol then names else names ++ [entry.symbol]) []

/-- Puts everything back, the latest binding first. -/
def restore (r : Registry) (w : World) : Registry × World :=
  let (table, w) := r.replaced.foldr
    (fun entry (table, w) => table.write w entry.home entry.key entry.previous) (r.table, w)
  ({ table, replaced := [] }, w)

end Registry

end Graft
