import Graft.World

/-!
# The namespaces that a pass can look into

They are those of the function and of the replacements, and then those of every callable bound in
one of them. A cache key depends on exactly these.
-/

namespace Graft.World

/-- The namespaces of the callables bound in a namespace. -/
def neighbours (w : World) (id : NamespaceId) : List NamespaceId :=
  match w.namespace? id with
  | some ns => ns.callables.flatMap Callable.homes
  | none => []

/-- Adds the namespaces that are there and not among `seen`. -/
def addLive (w : World) (seen ids : List NamespaceId) : List NamespaceId :=
  ids.foldl
    (fun seen id => if seen.contains id || (w.namespace? id).isNone then seen else seen ++ [id])
    seen

/-- Adds the neighbours of every namespace, `rounds` times over. -/
def spread (w : World) : Nat → List NamespaceId → List NamespaceId
  | 0, seen => seen
  | rounds + 1, seen => spread w rounds (w.addLive seen (seen.flatMap w.neighbours))

/-- The namespaces that can be reached from the given ones, in increasing order. Each round finds a
new one or none at all, so as many rounds as there are namespaces suffice. -/
def reachable (w : World) (ids : List NamespaceId) : List NamespaceId :=
  (w.spread w.namespaces.length (w.addLive [] ids)).mergeSort fun a b => decide (a ≤ b)

/-- The key under which a specialization is kept. -/
def cacheKey (w : World) (f : Function) (overrides : List (String × Callable)) : CacheKey :=
  let ids := w.reachable (f.home :: overrides.flatMap fun (_, c) => c.homes)
  let dependsOn := ids.filterMap fun id => (w.generations id).map fun n => (id, n)
  ⟨(CacheKey.record f dependsOn overrides).hash, dependsOn⟩

end Graft.World
