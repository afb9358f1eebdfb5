import Graft.Tree.Names
import Graft.World

/-!
# Call graphs

The functions that a function reaches by calls of bare names, and who calls whom. Primitives,
artifacts and calls through a module are leaves and do not appear; calls of excluded names are left
out. A cycle is found through the strongly connected components.
-/

namespace Graft

structure CallGraph where
  /-- The functions in the order of their discovery, the first one first. -/
  nodes : List Function
  /-- Caller and callee by their places among the nodes, in the order of discovery. -/
  edges : List (Nat × Nat)
  deriving Inhabited

namespace CallGraph

/-- The functions that a function calls by bare names outside `excluded`, in the order of the first
call of each name. -/
def callees (w : World) (excluded : List String) (f : Function) : List Function :=
  let names := f.definition.body.callSites.foldl
    (fun names site =>
      match site.callee.single? with
      | some n => if excluded.contains n || names.contains n then names else names ++ [n]
      | none => names) ([] : List String)
  names.filterMap fun name =>
    match w.lookup f.home name with
    | some (.callable c) => c.plain?
    | _ => none

/-- Adds an edge from the node at `from_`, and its end if it is new. -/
def addCallee (g : CallGraph) (from_ : Nat) (callee : Function) : CallGraph :=
  match g.nodes.findIdx? fun f => f.id = callee.id with
  | some to_ => { g with edges := g.edges ++ [(from_, to_)] }
  | none => ⟨g.nodes ++ [callee], g.edges ++ [(from_, g.nodes.length)]⟩

/-- Looks at the nodes from place `i` on, which may add more; `fuel` bounds how many there are. -/
def explore (w : World) (excluded : List String) : Nat → Nat → CallGraph → Except Fault CallGraph
  | 0, i, g => if i < g.nodes.length then .error .exhausted else .ok g
  | fuel + 1, i, g =>
    match g.nodes[i]? with
    | none => .ok g
    | some f =>
      match w.home f with
      | .error d => .error (.report d)
      | .ok _ =>
        explore w excluded fuel (i + 1)
          ((callees w excluded f).foldl (fun g callee => g.addCallee i callee) g)

/-- The graph from a function, without the calls of the excluded names. -/
def build (w : World) (f : Function) (excluded : List String) : Except Fault CallGraph :=
  explore w excluded (w.bindingCount + 1) 0 ⟨[f], []⟩

def root (g : CallGraph) : String := (g.nodes.head?.map Function.name).getD ""

/-- The names of the other functions. -/
def reachable (g : CallGraph) : List String := g.nodes.tail.map Function.name

/-! ## Components -/

/-- How far the search is with a node. -/
inductive Mark where
  | unseen
  /-- On the path or the stack; the earliest node that it is known to reach was seen then. -/
  | seen (reaches : Nat)
  | closed
  deriving DecidableEq, Repr, Inhabited

structure Search where
  marks : List Mark
  clock : Nat := 0
  /-- The seen nodes whose component is not complete, the latest first. -/
  stack : List Nat := []
  /-- The components found so far, each with its root first, the latest first. -/
  components : List (List Nat) := []
  deriving Inhabited

namespace Search

def mark (s : Search) (v : Nat) : Mark := s.marks.getD v .closed

def setMark (s : Search) (v : Nat) (m : Mark) : Search := { s with marks := s.marks.set v m }

/-- Takes over what the successor `u` of `v` reaches; tells whether that was earlier. -/
def lower (s : Search) (v u : Nat) : Bool × Search :=
  match s.mark u, s.mark v with
  | .seen i, .seen j => if i < j then (true, s.setMark v (.seen i)) else (false, s)
  | _, _ => (false, s)

/-- Whether a node on the stack belongs to the component of a root that was seen at `time`. -/
def belongs (s : Search) (time : Nat) (u : Nat) : Bool :=
  match s.mark u with
  | .seen i => time ≤ i
  | _ => true

/-- Completes the component of the root `v`. -/
def close (s : Search) (v : Nat) : Search :=
  let time := match s.mark v with
    | .seen i => i
    | _ => 0
  let members := s.stack.takeWhile (s.belongs time)
  let component := v :: members
  { component.foldl (fun s u => s.setMark u .closed) s with
    stack := s.stack.drop members.length
    components := component :: s.components }

/-- Follows the edges out of `v`; `visit` visits an unseen node. Tells whether no successor reaches
further back than `v`. -/
def follow (visit : Nat → Search → Search) (v : Nat) : List Nat → Bool → Search → Bool × Search
  | [], isRoot, s => (isRoot, s)
  | u :: rest, isRoot, s =>
    let s := if s.mark u = .unseen then visit u s else s
    let (earlier, s) := s.lower v u
    follow visit v rest (isRoot && !earlier) s

/-- Visits a node and everything unseen behind it; `fuel` bounds the length of the path. -/
def visit (successors : Nat → List Nat) : Nat → Nat → Search → Search
  | 0, _, s => s
  | fuel + 1, v, s =>
    let s := { s.setMark v (.seen s.clock) with clock := s.clock + 1 }
    let (isRoot, s) := follow (visit successors fuel) v (successors v) true s
    if isRoot then s.close v else { s with stack := v :: s.stack }

end Search

/-- The places that the edges from a place lead to, the latest edge first. -/
def successors (g : CallGraph) (v : Nat) : List Nat :=
  (g.edges.filterMap fun (a, b) => if a = v then some b else none).reverse

/-- The strongly connected components in the order of their completion. -/
def components (g : CallGraph) : List (List Nat) :=
  let n := g.nodes.length
  let s := (List.range n).foldl
    (fun s v => if s.mark v = .unseen then Search.visit g.successors n v s else s)
    { marks := List.replicate n .unseen }
  s.components.reverse

/-- Whether the nodes of a component can reach themselves. -/
def isLooped (g : CallGraph) (component : List Nat) : Bool :=
  match component with
  | [v] => g.edges.contains (v, v)
  | _ => true

def nameAt (g : CallGraph) (v : Nat) : String := (g.nodes[v]?.map Function.name).getD ""

/-- The names of the first component that can reach itself, its root first and last. -/
def findCycle (g : CallGraph) : Option (List String) :=
  (g.components.find? g.isLooped).map fun component =>
    let names := component.map g.nameAt
    names ++ names.take 1

/-- The graph in the language of the drawing tool `dot`. -/
def dot (g : CallGraph) : String :=
  let node (v : Nat) : String := s!"    {v} [ label = \"" ++ g.nameAt v ++ "\" ]\n"
  let edge (e : Nat × Nat) : String := s!"    {e.1} -> {e.2} [ ]\n"
  "digraph \x7b\n" ++ String.join ((List.range g.nodes.length).map node) ++
    String.join (g.edges.map edge) ++ "\x7d\n"

end CallGraph

end Graft
