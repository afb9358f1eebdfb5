import Graft.Tree.Walk
import Graft.Text.Ordered

/-!
# Names in trees

Which functions a body calls, and which names a function binds, reads from outside, or stores into.
A name that is bound anywhere in a function is local everywhere in it.
-/

namespace Graft

/-- A call as it is written. -/
structure CallSite where
  callee : Path
  span : Span
  deriving DecidableEq, Repr

namespace Block

/-- The calls of a block in the order of the tree, arguments first. -/
def callSites (b : Block) : List CallSite :=
  b.subterms.filterMap fun
    | .call callee span _ _ => some ⟨callee, span⟩
    | _ => none

/-- The names called without a module, in increasing order. -/
def calledNames (b : Block) : List String :=
  Ordered.ofList (b.callSites.filterMap fun site => site.callee.single?)

/-- The names read as variables, with repetitions. -/
def reads (b : Block) : List String :=
  b.subterms.filterMap fun
    | .var n _ => some n
    | _ => none

/-- The names assigned as variables, with repetitions. -/
def assigned (b : Block) : List String :=
  b.places.filterMap fun
    | .var n _ => some n
    | _ => none

/-- The arrays whose elements are assigned, with repetitions. -/
def stored (b : Block) : List String :=
  b.places.filterMap fun
    | .index base _ _ => some base.text
    | _ => none

end Block

namespace Definition

/-- Parameters, `let` names, counters and assigned variables, in increasing order. -/
def boundNames (d : Definition) : List String :=
  Ordered.ofList (d.params.map Ident.text ++ d.body.binders ++ d.body.assigned)

/-- The names read or stored into that the function does not bind, in increasing order. -/
def freeNames (d : Definition) : List String :=
  let bound := d.boundNames
  Ordered.ofList ((d.body.reads ++ d.body.stored).filter fun n => !bound.contains n)

/-- The arrays that the function stores into, in increasing order. -/
def storedArrays (d : Definition) : List String := Ordered.ofList d.body.stored

end Definition

end Graft
