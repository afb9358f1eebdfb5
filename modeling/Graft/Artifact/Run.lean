import Graft.Calls
import Graft.Evaluate

/-!
# Running artifacts

The meaning of code, by recursion on it. A run needs nothing but the slots of the call: it reads no
namespace and changes nothing outside.
-/

namespace Graft

/-- The slots of one call; an empty one holds no value yet. -/
abbrev Slots := Array (Option Value)

/-- A step of an artifact. -/
abbrev Exec := StateT Slots (Except Fault)

namespace Exec

variable {α : Type}

/-- An operation on values, whose report belongs to `span`. -/
def at_ (span : Span) (o : Outcome α) : Exec α :=
  match o with
  | .ok a => pure a
  | .error d => throw (.report (d.orSpan span))

/-- The value in a slot; a slot that the call does not have is empty. -/
def get? (n : Nat) : Exec (Option Value) := return (← get).getD n none

def put (n : Nat) (v : Value) : Exec Unit := modify fun slots => slots.setIfInBounds n (some v)

/-- Puts values into slots one after another. -/
def putAll : List Nat → List Value → Exec Unit
  | n :: ns, v :: vs => do
    put n v
    putAll ns vs
  | _, _ => pure ()

/-- Runs `body` for `count` successive values of the counter, until one gives a value. -/
def forLoop (slot : Nat) (body : Exec Flow) :
    Nat → Int → Slots → Except Fault (Flow × Slots)
  | 0, _, slots => .ok (.next, slots)
  | count + 1, i, slots =>
    match body (slots.setIfInBounds slot (some (.num (Float.ofInt i)))) with
    | .ok (.next, slots) => forLoop slot body count (i + 1) slots
    | r => r

/-- Runs `body` as long as `test` holds, until one gives a value. -/
def whileLoop (test : Exec Bool) (body : Exec Flow) :
    Nat → Slots → Except Fault (Flow × Slots)
  | 0, _ => .error .exhausted
  | fuel + 1, slots =>
    match test slots with
    | .error e => .error e
    | .ok (false, slots) => .ok (.next, slots)
    | .ok (true, slots) =>
      match body slots with
      | .ok (.next, slots) => whileLoop test body fuel slots
      | r => r

end Exec

mutual

/-- The value of code; `fuel` bounds every `while` loop in it and in what it calls. -/
def Code.run (fuel : Nat) : Code → Exec Value
  | .constant v _ => pure v
  | .slot n name outer s => do
    match (← Exec.get? n).or outer with
    | some v => pure v
    | none => throw (.report (Calls.undefinedName name s))
  | .logical either l r _ => do
    let left ← Exec.at_ l.span (← Code.run fuel l).asBool
    if left == either then return .bool left
    else return .bool (← Exec.at_ r.span (← Code.run fuel r).asBool)
  | .binary op l r s => do
    let a ← Code.run fuel l
    let b ← Code.run fuel r
    Exec.at_ s (Value.binary op a b)
  | .unary op e s => do Exec.at_ s (Value.unary op (← Code.run fuel e))
  | .native n args s => do Exec.at_ s (n.call (← Code.runAll fuel args))
  | .linked callee args s => do
    let values ← Code.runAll fuel args
    match Artifact.call fuel callee values with
    | .ok v => pure v
    | .error e => throw (e.map (·.orSpan s))
  | .index e i s => do
    let base ← Code.run fuel e
    let n ← Exec.at_ i.span (← Code.run fuel i).asIndex
    Exec.at_ s (base.index n)
  | .slice e a b s => do
    let base ← Code.run fuel e
    let first ← Exec.at_ a.span (← Code.run fuel a).asIndex
    let last ← Exec.at_ b.span (← Code.run fuel b).asIndex
    Exec.at_ s (base.slice first last)
  | .array es _ => do return .array (← Code.runNumbers fuel es).toArray
  | .tuple es _ => do return .tuple (← Code.runAll fuel es)
  termination_by structural c => c

def Code.runAll (fuel : Nat) : List Code → Exec (List Value)
  | [] => pure []
  | c :: cs => do
    let v ← Code.run fuel c
    return v :: (← Code.runAll fuel cs)
  termination_by structural cs => cs

def Code.runNumbers (fuel : Nat) : List Code → Exec (List Float)
  | [] => pure []
  | c :: cs => do
    let x ← Exec.at_ c.span (← Code.run fuel c).asNum
    return x :: (← Code.runNumbers fuel cs)
  termination_by structural cs => cs

/-- Stores a value. An empty slot takes the outer array before an element of it changes. -/
def Store.run (fuel : Nat) : Store → Value → Exec Unit
  | .slot n, v => Exec.put n v
  | .discard, _ => pure ()
  | .element n name outer i s, v => do
    let p ← Exec.at_ i.span (← Code.run fuel i).asIndex
    match (← Exec.get? n).or outer with
    | none => throw (.report (Calls.undefinedName name s))
    | some current =>
      let stored ← Exec.at_ s (current.store p v)
      Exec.put n stored
  termination_by structural s => s

def Store.runAll (fuel : Nat) : List Store → List Value → Exec Unit
  | p :: ps, v :: vs => do
    Store.run fuel p v
    Store.runAll fuel ps vs
  | _, _ => pure ()
  termination_by structural ps => ps

def Step.run (fuel : Nat) : Step → Exec Flow
  | .bind n e => do
    let v ← Code.run fuel e
    Exec.put n v
    return .next
  | .bindAll ns e s => do
    let parts ← Exec.at_ s ((← Code.run fuel e).unpack ns.length)
    Exec.putAll ns parts
    return .next
  | .assign p e => do
    let v ← Code.run fuel e
    Store.run fuel p v
    return .next
  | .assignAll ps e s => do
    let parts ← Exec.at_ s ((← Code.run fuel e).unpack ps.length)
    Store.runAll fuel ps parts
    return .next
  | .branch c yes none => do
    if ← Exec.at_ c.span (← Code.run fuel c).asBool then Steps.run fuel yes else return .next
  | .branch c yes (some no) => do
    if ← Exec.at_ c.span (← Code.run fuel c).asBool then Steps.run fuel yes
    else Steps.run fuel no
  | .forRange n a b body => do
    let first ← Exec.at_ a.span (← Code.run fuel a).asIndex
    let last ← Exec.at_ b.span (← Code.run fuel b).asIndex
    Exec.forLoop n (Steps.run fuel body) (last - first).toNat first
  | .whileLoop c body =>
    Exec.whileLoop (do Exec.at_ c.span (← Code.run fuel c).asBool) (Steps.run fuel body) fuel
  | .eval e => do
    let _ ← Code.run fuel e
    return .next
  | .give (some e) => do return .give (← Code.run fuel e)
  | .give none => return .give .unit
  termination_by structural s => s

/-- Runs the steps of a block inside a function; the value of its tail is dropped. -/
def Steps.run (fuel : Nat) : Steps → Exec Flow
  | .mk steps none => Step.runAll fuel steps
  | .mk steps (some e) => do
    match ← Step.runAll fuel steps with
    | .give v => return .give v
    | .next =>
      let _ ← Code.run fuel e
      return .next
  termination_by structural b => b

def Step.runAll (fuel : Nat) : List Step → Exec Flow
  | [] => return .next
  | s :: ss => do
    match ← Step.run fuel s with
    | .give v => return .give v
    | .next => Step.runAll fuel ss
  termination_by structural ss => ss

/-- The value of the steps of a function. -/
def Steps.value (fuel : Nat) : Steps → Exec Value
  | .mk steps none => do
    match ← Step.runAll fuel steps with
    | .give v => return v
    | .next => return .unit
  | .mk steps (some e) => do
    match ← Step.runAll fuel steps with
    | .give v => return v
    | .next => Code.run fuel e
  termination_by structural b => b

/-- Calls an artifact. Its arguments fill the first slots, and the others are empty. -/
def Artifact.call (fuel : Nat) : Artifact → List Value → Except Fault Value
  | .mk info slotCount body, args =>
    if args.length ≠ info.definition.params.length then
      .error (.report (info.definition.wrongArity args.length))
    else
      let slots : Slots := (args.map some).toArray ++ Array.replicate (slotCount - args.length) none
      match Steps.value fuel body slots with
      | .ok (v, _) => .ok v
      | .error e => .error e
  termination_by structural a => a

end

end Graft
