import Graft.Proofs.Simulation

/-!
# Accesses to the frame of a call

A run of code takes a slot that the call does not have for an empty one, and a value that is put
there is lost. A guarded run looks before each access whether the call has the slot, and ends there
if it has not. If the frame has every slot that the code mentions, the guarded run is the run: each
step keeps the number of slots, and no access is outside.
-/

namespace Graft

variable {α β : Type}

/-! ## Slots that code mentions -/

/-- What happens to a name, or to its slot, where it is mentioned: it is read, it is bound by `let`
or as a counter, it is assigned, or an element of its array is. -/
inductive Use where
  | read
  | bound
  | assigned
  | stored
  deriving DecidableEq, Repr

/-- A name or a slot, as it is mentioned once. -/
structure Mention (α : Type) where
  use : Use
  what : α
  deriving DecidableEq, Repr

mutual

/-- The slots that code reads, from left to right. -/
def Code.mentions : Code → List (Mention Nat)
  | .constant _ _ => []
  | .slot n _ _ _ => [⟨.read, n⟩]
  | .logical _ l r _ | .binary _ l r _ => Code.mentions l ++ Code.mentions r
  | .unary _ x _ => Code.mentions x
  | .native _ args _ | .linked _ args _ => Code.mentionsAll args
  | .index x i _ => Code.mentions x ++ Code.mentions i
  | .slice x a b _ => Code.mentions x ++ Code.mentions a ++ Code.mentions b
  | .array codes _ | .tuple codes _ => Code.mentionsAll codes
  termination_by structural c => c

def Code.mentionsAll : List Code → List (Mention Nat)
  | [] => []
  | c :: cs => Code.mentions c ++ Code.mentionsAll cs
  termination_by structural cs => cs

end

def Store.mentions : Store → List (Mention Nat)
  | .slot n => [⟨.assigned, n⟩]
  | .discard => []
  | .element n _ _ i _ => ⟨.stored, n⟩ :: i.mentions

mutual

/-- The slots that a step reads or fills, in the order in which the statement names them. -/
def Step.mentions : Step → List (Mention Nat)
  | .bind n x => x.mentions ++ [⟨.bound, n⟩]
  | .bindAll ns x _ => x.mentions ++ ns.map (Mention.mk .bound)
  | .assign p x => x.mentions ++ p.mentions
  | .assignAll ps x _ => x.mentions ++ ps.flatMap Store.mentions
  | .branch c yes none => c.mentions ++ Steps.mentions yes
  | .branch c yes (some no) => c.mentions ++ Steps.mentions yes ++ Steps.mentions no
  | .forRange n a b body => ⟨.bound, n⟩ :: (a.mentions ++ b.mentions ++ Steps.mentions body)
  | .whileLoop c body => c.mentions ++ Steps.mentions body
  | .eval x => x.mentions
  | .give (some x) => x.mentions
  | .give none => []
  termination_by structural s => s

def Steps.mentions : Steps → List (Mention Nat)
  | .mk ss none => Steps.mentionsAll ss
  | .mk ss (some x) => Steps.mentionsAll ss ++ x.mentions
  termination_by structural b => b

def Steps.mentionsAll : List Step → List (Mention Nat)
  | [] => []
  | s :: ss => Step.mentions s ++ Steps.mentionsAll ss
  termination_by structural ss => ss

end

/-! ## Guarded runs -/

/-- A step of an artifact that ends at the first slot that the call does not have, and tells it. -/
abbrev Guarded := ExceptT Nat Exec

namespace Guarded

def check (n : Nat) : Guarded Unit := do
  unless n < (← getThe Slots).size do throw n

def get? (n : Nat) : Guarded (Option Value) := do
  check n
  ExceptT.lift (Exec.get? n)

def put (n : Nat) (v : Value) : Guarded Unit := do
  check n
  ExceptT.lift (Exec.put n v)

/-- Puts values into slots one after another. -/
def putAll : List Nat → List Value → Guarded Unit
  | n :: ns, v :: vs => do
    put n v
    putAll ns vs
  | _, _ => pure ()

/-- An operation on values, whose report belongs to `span`. -/
def at_ (span : Span) (o : Outcome α) : Guarded α := ExceptT.lift (Exec.at_ span o)

/-- Ends as the run does. -/
def fault (e : Fault) : Guarded α := throwThe Fault e

/-- Runs `body` for `count` successive values of the counter, until one gives a value. -/
def forLoop (slot : Nat) (body : Guarded Flow) : Nat → Int → Guarded Flow
  | 0, _ => pure .next
  | count + 1, i => do
    put slot (.num (Float.ofInt i))
    (← body).andThen (forLoop slot body count (i + 1))

/-- Runs `body` as long as `test` holds, until one gives a value. -/
def whileLoop (test : Guarded Bool) (body : Guarded Flow) : Nat → Guarded Flow
  | 0 => fault .exhausted
  | fuel + 1 => do
    if ← test then (← body).andThen (whileLoop test body fuel) else return .next

end Guarded

mutual

def Code.guarded (fuel : Nat) : Code → Guarded Value
  | .constant v _ => pure v
  | .slot n name outer s => do
    match (← Guarded.get? n).or outer with
    | some v => pure v
    | none => Guarded.fault (.report (Calls.undefinedName name s))
  | .logical either l r _ => do
    let left ← Guarded.at_ l.span (← Code.guarded fuel l).asBool
    if left == either then return .bool left
    else return .bool (← Guarded.at_ r.span (← Code.guarded fuel r).asBool)
  | .binary op l r s => do
    let a ← Code.guarded fuel l
    let b ← Code.guarded fuel r
    Guarded.at_ s (Value.binary op a b)
  | .unary op e s => do Guarded.at_ s (Value.unary op (← Code.guarded fuel e))
  | .native n args s => do Guarded.at_ s (n.call (← Code.guardedAll fuel args))
  | .linked callee args s => do
    let values ← Code.guardedAll fuel args
    match Artifact.call fuel callee values with
    | .ok v => pure v
    | .error e => Guarded.fault (e.map (·.orSpan s))
  | .index e i s => do
    let base ← Code.guarded fuel e
    let n ← Guarded.at_ i.span (← Code.guarded fuel i).asIndex
    Guarded.at_ s (base.index n)
  | .slice e a b s => do
    let base ← Code.guarded fuel e
    let first ← Guarded.at_ a.span (← Code.guarded fuel a).asIndex
    let last ← Guarded.at_ b.span (← Code.guarded fuel b).asIndex
    Guarded.at_ s (base.slice first last)
  | .array es _ => do return .array (← Code.guardedNumbers fuel es).toArray
  | .tuple es _ => do return .tuple (← Code.guardedAll fuel es)
  termination_by structural c => c

def Code.guardedAll (fuel : Nat) : List Code → Guarded (List Value)
  | [] => pure []
  | c :: cs => do
    let v ← Code.guarded fuel c
    return v :: (← Code.guardedAll fuel cs)
  termination_by structural cs => cs

def Code.guardedNumbers (fuel : Nat) : List Code → Guarded (List Float)
  | [] => pure []
  | c :: cs => do
    let x ← Guarded.at_ c.span (← Code.guarded fuel c).asNum
    return x :: (← Code.guardedNumbers fuel cs)
  termination_by structural cs => cs

end

def Store.guarded (fuel : Nat) : Store → Value → Guarded Unit
  | .slot n, v => Guarded.put n v
  | .discard, _ => pure ()
  | .element n name outer i s, v => do
    let p ← Guarded.at_ i.span (← Code.guarded fuel i).asIndex
    match (← Guarded.get? n).or outer with
    | none => Guarded.fault (.report (Calls.undefinedName name s))
    | some current =>
      let stored ← Guarded.at_ s (current.store p v)
      Guarded.put n stored

def Store.guardedAll (fuel : Nat) : List Store → List Value → Guarded Unit
  | p :: ps, v :: vs => do
    Store.guarded fuel p v
    Store.guardedAll fuel ps vs
  | _, _ => pure ()

mutual

def Step.guarded (fuel : Nat) : Step → Guarded Flow
  | .bind n e => do
    let v ← Code.guarded fuel e
    Guarded.put n v
    return .next
  | .bindAll ns e s => do
    let parts ← Guarded.at_ s ((← Code.guarded fuel e).unpack ns.length)
    Guarded.putAll ns parts
    return .next
  | .assign p e => do
    let v ← Code.guarded fuel e
    Store.guarded fuel p v
    return .next
  | .assignAll ps e s => do
    let parts ← Guarded.at_ s ((← Code.guarded fuel e).unpack ps.length)
    Store.guardedAll fuel ps parts
    return .next
  | .branch c yes none => do
    if ← Guarded.at_ c.span (← Code.guarded fuel c).asBool then Steps.guarded fuel yes
    else return .next
  | .branch c yes (some no) => do
    if ← Guarded.at_ c.span (← Code.guarded fuel c).asBool then Steps.guarded fuel yes
    else Steps.guarded fuel no
  | .forRange n a b body => do
    let first ← Guarded.at_ a.span (← Code.guarded fuel a).asIndex
    let last ← Guarded.at_ b.span (← Code.guarded fuel b).asIndex
    Guarded.forLoop n (Steps.guarded fuel body) (last - first).toNat first
  | .whileLoop c body =>
    Guarded.whileLoop (do Guarded.at_ c.span (← Code.guarded fuel c).asBool)
      (Steps.guarded fuel body) fuel
  | .eval e => do
    let _ ← Code.guarded fuel e
    return .next
  | .give (some e) => do return .give (← Code.guarded fuel e)
  | .give none => return .give .unit
  termination_by structural s => s

def Steps.guarded (fuel : Nat) : Steps → Guarded Flow
  | .mk steps none => Step.guardedAll fuel steps
  | .mk steps (some e) => do
    match ← Step.guardedAll fuel steps with
    | .give v => return .give v
    | .next =>
      let _ ← Code.guarded fuel e
      return .next
  termination_by structural b => b

def Step.guardedAll (fuel : Nat) : List Step → Guarded Flow
  | [] => return .next
  | s :: ss => do (← Step.guarded fuel s).andThen (Step.guardedAll fuel ss)
  termination_by structural ss => ss

end

/-- The value of the steps of a function, with every access guarded. -/
def Steps.guardedValue (fuel : Nat) : Steps → Guarded Value
  | .mk steps none => do
    match ← Step.guardedAll fuel steps with
    | .give v => return v
    | .next => return .unit
  | .mk steps (some e) => do
    match ← Step.guardedAll fuel steps with
    | .give v => return v
    | .next => Code.guarded fuel e

/-- Calls an artifact with its frame guarded; gives its value, or the slot outside the frame that
the call came to. The calls that it makes are not guarded. -/
def Artifact.guarded (fuel : Nat) : Artifact → List Value → Except Fault (Except Nat Value)
  | .mk info slotCount body, args =>
    if args.length ≠ info.definition.params.length then
      .error (.report (info.definition.wrongArity args.length))
    else
      let slots : Slots := (args.map some).toArray ++ Array.replicate (slotCount - args.length) none
      (Steps.guardedValue fuel body slots).map Prod.fst

/-! ## Runs that stay inside -/

/-- In a frame of so many slots, the guarded step makes each of its accesses and does what the other
step does; the frame keeps its size. -/
def Guarded.Stays (size : Nat) (x : Guarded α) (y : Exec α) : Prop :=
  ∀ slots : Slots, slots.size = size →
    (∃ a slots', x slots = .ok (.ok a, slots') ∧ y slots = .ok (a, slots') ∧
      slots'.size = size) ∨
    ∃ e, x slots = .error e ∧ y slots = .error e

namespace Guarded

theorem bind_apply (x : Guarded α) (f : α → Guarded β) (slots : Slots) :
    (x >>= f) slots = match x slots with
      | .ok (.ok a, slots) => f a slots
      | .ok (.error n, slots) => .ok (.error n, slots)
      | .error e => .error e := by
  simp only [bind, ExceptT.bind, ExceptT.mk, StateT.bind, Except.bind, ExceptT.bindCont]
  rcases x slots with _ | ⟨_ | _, _⟩ <;> rfl

theorem lift_apply (y : Exec α) (slots : Slots) :
    (ExceptT.lift y : Guarded α) slots = match y slots with
      | .ok (a, slots) => .ok (.ok a, slots)
      | .error e => .error e := by
  simp only [ExceptT.lift, ExceptT.mk, Functor.map, StateT.map, bind, Except.bind]
  rcases y slots with _ | _ <;> rfl

namespace Stays

variable {size n : Nat}

theorem pure (a : α) : Stays size (pure a) (pure a) :=
  fun slots h => .inl ⟨a, slots, rfl, rfl, h⟩

theorem fault (e : Fault) : Stays size (Guarded.fault e : Guarded α) (throw e) :=
  fun _ _ => .inr ⟨e, rfl, rfl⟩

theorem bind {x : Guarded α} {y : Exec α} {f : α → Guarded β} {g : α → Exec β}
    (h : Stays size x y) (k : ∀ a, Stays size (f a) (g a)) : Stays size (x >>= f) (y >>= g) := by
  intro slots hsize
  rw [bind_apply, Exec.bind_apply]
  obtain ⟨a, slots', hx, hy, hsize'⟩ | ⟨e, hx, hy⟩ := h slots hsize
  · rw [hx, hy]
    exact k a slots' hsize'
  · rw [hx, hy]
    exact .inr ⟨e, rfl, rfl⟩

/-- A step that comes without accesses. -/
theorem lift {y : Exec α} (h : ∀ slots r, y slots = .ok r → r.2.size = slots.size) :
    Stays size (ExceptT.lift y) y := by
  intro slots hsize
  rw [lift_apply]
  rcases hy : y slots with e | ⟨a, slots'⟩
  · exact .inr ⟨e, rfl, rfl⟩
  · exact .inl ⟨a, slots', rfl, rfl, (h slots _ hy).trans hsize⟩

theorem at_ (span : Span) (o : Outcome α) : Stays size (Guarded.at_ span o) (Exec.at_ span o) := by
  refine lift fun slots r h => ?_
  rw [Exec.at_apply] at h
  cases o with
  | ok a =>
      cases h
      rfl
  | error d => cases h

theorem check_apply (hn : n < size) {slots : Slots} (hsize : slots.size = size) :
    check n slots = .ok (.ok ⟨⟩, slots) := by
  have hget : check n slots =
      (if n < slots.size then Pure.pure ⟨⟩ else throw n : Guarded Unit) slots := rfl
  rw [hget, if_pos (hsize ▸ hn)]
  rfl

/-- An access to a slot of the frame. -/
theorem access (hn : n < size) {y : Exec α}
    (h : ∀ slots r, y slots = .ok r → r.2.size = slots.size) :
    Stays size (do check n; ExceptT.lift y) y := by
  intro slots hsize
  rw [bind_apply, check_apply hn hsize]
  exact lift h slots hsize

theorem get? (hn : n < size) : Stays size (Guarded.get? n) (Exec.get? n) :=
  access hn fun slots r h => by
    cases h
    rfl

theorem put (hn : n < size) (v : Value) : Stays size (Guarded.put n v) (Exec.put n v) :=
  access hn fun slots r h => by
    cases h
    exact Array.size_setIfInBounds

theorem putAll {ns : List Nat} (h : ∀ n ∈ ns, n < size) (vs : List Value) :
    Stays size (Guarded.putAll ns vs) (Exec.putAll ns vs) := by
  induction ns generalizing vs with
  | nil => cases vs <;> exact .pure _
  | cons n ns ih =>
      cases vs with
      | nil => exact .pure _
      | cons v vs =>
          rw [Guarded.putAll, Exec.putAll]
          exact (put (h n List.mem_cons_self) v).bind fun _ =>
            ih (fun m hm => h m (List.mem_cons_of_mem n hm)) vs

theorem andThen {x : Guarded Flow} {y : Exec Flow} (h : Stays size x y) (r : Flow) :
    Stays size (r.andThen x) (r.andThen y) := by
  cases r with
  | next => exact h
  | give v => exact .pure _

theorem forLoop {body : Guarded Flow} {run : Exec Flow} (hn : n < size) (h : Stays size body run)
    (count : Nat) (i : Int) :
    Stays size (Guarded.forLoop n body count i) (Exec.forLoop n run count i) := by
  induction count generalizing i with
  | zero => exact .pure _
  | succ count ih =>
      rw [Guarded.forLoop, Exec.forLoop_succ]
      exact (put hn _).bind fun _ => h.bind fun r => (ih (i + 1)).andThen r

theorem whileLoop {test : Guarded Bool} {check : Exec Bool} {body : Guarded Flow} {run : Exec Flow}
    (ht : Stays size test check) (h : Stays size body run) (fuel : Nat) :
    Stays size (Guarded.whileLoop test body fuel) (Exec.whileLoop check run fuel) := by
  induction fuel with
  | zero => exact .fault _
  | succ fuel ih =>
      rw [Guarded.whileLoop, Exec.whileLoop_succ]
      refine ht.bind fun b => ?_
      cases b with
      | true => exact h.bind fun r => ih.andThen r
      | false => exact .pure _

end Stays

end Guarded

/-! ## Code whose slots the frame has -/

/-- Every slot that is mentioned is one of so many. -/
def Mention.Inside (size : Nat) (ms : List (Mention Nat)) : Prop := ∀ m ∈ ms, m.what < size

theorem Mention.inside_append {size : Nat} {ms ns : List (Mention Nat)} :
    Inside size (ms ++ ns) ↔ Inside size ms ∧ Inside size ns := List.forall_mem_append

theorem Mention.inside_cons {size : Nat} {m : Mention Nat} {ms : List (Mention Nat)} :
    Inside size (m :: ms) ↔ m.what < size ∧ Inside size ms := List.forall_mem_cons

theorem Mention.inside_singleton {size : Nat} {m : Mention Nat} :
    Inside size [m] ↔ m.what < size := List.forall_mem_singleton

open Mention (Inside inside_append inside_cons inside_singleton)

section

variable {size : Nat} (fuel : Nat)

mutual

theorem Code.guarded_stays : ∀ c : Code, Inside size c.mentions →
    Guarded.Stays size (c.guarded fuel) (c.run fuel)
  | .constant v s, _ => by
      rw [Code.guarded, Code.run]
      exact .pure _
  | .slot n name outer s, h => by
      rw [Code.guarded, Code.run]
      refine (Guarded.Stays.get? (inside_singleton.mp h)).bind fun current => ?_
      cases current.or outer with
      | some v => exact .pure _
      | none => exact .fault _
  | .logical either l r s, h => by
      obtain ⟨hl, hr⟩ := inside_append.mp h
      rw [Code.guarded, Code.run]
      refine (Code.guarded_stays l hl).bind fun v => (Guarded.Stays.at_ _ _).bind fun left => ?_
      split
      · exact .pure _
      · exact (Code.guarded_stays r hr).bind fun v => (Guarded.Stays.at_ _ _).bind fun _ => .pure _
  | .binary op l r s, h => by
      obtain ⟨hl, hr⟩ := inside_append.mp h
      rw [Code.guarded, Code.run]
      exact (Code.guarded_stays l hl).bind fun _ => (Code.guarded_stays r hr).bind fun _ => .at_ _ _
  | .unary op e s, h => by
      rw [Code.guarded, Code.run]
      exact (Code.guarded_stays e h).bind fun _ => .at_ _ _
  | .native n args s, h => by
      rw [Code.guarded, Code.run]
      exact (Code.guardedAll_stays args h).bind fun _ => .at_ _ _
  | .linked callee args s, h => by
      rw [Code.guarded, Code.run]
      refine (Code.guardedAll_stays args h).bind fun values => ?_
      cases callee.call fuel values with
      | ok v => exact .pure _
      | error e => exact .fault _
  | .index e i s, h => by
      obtain ⟨he, hi⟩ := inside_append.mp h
      rw [Code.guarded, Code.run]
      exact (Code.guarded_stays e he).bind fun _ => (Code.guarded_stays i hi).bind fun _ =>
        (Guarded.Stays.at_ _ _).bind fun _ => .at_ _ _
  | .slice e a b s, h => by
      obtain ⟨hea, hb⟩ := inside_append.mp h
      obtain ⟨he, ha⟩ := inside_append.mp hea
      rw [Code.guarded, Code.run]
      exact (Code.guarded_stays e he).bind fun _ => (Code.guarded_stays a ha).bind fun _ =>
        (Guarded.Stays.at_ _ _).bind fun _ => (Code.guarded_stays b hb).bind fun _ =>
          (Guarded.Stays.at_ _ _).bind fun _ => .at_ _ _
  | .array es s, h => by
      rw [Code.guarded, Code.run]
      exact (Code.guardedNumbers_stays es h).bind fun _ => .pure _
  | .tuple es s, h => by
      rw [Code.guarded, Code.run]
      exact (Code.guardedAll_stays es h).bind fun _ => .pure _
  termination_by structural c => c

theorem Code.guardedAll_stays : ∀ cs : List Code, Inside size (Code.mentionsAll cs) →
    Guarded.Stays size (Code.guardedAll fuel cs) (Code.runAll fuel cs)
  | [], _ => .pure _
  | c :: cs, h => by
      obtain ⟨hc, hcs⟩ := inside_append.mp h
      rw [Code.guardedAll, Code.runAll]
      exact (Code.guarded_stays c hc).bind fun _ => (Code.guardedAll_stays cs hcs).bind fun _ =>
        .pure _
  termination_by structural cs => cs

theorem Code.guardedNumbers_stays : ∀ cs : List Code, Inside size (Code.mentionsAll cs) →
    Guarded.Stays size (Code.guardedNumbers fuel cs) (Code.runNumbers fuel cs)
  | [], _ => .pure _
  | c :: cs, h => by
      obtain ⟨hc, hcs⟩ := inside_append.mp h
      rw [Code.guardedNumbers, Code.runNumbers]
      exact (Code.guarded_stays c hc).bind fun _ => (Guarded.Stays.at_ _ _).bind fun _ =>
        (Code.guardedNumbers_stays cs hcs).bind fun _ => .pure _
  termination_by structural cs => cs

end

theorem Store.guarded_stays (p : Store) (h : Inside size p.mentions) (v : Value) :
    Guarded.Stays size (p.guarded fuel v) (p.run fuel v) := by
  cases p with
  | slot n => exact .put (inside_singleton.mp h) v
  | discard => exact .pure _
  | element n name outer i s =>
      obtain ⟨hn, hi⟩ := inside_cons.mp h
      rw [Store.guarded, Store.run]
      refine (Code.guarded_stays fuel i hi).bind fun _ => (Guarded.Stays.at_ _ _).bind fun p =>
        (Guarded.Stays.get? hn).bind fun current => ?_
      cases current.or outer with
      | none => exact .fault _
      | some current => exact (Guarded.Stays.at_ _ _).bind fun _ => .put hn _

theorem Store.guardedAll_stays (ps : List Store) (h : Inside size (ps.flatMap Store.mentions))
    (vs : List Value) :
    Guarded.Stays size (Store.guardedAll fuel ps vs) (Store.runAll fuel ps vs) := by
  induction ps generalizing vs with
  | nil => cases vs <;> exact .pure _
  | cons p ps ih =>
      rw [List.flatMap_cons] at h
      obtain ⟨hp, hps⟩ := inside_append.mp h
      cases vs with
      | nil => exact .pure _
      | cons v vs =>
          rw [Store.guardedAll, Store.runAll]
          exact (Store.guarded_stays fuel p hp v).bind fun _ => ih hps vs

mutual

theorem Step.guarded_stays : ∀ s : Step, Inside size s.mentions →
    Guarded.Stays size (s.guarded fuel) (s.run fuel)
  | .bind n e, h => by
      obtain ⟨he, hn⟩ := inside_append.mp h
      rw [Step.guarded, Step.run]
      exact (Code.guarded_stays fuel e he).bind fun v =>
        (Guarded.Stays.put (inside_singleton.mp hn) v).bind fun _ => .pure _
  | .bindAll ns e s, h => by
      obtain ⟨he, hns⟩ := inside_append.mp h
      rw [Step.guarded, Step.run]
      exact (Code.guarded_stays fuel e he).bind fun _ => (Guarded.Stays.at_ _ _).bind fun parts =>
        (Guarded.Stays.putAll (fun n hn => hns _ (List.mem_map_of_mem hn)) parts).bind fun _ =>
          .pure _
  | .assign p e, h => by
      obtain ⟨he, hp⟩ := inside_append.mp h
      rw [Step.guarded, Step.run]
      exact (Code.guarded_stays fuel e he).bind fun v =>
        (Store.guarded_stays fuel p hp v).bind fun _ => .pure _
  | .assignAll ps e s, h => by
      obtain ⟨he, hps⟩ := inside_append.mp h
      rw [Step.guarded, Step.run]
      exact (Code.guarded_stays fuel e he).bind fun _ => (Guarded.Stays.at_ _ _).bind fun vs =>
        (Store.guardedAll_stays fuel ps hps vs).bind fun _ => .pure _
  | .branch c yes none, h => by
      obtain ⟨hc, hyes⟩ := inside_append.mp h
      rw [Step.guarded, Step.run]
      refine (Code.guarded_stays fuel c hc).bind fun _ => (Guarded.Stays.at_ _ _).bind fun b => ?_
      split
      · exact Steps.guarded_stays yes hyes
      · exact .pure _
  | .branch c yes (some no), h => by
      obtain ⟨hcy, hno⟩ := inside_append.mp h
      obtain ⟨hc, hyes⟩ := inside_append.mp hcy
      rw [Step.guarded, Step.run]
      refine (Code.guarded_stays fuel c hc).bind fun _ => (Guarded.Stays.at_ _ _).bind fun b => ?_
      split
      · exact Steps.guarded_stays yes hyes
      · exact Steps.guarded_stays no hno
  | .forRange n a b body, h => by
      obtain ⟨hn, hparts⟩ := inside_cons.mp h
      obtain ⟨hab, hbody⟩ := inside_append.mp hparts
      obtain ⟨ha, hb⟩ := inside_append.mp hab
      rw [Step.guarded, Step.run]
      exact (Code.guarded_stays fuel a ha).bind fun _ => (Guarded.Stays.at_ _ _).bind fun first =>
        (Code.guarded_stays fuel b hb).bind fun _ => (Guarded.Stays.at_ _ _).bind fun last =>
          .forLoop hn (Steps.guarded_stays body hbody) _ _
  | .whileLoop c body, h => by
      obtain ⟨hc, hbody⟩ := inside_append.mp h
      rw [Step.guarded, Step.run]
      exact .whileLoop ((Code.guarded_stays fuel c hc).bind fun _ => .at_ _ _)
        (Steps.guarded_stays body hbody) fuel
  | .eval e, h => by
      rw [Step.guarded, Step.run]
      exact (Code.guarded_stays fuel e h).bind fun _ => .pure _
  | .give (some e), h => by
      rw [Step.guarded, Step.run]
      exact (Code.guarded_stays fuel e h).bind fun _ => .pure _
  | .give none, _ => .pure _
  termination_by structural s => s

theorem Steps.guarded_stays : ∀ b : Steps, Inside size b.mentions →
    Guarded.Stays size (b.guarded fuel) (b.run fuel)
  | .mk ss none, h => by
      rw [Steps.guarded, Steps.run]
      exact Step.guardedAll_stays ss h
  | .mk ss (some e), h => by
      obtain ⟨hss, he⟩ := inside_append.mp h
      rw [Steps.guarded, Steps.run]
      refine (Step.guardedAll_stays ss hss).bind fun r => ?_
      cases r with
      | give v => exact .pure _
      | next => exact (Code.guarded_stays fuel e he).bind fun _ => .pure _
  termination_by structural b => b

theorem Step.guardedAll_stays : ∀ ss : List Step, Inside size (Steps.mentionsAll ss) →
    Guarded.Stays size (Step.guardedAll fuel ss) (Step.runAll fuel ss)
  | [], _ => .pure _
  | s :: ss, h => by
      obtain ⟨hs, hss⟩ := inside_append.mp h
      rw [Step.guardedAll, Step.runAll]
      refine (Step.guarded_stays s hs).bind fun r => ?_
      cases r with
      | give v => exact .pure _
      | next => exact Step.guardedAll_stays ss hss
  termination_by structural ss => ss

end

theorem Steps.guardedValue_stays (b : Steps) (h : Inside size b.mentions) :
    Guarded.Stays size (b.guardedValue fuel) (b.value fuel) := by
  match b with
  | .mk ss none =>
      rw [Steps.guardedValue, Steps.value]
      refine (Step.guardedAll_stays fuel ss h).bind fun r => ?_
      cases r <;> exact .pure _
  | .mk ss (some e) =>
      obtain ⟨hss, he⟩ := inside_append.mp h
      rw [Steps.guardedValue, Steps.value]
      refine (Step.guardedAll_stays fuel ss hss).bind fun r => ?_
      cases r with
      | give v => exact .pure _
      | next => exact Code.guarded_stays fuel e he

end

namespace Artifact

/-- The frame of a call has every slot that the code mentions, and one for each argument. -/
structure Framed (a : Artifact) : Prop where
  args : a.arity ≤ a.slotCount
  slots : Inside a.slotCount a.body.mentions

/-- A call of an artifact whose frame has every slot makes each access inside its frame. -/
theorem Framed.guarded_eq {a : Artifact} (h : a.Framed) (fuel : Nat) (args : List Value) :
    a.guarded fuel args = (a.call fuel args).map .ok := by
  obtain ⟨info, count, body⟩ := a
  rw [Artifact.guarded, Artifact.call]
  split
  · rfl
  · next hargs =>
    have hle : args.length ≤ count := not_not.mp hargs ▸ h.args
    have hsize : ((args.map some).toArray ++
        Array.replicate (count - args.length) (none : Option Value)).size = count := by
      simp only [Array.size_append, List.size_toArray, List.length_map, Array.size_replicate]
      omega
    dsimp only
    obtain ⟨v, slots, hx, hy, -⟩ | ⟨e, hx, hy⟩ :=
      Steps.guardedValue_stays fuel body h.slots _ hsize
    · rw [hx, hy]
      rfl
    · rw [hx, hy]
      rfl

end Artifact

end Graft
