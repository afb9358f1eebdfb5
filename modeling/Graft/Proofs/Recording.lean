import Graft.Proofs.Simulation

/-!
# The calls that an artifact makes

A run of code gives a value and does not tell what was called on the way. A recorded run makes the
same steps and notes each call of a primitive or of a linked artifact when it is made, with its
arguments. Without the notes a recorded run is the run. What a callee calls in turn is not noted.
-/

namespace Graft

/-- A call that code makes. -/
structure LinkedCall where
  callee : Compile.Target
  args : List Value

/-- A step of an artifact that notes its calls, in the order in which they are made. -/
abbrev Recorder := StateT (List LinkedCall) Exec

namespace Recorder

/-- Notes a call that is about to be made. -/
def note (callee : Compile.Target) (args : List Value) : Recorder Unit :=
  modify fun calls => calls ++ [⟨callee, args⟩]

/-- Runs `body` for `count` successive values of the counter, until one gives a value. -/
def forLoop (slot : Nat) (body : Recorder Flow) : Nat → Int → Recorder Flow
  | 0, _ => pure .next
  | count + 1, i => do
    Exec.put slot (.num (Float.ofInt i))
    (← body).andThen (forLoop slot body count (i + 1))

/-- Runs `body` as long as `test` holds, until one gives a value. -/
def whileLoop (test : Recorder Bool) (body : Recorder Flow) : Nat → Recorder Flow
  | 0 => throw .exhausted
  | fuel + 1 => do
    if ← test then (← body).andThen (whileLoop test body fuel) else return .next

end Recorder

mutual

def Code.record (fuel : Nat) : Code → Recorder Value
  | .constant v s => liftM (Code.run fuel (.constant v s))
  | .slot n name outer s => liftM (Code.run fuel (.slot n name outer s))
  | .logical either l r _ => do
    let left ← Exec.at_ l.span (← Code.record fuel l).asBool
    if left == either then return .bool left
    else return .bool (← Exec.at_ r.span (← Code.record fuel r).asBool)
  | .binary op l r s => do
    let a ← Code.record fuel l
    let b ← Code.record fuel r
    Exec.at_ s (Value.binary op a b)
  | .unary op e s => do Exec.at_ s (Value.unary op (← Code.record fuel e))
  | .native n args s => do
    let values ← Code.recordAll fuel args
    Recorder.note (.native n) values
    Exec.at_ s (n.call values)
  | .linked callee args s => do
    let values ← Code.recordAll fuel args
    Recorder.note (.artifact callee) values
    match Artifact.call fuel callee values with
    | .ok v => pure v
    | .error e => throw (e.map (·.orSpan s))
  | .index e i s => do
    let base ← Code.record fuel e
    let n ← Exec.at_ i.span (← Code.record fuel i).asIndex
    Exec.at_ s (base.index n)
  | .slice e a b s => do
    let base ← Code.record fuel e
    let first ← Exec.at_ a.span (← Code.record fuel a).asIndex
    let last ← Exec.at_ b.span (← Code.record fuel b).asIndex
    Exec.at_ s (base.slice first last)
  | .array es _ => do return .array (← Code.recordNumbers fuel es).toArray
  | .tuple es _ => do return .tuple (← Code.recordAll fuel es)
  termination_by structural c => c

def Code.recordAll (fuel : Nat) : List Code → Recorder (List Value)
  | [] => pure []
  | c :: cs => do
    let v ← Code.record fuel c
    return v :: (← Code.recordAll fuel cs)
  termination_by structural cs => cs

def Code.recordNumbers (fuel : Nat) : List Code → Recorder (List Float)
  | [] => pure []
  | c :: cs => do
    let x ← Exec.at_ c.span (← Code.record fuel c).asNum
    return x :: (← Code.recordNumbers fuel cs)
  termination_by structural cs => cs

end

def Store.record (fuel : Nat) : Store → Value → Recorder Unit
  | .slot n, v => Exec.put n v
  | .discard, _ => pure ()
  | .element n name outer i s, v => do
    let p ← Exec.at_ i.span (← Code.record fuel i).asIndex
    match (← Exec.get? n).or outer with
    | none => throw (.report (Calls.undefinedName name s))
    | some current =>
      let stored ← Exec.at_ s (current.store p v)
      Exec.put n stored

def Store.recordAll (fuel : Nat) : List Store → List Value → Recorder Unit
  | p :: ps, v :: vs => do
    Store.record fuel p v
    Store.recordAll fuel ps vs
  | _, _ => pure ()

mutual

def Step.record (fuel : Nat) : Step → Recorder Flow
  | .bind n e => do
    let v ← Code.record fuel e
    Exec.put n v
    return .next
  | .bindAll ns e s => do
    let parts ← Exec.at_ s ((← Code.record fuel e).unpack ns.length)
    Exec.putAll ns parts
    return .next
  | .assign p e => do
    let v ← Code.record fuel e
    Store.record fuel p v
    return .next
  | .assignAll ps e s => do
    let parts ← Exec.at_ s ((← Code.record fuel e).unpack ps.length)
    Store.recordAll fuel ps parts
    return .next
  | .branch c yes none => do
    if ← Exec.at_ c.span (← Code.record fuel c).asBool then Steps.record fuel yes
    else return .next
  | .branch c yes (some no) => do
    if ← Exec.at_ c.span (← Code.record fuel c).asBool then Steps.record fuel yes
    else Steps.record fuel no
  | .forRange n a b body => do
    let first ← Exec.at_ a.span (← Code.record fuel a).asIndex
    let last ← Exec.at_ b.span (← Code.record fuel b).asIndex
    Recorder.forLoop n (Steps.record fuel body) (last - first).toNat first
  | .whileLoop c body =>
    Recorder.whileLoop (do Exec.at_ c.span (← Code.record fuel c).asBool)
      (Steps.record fuel body) fuel
  | .eval e => do
    let _ ← Code.record fuel e
    return .next
  | .give (some e) => do return .give (← Code.record fuel e)
  | .give none => return .give .unit
  termination_by structural s => s

def Steps.record (fuel : Nat) : Steps → Recorder Flow
  | .mk steps none => Step.recordAll fuel steps
  | .mk steps (some e) => do
    match ← Step.recordAll fuel steps with
    | .give v => return .give v
    | .next =>
      let _ ← Code.record fuel e
      return .next
  termination_by structural b => b

def Step.recordAll (fuel : Nat) : List Step → Recorder Flow
  | [] => return .next
  | s :: ss => do (← Step.record fuel s).andThen (Step.recordAll fuel ss)
  termination_by structural ss => ss

end

/-- The value of the steps of a function, with the calls noted. -/
def Steps.recordValue (fuel : Nat) : Steps → Recorder Value
  | .mk steps none => do
    match ← Step.recordAll fuel steps with
    | .give v => return v
    | .next => return .unit
  | .mk steps (some e) => do
    match ← Step.recordAll fuel steps with
    | .give v => return v
    | .next => Code.record fuel e

/-- Calls an artifact; gives its value and the calls that it makes. -/
def Artifact.record (fuel : Nat) : Artifact → List Value → Except Fault (Value × List LinkedCall)
  | .mk info slotCount body, args =>
    if args.length ≠ info.definition.params.length then
      .error (.report (info.definition.wrongArity args.length))
    else
      let slots : Slots := (args.map some).toArray ++ Array.replicate (slotCount - args.length) none
      (Steps.recordValue fuel body [] slots).map Prod.fst

/-! ## Without the notes -/

/-- Without its notes, the step does what the other one does. -/
def Recorder.Erases {α : Type} (x : Recorder α) (y : Exec α) : Prop :=
  ∀ calls slots, (x calls slots).map (fun r => (r.1.1, r.2)) = y slots

namespace Recorder

variable {α β : Type}

theorem bind_apply (x : Recorder α) (f : α → Recorder β) (calls : List LinkedCall) (slots : Slots) :
    (x >>= f) calls slots = match x calls slots with
      | .ok ((a, calls), slots) => f a calls slots
      | .error e => .error e := by
  simp only [bind, StateT.bind, Except.bind]
  rcases x calls slots with _ | _ <;> rfl

theorem lift_apply (y : Exec α) (calls : List LinkedCall) (slots : Slots) :
    (liftM y : Recorder α) calls slots = (y slots).map fun r => ((r.1, calls), r.2) := by
  simp only [liftM, monadLift, MonadLift.monadLift, StateT.lift, Bind.bind, StateT.bind,
    Except.bind]
  rcases y slots with _ | _ <;> rfl

namespace Erases

theorem pure (a : α) : Erases (pure a) (pure a) := fun _ _ => rfl

theorem throw (e : Fault) : Erases (throw e : Recorder α) (throw e) := fun _ _ => rfl

theorem lift (y : Exec α) : Erases (liftM y : Recorder α) y := by
  intro calls slots
  rw [lift_apply]
  rcases y slots with _ | _ <;> rfl

theorem bind {x : Recorder α} {y : Exec α} {f : α → Recorder β} {g : α → Exec β}
    (h : Erases x y) (k : ∀ a, Erases (f a) (g a)) : Erases (x >>= f) (y >>= g) := by
  intro calls slots
  rw [bind_apply, Exec.bind_apply, ← h calls slots]
  rcases x calls slots with e | ⟨⟨a, calls'⟩, slots'⟩
  · rfl
  · exact k a calls' slots'

/-- A call is noted, and then made. -/
theorem noted {x : Recorder (List Value)} {y : Exec (List Value)} {f : List Value → Recorder α}
    {g : List Value → Exec α} {callee : Compile.Target} (h : Erases x y)
    (k : ∀ a, Erases (f a) (g a)) :
    Erases (do
      let values ← x
      Recorder.note callee values
      f values) (y >>= g) := by
  refine h.bind fun values calls slots => ?_
  rw [bind_apply]
  exact k values (calls ++ [⟨callee, values⟩]) slots

theorem andThen {x : Recorder Flow} {y : Exec Flow} (h : Erases x y) (r : Flow) :
    Erases (r.andThen x) (r.andThen y) := by
  cases r with
  | next => exact h
  | give v => exact .pure _

theorem forLoop {body : Recorder Flow} {run : Exec Flow} (h : Erases body run) (slot : Nat)
    (count : Nat) (i : Int) :
    Erases (Recorder.forLoop slot body count i) (Exec.forLoop slot run count i) := by
  induction count generalizing i with
  | zero => exact .pure _
  | succ count ih =>
      rw [Recorder.forLoop, Exec.forLoop_succ]
      exact (lift _).bind fun _ => h.bind fun r => (ih (i + 1)).andThen r

theorem whileLoop {test : Recorder Bool} {check : Exec Bool} {body : Recorder Flow}
    {run : Exec Flow} (ht : Erases test check) (h : Erases body run) (fuel : Nat) :
    Erases (Recorder.whileLoop test body fuel) (Exec.whileLoop check run fuel) := by
  induction fuel with
  | zero => exact .throw _
  | succ fuel ih =>
      rw [Recorder.whileLoop, Exec.whileLoop_succ]
      refine ht.bind fun b => ?_
      cases b with
      | true => exact h.bind fun r => ih.andThen r
      | false => exact .pure _

end Erases

end Recorder

open Recorder

mutual

theorem Code.record_erases (fuel : Nat) : ∀ c : Code, Erases (c.record fuel) (c.run fuel)
  | .constant v s => .lift _
  | .slot n name outer s => .lift _
  | .logical either l r s => by
      rw [Code.record, Code.run]
      refine (Code.record_erases fuel l).bind fun v => (Erases.lift _).bind fun left => ?_
      split
      · exact .pure _
      · exact (Code.record_erases fuel r).bind fun v => (Erases.lift _).bind fun _ => .pure _
  | .binary op l r s => by
      rw [Code.record, Code.run]
      exact (Code.record_erases fuel l).bind fun _ =>
        (Code.record_erases fuel r).bind fun _ => .lift _
  | .unary op e s => by
      rw [Code.record, Code.run]
      exact (Code.record_erases fuel e).bind fun _ => .lift _
  | .native n args s => by
      rw [Code.record, Code.run]
      exact (Code.recordAll_erases fuel args).noted fun _ => .lift _
  | .linked callee args s => by
      rw [Code.record, Code.run]
      refine (Code.recordAll_erases fuel args).noted fun values => ?_
      cases callee.call fuel values with
      | ok v => exact .pure _
      | error e => exact .throw _
  | .index e i s => by
      rw [Code.record, Code.run]
      exact (Code.record_erases fuel e).bind fun _ => (Code.record_erases fuel i).bind fun _ =>
        (Erases.lift _).bind fun _ => .lift _
  | .slice e a b s => by
      rw [Code.record, Code.run]
      exact (Code.record_erases fuel e).bind fun _ => (Code.record_erases fuel a).bind fun _ =>
        (Erases.lift _).bind fun _ => (Code.record_erases fuel b).bind fun _ =>
          (Erases.lift _).bind fun _ => .lift _
  | .array es s => by
      rw [Code.record, Code.run]
      exact (Code.recordNumbers_erases fuel es).bind fun _ => .pure _
  | .tuple es s => by
      rw [Code.record, Code.run]
      exact (Code.recordAll_erases fuel es).bind fun _ => .pure _
  termination_by structural c => c

theorem Code.recordAll_erases (fuel : Nat) :
    ∀ cs : List Code, Erases (Code.recordAll fuel cs) (Code.runAll fuel cs)
  | [] => .pure _
  | c :: cs => by
      rw [Code.recordAll, Code.runAll]
      exact (Code.record_erases fuel c).bind fun _ =>
        (Code.recordAll_erases fuel cs).bind fun _ => .pure _
  termination_by structural cs => cs

theorem Code.recordNumbers_erases (fuel : Nat) :
    ∀ cs : List Code, Erases (Code.recordNumbers fuel cs) (Code.runNumbers fuel cs)
  | [] => .pure _
  | c :: cs => by
      rw [Code.recordNumbers, Code.runNumbers]
      exact (Code.record_erases fuel c).bind fun _ => (Erases.lift _).bind fun _ =>
        (Code.recordNumbers_erases fuel cs).bind fun _ => .pure _
  termination_by structural cs => cs

end

theorem Store.record_erases (fuel : Nat) (p : Store) (v : Value) :
    Erases (p.record fuel v) (p.run fuel v) := by
  cases p with
  | slot n => exact .lift _
  | discard => exact .pure _
  | element n name outer i s =>
      rw [Store.record, Store.run]
      refine (Code.record_erases fuel i).bind fun _ => (Erases.lift _).bind fun p =>
        (Erases.lift _).bind fun current => ?_
      cases current.or outer with
      | none => exact .throw _
      | some current => exact (Erases.lift _).bind fun _ => .lift _

theorem Store.recordAll_erases (fuel : Nat) (ps : List Store) (vs : List Value) :
    Erases (Store.recordAll fuel ps vs) (Store.runAll fuel ps vs) := by
  induction ps generalizing vs with
  | nil => cases vs <;> exact .pure _
  | cons p ps ih =>
      cases vs with
      | nil => exact .pure _
      | cons v vs =>
          rw [Store.recordAll, Store.runAll]
          exact (Store.record_erases fuel p v).bind fun _ => ih vs

mutual

theorem Step.record_erases (fuel : Nat) : ∀ s : Step, Erases (s.record fuel) (s.run fuel)
  | .bind n e => by
      rw [Step.record, Step.run]
      exact (Code.record_erases fuel e).bind fun _ => (Erases.lift _).bind fun _ => .pure _
  | .bindAll ns e s => by
      rw [Step.record, Step.run]
      exact (Code.record_erases fuel e).bind fun _ => (Erases.lift _).bind fun _ =>
        (Erases.lift _).bind fun _ => .pure _
  | .assign p e => by
      rw [Step.record, Step.run]
      exact (Code.record_erases fuel e).bind fun v =>
        (Store.record_erases fuel p v).bind fun _ => .pure _
  | .assignAll ps e s => by
      rw [Step.record, Step.run]
      exact (Code.record_erases fuel e).bind fun _ => (Erases.lift _).bind fun vs =>
        (Store.recordAll_erases fuel ps vs).bind fun _ => .pure _
  | .branch c yes none => by
      rw [Step.record, Step.run]
      refine (Code.record_erases fuel c).bind fun _ => (Erases.lift _).bind fun b => ?_
      split
      · exact Steps.record_erases fuel yes
      · exact .pure _
  | .branch c yes (some no) => by
      rw [Step.record, Step.run]
      refine (Code.record_erases fuel c).bind fun _ => (Erases.lift _).bind fun b => ?_
      split
      · exact Steps.record_erases fuel yes
      · exact Steps.record_erases fuel no
  | .forRange n a b body => by
      rw [Step.record, Step.run]
      exact (Code.record_erases fuel a).bind fun _ => (Erases.lift _).bind fun _ =>
        (Code.record_erases fuel b).bind fun _ => (Erases.lift _).bind fun _ =>
          (Steps.record_erases fuel body).forLoop n _ _
  | .whileLoop c body => by
      rw [Step.record, Step.run]
      exact ((Code.record_erases fuel c).bind fun _ => .lift _).whileLoop
        (Steps.record_erases fuel body) fuel
  | .eval e => by
      rw [Step.record, Step.run]
      exact (Code.record_erases fuel e).bind fun _ => .pure _
  | .give (some e) => by
      rw [Step.record, Step.run]
      exact (Code.record_erases fuel e).bind fun _ => .pure _
  | .give none => .pure _
  termination_by structural s => s

theorem Steps.record_erases (fuel : Nat) : ∀ b : Steps, Erases (b.record fuel) (b.run fuel)
  | .mk steps none => Step.recordAll_erases fuel steps
  | .mk steps (some e) => by
      rw [Steps.record, Steps.run]
      refine (Step.recordAll_erases fuel steps).bind fun r => ?_
      cases r with
      | give v => exact .pure _
      | next => exact (Code.record_erases fuel e).bind fun _ => .pure _
  termination_by structural b => b

theorem Step.recordAll_erases (fuel : Nat) :
    ∀ ss : List Step, Erases (Step.recordAll fuel ss) (Step.runAll fuel ss)
  | [] => .pure _
  | s :: ss => by
      rw [Step.recordAll, Step.runAll]
      refine (Step.record_erases fuel s).bind fun r => ?_
      cases r with
      | give v => exact .pure _
      | next => exact Step.recordAll_erases fuel ss
  termination_by structural ss => ss

end

theorem Steps.recordValue_erases (fuel : Nat) (b : Steps) :
    Erases (b.recordValue fuel) (b.value fuel) := by
  obtain ⟨steps, tail⟩ := b
  cases tail with
  | none =>
      rw [Steps.recordValue, Steps.value]
      refine (Step.recordAll_erases fuel steps).bind fun r => ?_
      cases r <;> exact .pure _
  | some e =>
      rw [Steps.recordValue, Steps.value]
      refine (Step.recordAll_erases fuel steps).bind fun r => ?_
      cases r with
      | give v => exact .pure _
      | next => exact Code.record_erases fuel e

/-- A call with its calls noted gives what the call gives. -/
theorem Artifact.map_record (fuel : Nat) (a : Artifact) (args : List Value) :
    (a.record fuel args).map Prod.fst = a.call fuel args := by
  obtain ⟨info, slotCount, body⟩ := a
  rw [Artifact.record, Artifact.call]
  split
  · rfl
  · dsimp only
    rw [← Steps.recordValue_erases fuel body []]
    rcases body.recordValue fuel [] _ with _ | _ <;> rfl

/-! ## What a recorded run does -/

/-- From the slots `s` the step gives `a` and leaves the slots `t`, and on the way it makes the
calls. -/
def Recorder.Does {α : Type} (x : Recorder α) (s : Slots) (a : α) (made : List LinkedCall)
    (t : Slots) : Prop :=
  ∀ calls, x calls s = .ok ((a, calls ++ made), t)

namespace Recorder.Does

variable {α β : Type} {x : Recorder α} {s t u : Slots} {a : α} {b : β} {made more : List LinkedCall}

theorem pure (a : α) (s : Slots) : Recorder.Does (pure a) s a [] s := fun calls => by
  rw [List.append_nil]
  rfl

theorem lift {y : Exec α} (h : y s = .ok (a, t)) : Recorder.Does (liftM y) s a [] t := by
  intro calls
  rw [lift_apply, h, List.append_nil]
  rfl

theorem at_ {o : Outcome α} (h : o = .ok a) (span : Span) (s : Slots) :
    Recorder.Does (liftM (Exec.at_ span o)) s a [] s := by
  refine lift ?_
  rw [h]
  rfl

theorem note (callee : Compile.Target) (args : List Value) (s : Slots) :
    Recorder.Does (Recorder.note callee args) s ⟨⟩ [⟨callee, args⟩] s := fun _ => rfl

theorem bind {f : α → Recorder β} (h : x.Does s a made t) (k : (f a).Does t b more u) :
    (x >>= f).Does s b (made ++ more) u := fun calls => by
  rw [bind_apply, h calls]
  dsimp only
  rw [k (calls ++ made), List.append_assoc]

/-- A step that makes no calls comes first. -/
theorem bindQuiet {f : α → Recorder β} (h : x.Does s a [] t) (k : (f a).Does t b made u) :
    (x >>= f).Does s b made u := h.bind k

/-- A step that makes no calls comes last. -/
theorem bindLast {f : α → Recorder β} (h : x.Does s a made t) (k : (f a).Does t b [] u) :
    (x >>= f).Does s b made u := by
  have both := h.bind k
  rwa [List.append_nil] at both

/-- Each round of a loop takes the slots of one round to those of the next. -/
theorem forLoop {slot : Nat} {body : Recorder Flow} {inv : Nat → Slots}
    {made : Nat → List LinkedCall} (count : Nat) (first : Int)
    (step : ∀ k < count, body.Does
      ((inv k).setIfInBounds slot (some (.num (Float.ofInt (first + k))))) .next (made k)
      (inv (k + 1))) :
    (Recorder.forLoop slot body count first).Does (inv 0) .next ((List.range count).flatMap made)
      (inv count) := by
  -- by induction on the rounds that are left, of which the first is not the first of all
  have rounds : ∀ left done, done + left = count →
      (Recorder.forLoop slot body left (first + done)).Does (inv done) .next
        ((List.range' done left).flatMap made) (inv count) := by
    intro left
    induction left with
    | zero =>
        rintro done rfl
        exact pure _ _
    | succ left ih =>
        intro done hdone
        rw [Recorder.forLoop, List.range'_succ, List.flatMap_cons]
        have rest := ih (done + 1) (by omega)
        rw [Int.natCast_add, Int.natCast_one, ← Int.add_assoc] at rest
        exact (lift (Exec.put_apply _ _ _)).bindQuiet ((step done (by omega)).bind rest)
  have all := rounds count 0 (Nat.zero_add count)
  rwa [Int.natCast_zero, Int.add_zero, ← List.range_eq_range'] at all

end Recorder.Does

namespace Code

variable {s : Slots} {made : List LinkedCall} {fuel : Nat} {v w : Value} {c d e : Code}

theorem constant_does (v : Value) (span : Span) (s : Slots) :
    ((constant v span).record fuel).Does s v [] s := by
  rw [record]
  exact .lift rfl

/-- A slot that is filled is read. -/
theorem slot_does {n : Nat} (h : s.getD n none = some v) (name : String) (outer : Option Value)
    (span : Span) : ((slot n name outer span).record fuel).Does s v [] s := by
  rw [record]
  refine .lift ?_
  rw [run, Exec.bind_apply, Exec.get?_apply, h]
  rfl

theorem binary_does {op : BinaryOp} {r : Value} (hc : (c.record fuel).Does s v made s)
    (hd : (d.record fuel).Does s w [] s) (h : Value.binary op v w = .ok r) (span : Span) :
    ((binary op c d span).record fuel).Does s r made s := by
  rw [record]
  exact hc.bindLast (hd.bindQuiet (.at_ h span s))

theorem slice_does {first last : Value} {m n : Int} {r : Value} (hc : (c.record fuel).Does s v [] s)
    (hd : (d.record fuel).Does s first [] s) (hm : first.asIndex = .ok m)
    (he : (e.record fuel).Does s last [] s) (hn : last.asIndex = .ok n) (h : v.slice m n = .ok r)
    (span : Span) : ((slice c d e span).record fuel).Does s r [] s := by
  rw [record]
  exact hc.bindQuiet (hd.bindQuiet (.bindQuiet (.at_ hm _ s)
    (he.bindQuiet (.bindQuiet (.at_ hn _ s) (.at_ h span s)))))

theorem index_does {at_ : Value} {n : Int} {r : Value} (hc : (c.record fuel).Does s v [] s)
    (hd : (d.record fuel).Does s at_ [] s) (hn : at_.asIndex = .ok n) (h : v.index n = .ok r)
    (span : Span) : ((index c d span).record fuel).Does s r [] s := by
  rw [record]
  exact hc.bindQuiet (hd.bindQuiet (.bindQuiet (.at_ hn _ s) (.at_ h span s)))

theorem recordAll_nil_does (s : Slots) : (recordAll fuel []).Does s [] [] s := by
  rw [recordAll]
  exact .pure [] s

theorem recordAll_cons_does {cs : List Code} {vs : List Value} (hc : (c.record fuel).Does s v [] s)
    (hcs : (recordAll fuel cs).Does s vs [] s) :
    (recordAll fuel (c :: cs)).Does s (v :: vs) [] s := by
  rw [recordAll]
  exact hc.bindQuiet (hcs.bindQuiet (.pure _ s))

theorem native_does {n : Native} {cs : List Code} {vs : List Value}
    (hcs : (recordAll fuel cs).Does s vs [] s) (h : n.call vs = .ok v) (span : Span) :
    ((native n cs span).record fuel).Does s v [⟨.native n, vs⟩] s := by
  rw [record]
  exact hcs.bindQuiet ((Recorder.Does.note _ _ s).bind (.at_ h span s))

theorem linked_does {a : Artifact} {cs : List Code} {vs : List Value}
    (hcs : (recordAll fuel cs).Does s vs [] s) (h : a.call fuel vs = .ok v) (span : Span) :
    ((linked a cs span).record fuel).Does s v [⟨.artifact a, vs⟩] s := by
  rw [record]
  refine hcs.bindQuiet ((Recorder.Does.note _ _ s).bind ?_)
  rw [h]
  exact .pure v s

end Code

/-- An element of the array in a slot is stored. -/
theorem Store.element_does {n : Nat} {fuel : Nat} {s : Slots} {c : Code} {p : Int}
    {v at_ current stored : Value} (hc : (c.record fuel).Does s at_ [] s)
    (hp : at_.asIndex = .ok p) (hcurrent : s.getD n none = some current)
    (h : current.store p v = .ok stored) (name : String) (outer : Option Value) (span : Span) :
    ((Store.element n name outer c span).record fuel v).Does s ⟨⟩ []
      (s.setIfInBounds n (some stored)) := by
  rw [Store.record]
  refine hc.bindQuiet (.bindQuiet (.at_ hp _ s) (.bindQuiet (.lift (Exec.get?_apply n s)) ?_))
  rw [hcurrent]
  exact .bindQuiet (.at_ h span s) (.lift (Exec.put_apply _ _ s))

theorem Store.slot_does (n fuel : Nat) (v : Value) (s : Slots) :
    ((Store.slot n).record fuel v).Does s ⟨⟩ [] (s.setIfInBounds n (some v)) := by
  rw [Store.record]
  exact .lift (Exec.put_apply n v s)

theorem Store.recordAll_nil_does (fuel : Nat) (s : Slots) :
    (Store.recordAll fuel [] []).Does s ⟨⟩ [] s := by
  rw [Store.recordAll]
  · exact .pure _ s
  · intro p ps v vs h
    cases h

theorem Store.recordAll_cons_does {p : Store} {ps : List Store} {fuel : Nat} {v : Value}
    {vs : List Value} {s t u : Slots} (hp : (p.record fuel v).Does s ⟨⟩ [] t)
    (hps : (Store.recordAll fuel ps vs).Does t ⟨⟩ [] u) :
    (Store.recordAll fuel (p :: ps) (v :: vs)).Does s ⟨⟩ [] u := by
  rw [Store.recordAll]
  exact hp.bindQuiet hps

namespace Step

variable {s t u : Slots} {made more : List LinkedCall} {fuel : Nat} {v : Value} {e : Code}

theorem bind_does (he : (e.record fuel).Does s v made s) (n : Nat) :
    ((bind n e).record fuel).Does s .next made (s.setIfInBounds n (some v)) := by
  rw [record]
  exact he.bindLast (.bindQuiet (.lift (Exec.put_apply n v s)) (.pure _ _))

theorem assign_does {p : Store} (he : (e.record fuel).Does s v made s)
    (hp : (p.record fuel v).Does s ⟨⟩ [] t) : ((assign p e).record fuel).Does s .next made t := by
  rw [record]
  exact he.bindLast (hp.bindQuiet (.pure _ _))

theorem assignAll_does {ps : List Store} {parts : List Value} (he : (e.record fuel).Does s v made s)
    (h : v.unpack ps.length = .ok parts) (hps : (Store.recordAll fuel ps parts).Does s ⟨⟩ [] t)
    (span : Span) : ((assignAll ps e span).record fuel).Does s .next made t := by
  rw [record]
  exact he.bindLast (.bindQuiet (.at_ h span s) (hps.bindQuiet (.pure _ t)))

theorem forRange_does {n : Nat} {a b : Code} {body : Steps} {first last : Value} {i j : Int}
    (ha : (a.record fuel).Does s first [] s) (hi : first.asIndex = .ok i)
    (hb : (b.record fuel).Does s last made s) (hj : last.asIndex = .ok j)
    (hbody : (Recorder.forLoop n (body.record fuel) (j - i).toNat i).Does s .next more t) :
    ((forRange n a b body).record fuel).Does s .next (made ++ more) t := by
  rw [record]
  exact ha.bindQuiet (.bindQuiet (.at_ hi _ s) (hb.bind (.bindQuiet (.at_ hj _ s) hbody)))

theorem recordAll_nil_does (s : Slots) : (recordAll fuel []).Does s .next [] s := by
  rw [recordAll]
  exact .pure _ s

theorem recordAll_cons_does {step : Step} {rest : List Step}
    (h : (step.record fuel).Does s .next made t)
    (hrest : (recordAll fuel rest).Does t .next more u) :
    (recordAll fuel (step :: rest)).Does s .next (made ++ more) u := by
  rw [recordAll]
  exact h.bind hrest

end Step

/-- The steps of a function, and then its last expression. -/
theorem Steps.recordValue_does {steps : List Step} {e : Code} {fuel : Nat} {s t : Slots}
    {made : List LinkedCall} {v : Value} (h : (Step.recordAll fuel steps).Does s .next made t)
    (he : (e.record fuel).Does t v [] t) :
    ((Steps.mk steps (some e)).recordValue fuel).Does s v made t := by
  rw [recordValue]
  exact h.bindLast he

/-- A call whose arguments fit runs the steps. -/
theorem Artifact.record_eq_ok {info : ArtifactInfo} {slotCount fuel : Nat} {body : Steps}
    {args : List Value} {v : Value} {made : List LinkedCall} {t : Slots}
    (hargs : args.length = info.definition.params.length)
    (h : (body.recordValue fuel).Does
      ((args.map some).toArray ++ Array.replicate (slotCount - args.length) none) v made t) :
    (Artifact.mk info slotCount body).record fuel args = .ok (v, made) := by
  rw [record, if_neg (not_not.mpr hargs)]
  dsimp only
  rw [h []]
  rfl

theorem Artifact.call_eq_ok {info : ArtifactInfo} {slotCount fuel : Nat} {body : Steps}
    {args : List Value} {v : Value} {made : List LinkedCall} {t : Slots}
    (hargs : args.length = info.definition.params.length)
    (h : (body.recordValue fuel).Does
      ((args.map some).toArray ++ Array.replicate (slotCount - args.length) none) v made t) :
    (Artifact.mk info slotCount body).call fuel args = .ok v := by
  rw [← map_record, record_eq_ok hargs h]
  rfl

/-! ## What a recorded run fails with -/

/-- From the slots `s` the step fails, whatever was called before. -/
def Recorder.Fails {α : Type} (x : Recorder α) (s : Slots) (e : Fault) : Prop :=
  ∀ calls, x calls s = .error e

namespace Recorder.Fails

variable {α β : Type} {x : Recorder α} {s t : Slots} {a : α} {e : Fault} {made : List LinkedCall}

theorem at_ {o : Outcome α} {d : Diagnostic} (h : o = .error d) (span : Span) (s : Slots) :
    Recorder.Fails (liftM (Exec.at_ span o)) s (.report (d.orSpan span)) := by
  intro calls
  rw [lift_apply, h]
  rfl

theorem first (h : x.Fails s e) (f : α → Recorder β) : (x >>= f).Fails s e := fun calls => by
  rw [bind_apply, h calls]

theorem after {f : α → Recorder β} (h : x.Does s a made t) (k : (f a).Fails t e) :
    (x >>= f).Fails s e := fun calls => by
  rw [bind_apply, h calls]
  exact k (calls ++ made)

end Recorder.Fails

section

variable {s t : Slots} {made : List LinkedCall} {fuel : Nat} {e : Fault}

/-- A place outside of what is indexed. -/
theorem Code.index_fails {c d : Code} {v at_ : Value} {n : Int} {report : Diagnostic}
    (hc : (c.record fuel).Does s v [] s) (hd : (d.record fuel).Does s at_ [] s)
    (hn : at_.asIndex = .ok n) (h : v.index n = .error report) (span : Span) :
    ((index c d span).record fuel).Fails s (.report (report.orSpan span)) := by
  rw [record]
  exact .after hc (.after hd (.after (.at_ hn _ s) (.at_ h span s)))

theorem Code.recordAll_cons_fails {c : Code} (h : (c.record fuel).Fails s e) (cs : List Code) :
    (recordAll fuel (c :: cs)).Fails s e := by
  rw [recordAll]
  exact h.first _

theorem Code.recordAll_cons_after {c : Code} {cs : List Code} {v : Value}
    (hc : (c.record fuel).Does s v [] s) (h : (recordAll fuel cs).Fails s e) :
    (recordAll fuel (c :: cs)).Fails s e := by
  rw [recordAll]
  exact .after hc (h.first _)

theorem Step.assignAll_fails {c : Code} (h : (c.record fuel).Fails s e) (ps : List Store)
    (span : Span) : ((assignAll ps c span).record fuel).Fails s e := by
  rw [record]
  exact h.first _

theorem Step.recordAll_cons_fails {step : Step} (h : (step.record fuel).Fails s e)
    (rest : List Step) : (recordAll fuel (step :: rest)).Fails s e := by
  rw [recordAll]
  exact h.first _

theorem Step.recordAll_cons_after {step : Step} {rest : List Step}
    (hstep : (step.record fuel).Does s .next made t) (h : (recordAll fuel rest).Fails t e) :
    (recordAll fuel (step :: rest)).Fails s e := by
  rw [recordAll]
  exact .after hstep h

theorem Steps.recordValue_fails {steps : List Step} (h : (Step.recordAll fuel steps).Fails s e)
    (tail : Code) : ((Steps.mk steps (some tail)).recordValue fuel).Fails s e := by
  rw [recordValue]
  exact h.first _

/-- A call whose arguments fit fails where the steps do. -/
theorem Artifact.call_eq_error {info : ArtifactInfo} {slotCount : Nat} {body : Steps}
    {args : List Value} (hargs : args.length = info.definition.params.length)
    (h : (body.recordValue fuel).Fails
      ((args.map some).toArray ++ Array.replicate (slotCount - args.length) none) e) :
    (Artifact.mk info slotCount body).call fuel args = .error e := by
  rw [← map_record, record, if_neg (not_not.mpr hargs)]
  dsimp only
  rw [h []]
  rfl

end

end Graft
