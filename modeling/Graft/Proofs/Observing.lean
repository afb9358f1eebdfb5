import Graft.Gateway.Call
import Graft.Proofs.Correspondence

/-!
# Calls that are observed

A call can be run over any state that holds the world, with something done around every evaluation of
a body: an observer says how. The observer that does nothing is the program itself. Two observers of
calls correspond when they see the same bindings and what they do around bodies corresponds, so that
a property of calls takes one induction on the levels that are left, whatever is observed.
-/

namespace Graft

/-- How calls are run over states that hold the world. -/
structure Observer (σ : Type) where
  /-- What the world does by itself, as a step over such states. -/
  lift {α : Type} : Act α → Run σ α
  /-- What is done around the evaluation of a body. -/
  around : Run σ Value → Run σ Value

namespace Observer

variable {σ τ : Type}

/-- How a callable with substitutions made ahead is called. -/
abbrev BoundCall (σ : Type) := Gateway → List (String × Callable) → List Value → Run σ Value

/-- What the body of a function sees of the world; `call` calls what a bare name is bound to. -/
def scope (o : Observer σ) (f : Function) (call : Callable → List Value → Run σ Value) :
    Scope σ where
  outer name span := do
    match Dictionary.get? name f.captures with
    | some v => return v
    | none =>
      match (← o.lift get).lookup f.home name with
      | some (.constant v) => return v
      | some (.callable c) => Run.fail (Calls.notAValue c span)
      | none => Run.fail (Calls.undefinedName name span)
  call p args span := do
    match p.single? with
    | none =>
      let n ← Run.ofOutcome (Calls.member? p span)
      Run.ofOutcome (n.call args)
    | some name =>
      match (← o.lift get).lookup f.home name with
      | some (.callable c) => call c args
      | some (.constant v) => Run.fail (Calls.notAFunction name v span)
      | none =>
        match Native.builtin? name with
        | some n => Run.ofOutcome (n.call args)
        | none => Run.fail (Calls.undefinedFunction name span)

/-- Calls a function when `depth` more levels are left out of `limit`. -/
def callAt (o : Observer σ) (bound : BoundCall σ) (limit : Nat) (depth : Nat) (f : Function)
    (args : List Value) : Run σ Value := do
  if args.length ≠ f.arity then Run.fail (f.definition.wrongArity args.length)
  else
    match depth with
    | 0 => Run.fail (f.tooDeep limit)
    | depth + 1 =>
      let _ ← Run.ofOutcome ((← o.lift get).home f)
      let call (c : Callable) (args : List Value) : Run σ Value :=
        match c with
        | .function g => callAt o bound limit depth g args
        | .gateway g => callAt o bound limit depth g.function args
        | .artifact a => Run.ofExcept (a.call ampleFuel args)
        | .native n => Run.ofOutcome (n.call args)
        | .bound _ g overrides _ => bound g overrides args
      o.around (f.definition.value (o.scope f call) ampleFuel args)

/-- What a call by name does in a frame that `depth` more levels are left for. -/
def callee (o : Observer σ) (bound : BoundCall σ) (limit depth : Nat) (c : Callable)
    (args : List Value) : Run σ Value :=
  match c with
  | .function g => o.callAt bound limit depth g args
  | .gateway g => o.callAt bound limit depth g.function args
  | .artifact a => Run.ofExcept (a.call ampleFuel args)
  | .native n => Run.ofOutcome (n.call args)
  | .bound _ g overrides _ => bound g overrides args

/-- Calls a function as it is, without substitutions. -/
def call (o : Observer σ) (bound : BoundCall σ) (f : Function) (args : List Value) :
    Run σ Value := do
  let home ← Run.ofOutcome ((← o.lift get).home f)
  o.callAt bound home.maxRecursion home.maxRecursion f args

/-- Calls a gateway, given how callables with substitutions made ahead are called. -/
def callGateway (o : Observer σ) (bound : BoundCall σ) (g : Gateway) (args : List Value)
    (ks : Keywords) : Run σ Product := do
  let f := g.function
  let r ← Run.ofOutcome (Request.ofKeywords f ks)
  let debug := r.debug || (← o.lift get).settings.debug
  if r.overrides.isEmpty then
    if r.returnCallable then
      o.lift (Act.trace debug ("compiling `" ++ f.name ++ "` without overrides"))
      return .artifact (← o.lift f.compile)
    else
      let args ← Run.ofOutcome (f.arguments args r.values)
      return .value (← o.call bound f args)
  else
    let a ← o.lift (f.specialize r.overrides debug)
    if r.returnCallable then return .artifact a
    else
      let args ← Run.ofOutcome (f.arguments args r.values)
      return .value (← Run.ofExcept (a.call ampleFuel args))

/-- Calls a gateway with substitutions made ahead. -/
def callBound (o : Observer σ) : Nat → BoundCall σ
  | 0, _, _, _ => throw .exhausted
  | fuel + 1, g, overrides, args => do
    Run.ofOutcome (← o.callGateway (o.callBound fuel) g args (.ofOverrides overrides)).asValue

theorem callAt_succ (o : Observer σ) (bound : BoundCall σ) (limit depth : Nat) (f : Function)
    (args : List Value) :
    o.callAt bound limit (depth + 1) f args =
      if args.length ≠ f.arity then Run.fail (f.definition.wrongArity args.length)
      else (do
        let _ ← Run.ofOutcome ((← o.lift get).home f)
        o.around (f.definition.value (o.scope f (o.callee bound limit depth)) ampleFuel args)) := by
  rw [callAt]
  rfl

/-! ## The program -/

/-- The observer that does nothing. -/
def idle : Observer World where
  lift x := x
  around x := x

theorem idle_callAt (bound : Graft.BoundCall) (limit depth : Nat) (f : Function)
    (args : List Value) :
    idle.callAt bound limit depth f args = f.callAt bound limit depth args := by
  induction depth generalizing f args with
  | zero => rfl
  | succ depth ih =>
      rw [callAt, Function.callAt]
      simp only [ih]
      rfl

theorem idle_call (bound : Graft.BoundCall) (f : Function) (args : List Value) :
    idle.call bound f args = f.callWith bound args := by
  rw [call, Function.callWith]
  simp only [idle_callAt]
  rfl

theorem idle_callGateway (bound : Graft.BoundCall) (g : Gateway) (args : List Value)
    (ks : Keywords) : idle.callGateway bound g args ks = g.callWith bound args ks := by
  rw [callGateway, Gateway.callWith]
  simp only [idle_call]
  rfl

theorem idle_callBound (fuel : Nat) : idle.callBound fuel = Gateway.callBound fuel := by
  induction fuel with
  | zero => rfl
  | succ fuel ih =>
      funext g overrides args
      rw [callBound, Gateway.callBound, ih, idle_callGateway]

/-! ## Observers that correspond -/

section

variable {o : Observer σ} {o' : Observer τ} {known : Callable → Prop}

/-- Both worlds bind names to the same, and every callable among it is known. -/
def SameBindings (known : Callable → Prop) (w v : World) : Prop :=
  ∀ id name, w.lookup id name = v.lookup id name ∧
    ∀ c, w.lookup id name = some (.callable c) → known c

/-- Scopes of one function correspond if the calls of what is known do. -/
theorem scope_corresponds {k : Correspondence σ τ}
    (hlooks : k.Runs (SameBindings known) (o.lift get) (o'.lift get)) {f : Function}
    {call : Callable → List Value → Run σ Value} {call' : Callable → List Value → Run τ Value}
    (hcall : ∀ c, known c → ∀ args, k.Runs Eq (call c args) (call' c args)) :
    (o.scope f call).Corresponds k .all id (o'.scope f call') where
  reads n span span' hspan := by
    dsimp only [scope]
    cases Dictionary.get? n f.captures with
    | some v => exact .pure rfl
    | none =>
        apply hlooks.bind
        intro w v hwv
        rw [(hwv f.home n).1]
        split
        · exact .pure rfl
        · exact .throw (k.faults_locate _ hspan)
        · exact .throw (k.faults_locate _ hspan)
  calls p args span _ := by
    dsimp only [scope, id]
    cases p.single? with
    | none =>
        apply Correspondence.Runs.afterOutcome
        intro n _
        exact .ofOutcome _
    | some name =>
        apply hlooks.bind
        intro w v hwv
        obtain ⟨hsame, hknown⟩ := hwv f.home name
        rw [← hsame]
        split
        · next c hc => exact hcall c (hknown c hc) args
        · exact .fail _
        · split
          · exact .ofOutcome _
          · exact .fail _

/-- Calls under two observers correspond at every level of nesting: both see the same bindings, and
what they do around a body leads from one level to the next, down to the deepest one. -/
structure Follows (o : Observer σ) (o' : Observer τ) (k : Nat → Correspondence σ τ)
    (known : Callable → Prop) (deepest : Nat) : Prop where
  looks : ∀ n, (k n).Runs
    (fun w v => (∀ id, w.namespace? id = v.namespace? id) ∧ SameBindings known w v)
    (o.lift get) (o'.lift get)
  around : ∀ {n x y}, n < deepest → (k (n + 1)).Runs Eq x y →
    (k n).Runs Eq (o.around x) (o'.around y)

namespace Follows

variable {k : Nat → Correspondence σ τ} {deepest limit depth more n : Nat}
  {bound : BoundCall σ} {bound' : BoundCall τ}

/-- Looking for the namespace of a function ends alike. -/
theorem home (h : o.Follows o' k known deepest) {α β : Type} {P : α → β → Prop} {f : Function}
    {next : Namespace → Run σ α} {next' : Namespace → Run τ β}
    (hnext : ∀ ns, (k n).Runs P (next ns) (next' ns)) :
    (k n).Runs P (do next (← Run.ofOutcome ((← o.lift get).home f)))
      (do next' (← Run.ofOutcome ((← o'.lift get).home f))) := by
  apply (h.looks n).bind
  intro w v hwv
  have hhome : w.home f = v.home f := by rw [World.home, hwv.1, World.home]
  rw [hhome]
  apply Correspondence.Runs.afterOutcome
  intro ns _
  exact hnext ns

/-- Calls correspond if those of known callables with substitutions made ahead do. The second run may
have more levels left if a run that exceeds the limit may escape. -/
theorem callAt (h : o.Follows o' k known deepest)
    (hbound : ∀ n i g overrides d args, known (.bound i g overrides d) →
      (k n).Runs Eq (bound g overrides args) (bound' g overrides args))
    (hle : depth ≤ more)
    (hescapes : depth < more → ∀ n f, (k n).escapes (.report (Function.tooDeep f limit)))
    (hdeepest : n + depth ≤ deepest) (f : Function) (args : List Value) :
    (k n).Runs Eq (o.callAt bound limit depth f args) (o'.callAt bound' limit more f args) := by
  -- a callee starts one level further in, with one level less left on both sides
  induction depth generalizing more n f args with
  | zero =>
      cases more with
      | zero =>
          rw [Observer.callAt, Observer.callAt]
          split
          · exact .fail _
          · exact .fail _
      | succ more =>
          rw [Observer.callAt, callAt_succ]
          split
          · exact .fail _
          · intro s t _
            exact .escape (hescapes (Nat.succ_pos more) n f)
  | succ depth ih =>
      obtain ⟨more, rfl⟩ : ∃ m, more = m + 1 := ⟨more - 1, by omega⟩
      rw [callAt_succ, callAt_succ]
      split
      · exact .fail _
      · apply h.home
        intro _
        apply h.around (by omega)
        have hcallee : ∀ g args, (k (n + 1)).Runs Eq (o.callAt bound limit depth g args)
            (o'.callAt bound' limit more g args) := by
          apply ih
          · omega
          · intro hlt
            exact hescapes (Nat.succ_lt_succ hlt)
          · omega
        have hlooks := (h.looks (n + 1)).mono fun _ _ hwv => hwv.2
        apply Definition.value_corresponds_self (scope_corresponds hlooks ?_) (Names.within_all _)
        intro c hc args
        cases c with
        | function g => exact hcallee g args
        | gateway g => exact hcallee g.function args
        | artifact a => exact .ofExcept _
        | native n => exact .ofOutcome _
        | bound i g overrides d => exact hbound _ i g overrides d args hc

/-- The first call of all, which sets the limit. -/
theorem call (h : ∀ deepest, o.Follows o' k known deepest)
    (hbound : ∀ n i g overrides d args, known (.bound i g overrides d) →
      (k n).Runs Eq (bound g overrides args) (bound' g overrides args))
    (f : Function) (args : List Value) :
    (k n).Runs Eq (o.call bound f args) (o'.call bound' f args) := by
  apply (h 0).home
  intro ns
  apply (h _).callAt hbound (Nat.le_refl _) ?_ (Nat.le_refl _)
  intro hlt
  exact absurd hlt (Nat.lt_irrefl _)

end Follows

end

end Observer

end Graft
