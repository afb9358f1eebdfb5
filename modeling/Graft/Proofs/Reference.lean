import Graft.Gateway.Specialize
import Graft.Proofs.Linking

/-!
# Evaluation under substitutions

The meaning that a specialization is to have, told without passes, aliases and compilation. It is the
evaluator of calls with one rule more: where a function calls a bare name that is bound in its
namespace and that a replacement is given for, the replacement is called. A replacement that is a
plain function, whose own name no replacement is given for, is run under the same rule; any other
replacement, and what it calls, is run as it is.
-/

namespace Graft

namespace Function

variable {raw : Substitution} {bound : BoundCall} {limit : Nat}

/-- What a body sees of the world under substitutions: `call` calls what a name is bound to, and
`replaced` a replacement. -/
def scopeUnder (raw : Substitution) (f : Function)
    (call replaced : Callable → List Value → Act Value) : Scope World :=
  { f.scope call with
    call := fun p args span => do
      match p.single?.bind fun name => Dictionary.get? name raw with
      | some c =>
        if ((← get).lookup f.home p.first).isSome then replaced c args
        else (f.scope call).call p args span
      | none => (f.scope call).call p args span }

/-- Calls a function under substitutions when `depth` more levels are left out of `limit`. -/
def callUnder (raw : Substitution) (bound : BoundCall) (limit : Nat) (depth : Nat) (f : Function)
    (args : List Value) : Act Value := do
  if args.length ≠ f.arity then Run.fail (f.definition.wrongArity args.length)
  else
    match depth with
    | 0 => Run.fail (f.tooDeep limit)
    | depth + 1 =>
      let _ ← Run.ofOutcome ((← get).home f)
      let call (c : Callable) (args : List Value) : Act Value :=
        match c.plain? with
        | some g => callUnder raw bound limit depth g args
        | none => callee bound limit depth c args
      let replaced (c : Callable) (args : List Value) : Act Value :=
        match raw.pending? c with
        | some g => callUnder raw bound limit depth g args
        | none => callee bound limit depth c args
      f.definition.value (f.scopeUnder raw call replaced) ampleFuel args

/-- What a call of a bound callable does under substitutions. -/
def calleeUnder (raw : Substitution) (bound : BoundCall) (limit depth : Nat) (c : Callable)
    (args : List Value) : Act Value :=
  match c.plain? with
  | some g => callUnder raw bound limit depth g args
  | none => callee bound limit depth c args

/-- What a call of a replacement does under substitutions. -/
def replacementUnder (raw : Substitution) (bound : BoundCall) (limit depth : Nat) (c : Callable)
    (args : List Value) : Act Value :=
  match raw.pending? c with
  | some g => callUnder raw bound limit depth g args
  | none => callee bound limit depth c args

theorem calling_calleeUnder (raw : Substitution) (bound : BoundCall) (limit : Nat) :
    Calling (callUnder raw bound limit) (calleeUnder raw bound limit) where
  plain {d c g args} hc := by
    rw [calleeUnder, hc]
  native := rfl
  artifact := rfl

theorem callUnder_succ (depth : Nat) (f : Function) (args : List Value) :
    callUnder raw bound limit (depth + 1) f args =
      if args.length ≠ f.arity then Run.fail (f.definition.wrongArity args.length)
      else (do
        let _ ← Run.ofOutcome ((← get).home f)
        f.definition.value
          (f.scopeUnder raw (calleeUnder raw bound limit depth)
            (replacementUnder raw bound limit depth))
          ampleFuel args) := by
  rw [callUnder]
  rfl

/-- A bare name that is bound and overridden is called as its replacement is. -/
theorem scopeUnder_call_replaced {f : Function} {call replaced : Callable → List Value → Act Value}
    {name : String} {w : World} {c : Callable} (hraw : Dictionary.get? name raw = some c)
    (hbound : (w.lookup f.home name).isSome) (args : List Value) (span : Span) :
    (f.scopeUnder raw call replaced).call ⟨name, []⟩ args span w = replaced c args w := by
  dsimp only [scopeUnder]
  rw [Path.single?_eq_some.mpr rfl, Option.bind_some, hraw]
  dsimp only
  rw [Run.bind_apply, Run.get_apply]
  dsimp only
  rw [if_pos hbound]

/-- A bare name that is not bound or not overridden is called as without substitutions. -/
theorem scopeUnder_call_left {f : Function} {call replaced : Callable → List Value → Act Value}
    {name : String} {w : World}
    (h : w.lookup f.home name = none ∨ Dictionary.get? name raw = none) (args : List Value)
    (span : Span) :
    (f.scopeUnder raw call replaced).call ⟨name, []⟩ args span w =
      (f.scope call).call ⟨name, []⟩ args span w := by
  dsimp only [scopeUnder]
  rw [Path.single?_eq_some.mpr rfl, Option.bind_some]
  cases hraw : Dictionary.get? name raw with
  | none => rfl
  | some c =>
      obtain h | h := h
      · dsimp only
        rw [Run.bind_apply, Run.get_apply]
        dsimp only
        rw [h, if_neg (by decide)]
      · rw [hraw] at h
        cases h

/-- A path that is no bare name is called as without substitutions. -/
theorem scopeUnder_call_path {f : Function} {call replaced : Callable → List Value → Act Value}
    {p : Path} (h : p.single? = none) (args : List Value) (span : Span) :
    (f.scopeUnder raw call replaced).call p args span = (f.scope call).call p args span := by
  dsimp only [scopeUnder]
  rw [h]
  rfl

end Function

/-- Scopes under substitutions correspond if the calls that they make do. -/
theorem Scope.Corresponds.under {raw : Substitution} {k : Correspondence World World} {f : Function}
    {call call' replaced replaced' : Callable → List Value → Act Value}
    (hs : ∀ s t, k.states s t → ∀ id name, s.lookup id name = t.lookup id name)
    (hcall : ∀ c args, k.Runs Eq (call c args) (call' c args))
    (hreplaced : ∀ c args, k.Runs Eq (replaced c args) (replaced' c args)) :
    (f.scopeUnder raw call replaced).Corresponds k .all id (f.scopeUnder raw call' replaced') := by
  have plain := Scope.Corresponds.function (f := f) hs hcall
  refine ⟨plain.reads, fun p args span hp => ?_⟩
  dsimp only [Function.scopeUnder, id]
  cases p.single?.bind fun name => Dictionary.get? name raw with
  | none => exact plain.calls p args span hp
  | some c =>
      refine Correspondence.Runs.get.bind fun s t hst => ?_
      rw [hs s t hst]
      split
      · exact hreplaced c args
      · exact plain.calls p args span hp

namespace Function

variable {raw : Substitution} {bound : BoundCall} {limit : Nat}

theorem callee_deeper {depth more : Nat} (hle : depth ≤ more) (c : Callable) (args : List Value) :
    (Correspondence.deeper limit).Runs Eq (callee bound limit depth c args)
      (callee bound limit more c args) := by
  cases c with
  | function g => exact callAt_deeper hle g args
  | gateway g => exact callAt_deeper hle g.function args
  | artifact a => exact .ofExcept _
  | native n => exact .ofOutcome _
  | bound i g overrides d => exact Correspondence.deeper_refl limit _

theorem callUnder_deeper {depth more : Nat} (hle : depth ≤ more) (f : Function)
    (args : List Value) :
    (Correspondence.deeper limit).Runs Eq (callUnder raw bound limit depth f args)
      (callUnder raw bound limit more f args) := by
  induction depth generalizing more f args with
  | zero =>
      rintro s _ rfl
      by_cases ha : args.length ≠ f.arity
      · rw [callUnder, callUnder.eq_def _ _ _ more, if_pos ha, if_pos ha]
        exact .fault rfl rfl
      · rw [callUnder, if_neg ha]
        exact .escape ⟨rfl, rfl⟩
  | succ depth ih =>
      obtain ⟨more, rfl⟩ : ∃ n, more = n + 1 := ⟨more - 1, by omega⟩
      have hle := Nat.le_of_succ_le_succ hle
      rw [callUnder_succ, callUnder_succ]
      split
      · exact .fail _
      · refine Correspondence.Runs.get.bind fun s t hst => ?_
        obtain rfl := hst
        refine (Correspondence.Runs.ofOutcome _).bind fun _ _ _ => ?_
        refine Definition.value_corresponds_self (.under ?_ (fun c args => ?_) fun c args => ?_)
          (Names.within_all _) _ _
        · rintro s _ rfl id name
          rfl
        · rw [calleeUnder, calleeUnder]
          split
          · exact ih hle _ args
          · exact callee_deeper hle c args
        · rw [replacementUnder, replacementUnder]
          split
          · exact ih hle _ args
          · exact callee_deeper hle c args

/-- The artifact does what the function does under the substitutions: from some number of levels on
their calls agree, and with fewer levels they do unless calls are nested too deep. -/
structure SpecializedBy (raw : Substitution) (w : World) (f : Function) (a : Artifact) : Prop where
  settles : ∀ limit, ∃ n, ∀ depth, n ≤ depth → ∀ args,
    Agree (callUnder raw (Gateway.callBound ampleFuel) limit depth f args w).1
      (a.call ampleFuel args)
  agrees : ∀ limit depth args,
    (∀ e, (callUnder raw (Gateway.callBound ampleFuel) limit depth f args w).1 = .error e →
      ¬ e.TooDeep limit) →
    Agree (callUnder raw (Gateway.callBound ampleFuel) limit depth f args w).1
      (a.call ampleFuel args)

theorem RealizedBy.specializedBy {f : Function} {a : Artifact} {w : World}
    (h : ∀ limit, f.RealizedBy Fault.Alike (callUnder raw (Gateway.callBound ampleFuel) limit) w a) :
    f.SpecializedBy raw w a := by
  have settles : ∀ limit, ∃ n, ∀ depth, n ≤ depth → ∀ args,
      Agree (callUnder raw (Gateway.callBound ampleFuel) limit depth f args w).1
        (a.call ampleFuel args) := by
    intro limit
    obtain ⟨n, hn⟩ := Filter.eventually_atTop.mp (h limit).yields
    exact ⟨n, fun depth hle args => (hn depth hle args).1⟩
  refine ⟨settles, fun limit depth args hdeep => ?_⟩
  obtain ⟨n, hn⟩ := settles limit
  have hmore : (Correspondence.deeper limit).Runs Eq
      (callUnder raw (Gateway.callBound ampleFuel) limit depth f args)
      (callUnder raw (Gateway.callBound ampleFuel) limit (max depth n) f args) :=
    callUnder_deeper (Nat.le_max_left depth n) f args
  rcases Correspondence.deeper_eq hmore w with ⟨e, he, hlimit⟩ | heq
  · exact absurd hlimit (hdeep e he)
  · rw [heq]
    exact hn _ (Nat.le_max_right depth n) args

end Function

end Graft
