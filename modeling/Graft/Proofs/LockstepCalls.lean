import Graft.Proofs.Gateways

/-!
# Calls in lockstep

Calls of twins give the same values and end in the same faults, in worlds where names are bound to
twins. How callables with substitutions made ahead are called is left open here; it matters only for
those that a name is bound to.
-/

namespace Graft

open Correspondence (keeping)

/-- Worlds on two sides between calls: names are bound to twins, calls may be nested equally deep,
and a callable that a name is bound to is one of `known`. -/
structure Evaluates (ρ : Renumbering) (known : Callable → Prop) (states : World → World → Prop) :
    Prop where
  lookup : ∀ {w w' i i'}, states w w' → ρ.homes i i' → ∀ name,
    Option.Rel (Global.Twin ρ) (w.lookup i name) (w'.lookup i' name)
  limit : ∀ {w w' i i'}, states w w' → ρ.homes i i' →
    Option.Rel (fun ns ns' : Namespace => ns.maxRecursion = ns'.maxRecursion)
      (w.namespace? i) (w'.namespace? i')
  found : ∀ {w w' i name c}, states w w' → w.lookup i name = some (.callable c) → known c

variable {ρ : Renumbering} {known : Callable → Prop} {states : World → World → Prop}

/-- Callables with substitutions made ahead are called alike. -/
def BoundCall.Twins (ρ : Renumbering) (known : Callable → Prop) (states : World → World → Prop)
    (bound bound' : BoundCall) : Prop :=
  ∀ i g g' overrides overrides' d args, known (.bound i g overrides d) →
    g.function.Twin ρ g'.function → Callable.AllTwin ρ overrides overrides' →
    (keeping states).Runs Eq (bound g overrides args) (bound' g' overrides' args)

/-- The scopes of twins correspond if the calls that they make do. -/
theorem Scope.Corresponds.of_twins (h : Evaluates ρ known states) {f f' : Function}
    (hf : f.Kin ρ f') {call call' : Callable → List Value → Act Value}
    (hcall : ∀ c c' args, known c → c.Twin ρ c' →
      (keeping states).Runs Eq (call c args) (call' c' args)) :
    (f.scope call).Corresponds (keeping states) .all id (f'.scope call') where
  reads n span span' hspan := by
    obtain rfl : span = span' := hspan
    dsimp only [Function.scope]
    rw [hf.captures]
    cases Dictionary.get? n f'.captures with
    | some v => exact .pure rfl
    | none =>
        refine Correspondence.Runs.get.bind fun w w' hw => ?_
        have hlookup := h.lookup hw hf.home n
        generalize w.lookup f.home n = l at hlookup
        generalize w'.lookup f'.home n = l' at hlookup
        cases hlookup with
        | none => exact .fail _
        | some hg =>
            cases hg with
            | constant v => exact .pure rfl
            | callable hc =>
                dsimp only
                rw [Calls.notAValue, hc.describe, Calls.notAValue]
                exact .fail _
  calls p args span _ := by
    dsimp only [Function.scope, id]
    cases p.single? with
    | none =>
        refine (Correspondence.Runs.ofOutcome _).bind fun m n hmn => ?_
        subst hmn
        exact .ofOutcome _
    | some name =>
        refine Correspondence.Runs.get.bind fun w w' hw => ?_
        have hlookup := h.lookup hw hf.home name
        have hfound : ∀ c, w.lookup f.home name = some (.callable c) → known c :=
          fun c hc => h.found hw hc
        generalize w.lookup f.home name = l at hlookup hfound
        generalize w'.lookup f'.home name = l' at hlookup
        cases hlookup with
        | none =>
            dsimp only
            cases Native.builtin? name with
            | some n => exact .ofOutcome _
            | none => exact .fail _
        | some hg =>
            cases hg with
            | constant v => exact .fail _
            | callable hc => exact hcall _ _ args (hfound _ rfl) hc

namespace Function

variable {bound bound' : BoundCall}

/-- The namespaces of twins are there on both sides, with one limit, or both are gone. -/
theorem home_twins (h : Evaluates ρ known states) {f f' : Function} (hf : f.Kin ρ f') :
    (keeping states).Runs (fun ns ns' => ns.maxRecursion = ns'.maxRecursion)
      (do Run.ofOutcome ((← get).home f)) (do Run.ofOutcome ((← get).home f')) := by
  refine Correspondence.Runs.get.bind fun w w' hw => ?_
  have hlimit := h.limit hw hf.home
  rw [World.home, World.home, ← hf.nameSpan]
  generalize w.namespace? f.home = l at hlimit
  generalize w'.namespace? f'.home = l' at hlimit
  cases hlimit with
  | none => exact .fail _
  | some hns => exact .pure hns

theorem callAt_twins (h : Evaluates ρ known states)
    (hbound : BoundCall.Twins ρ known states bound bound') (limit depth : Nat) {f f' : Function}
    (hf : f.Kin ρ f') (args : List Value) :
    (keeping states).Runs Eq (callAt bound limit depth f args)
      (callAt bound' limit depth f' args) := by
  induction depth generalizing f f' args with
  | zero =>
      rw [callAt, callAt, tooDeep, tooDeep, hf.arity, hf.definition, hf.nameSpan]
      split
      · exact .fail _
      · exact .fail _
  | succ depth ih =>
      rw [callAt_succ, callAt_succ, hf.arity, hf.definition]
      split
      · exact .fail _
      · have hvalue : (keeping states).Runs Eq
            (f'.definition.value (f.scope (callee bound limit depth)) ampleFuel args)
            (f'.definition.value (f'.scope (callee bound' limit depth)) ampleFuel args) := by
          refine Definition.value_corresponds_self (.of_twins h hf fun c c' args hc hcc => ?_)
            (Names.within_all _) _ _
          cases hcc with
          | function hg => exact ih hg.toKin args
          | gateway hg => exact ih hg.toKin args
          | artifact ha =>
              dsimp only [callee]
              rw [ha.call]
              exact .ofExcept _
          | native n => exact .ofOutcome _
          | bound d hg hall => exact hbound _ _ _ _ _ d args hc hg hall
        intro w w' hw
        have hhome := home_twins h hf w w' hw
        rw [Run.bind_apply, Run.bind_apply, Run.get_apply, Run.get_apply] at hhome ⊢
        dsimp only at hhome ⊢
        exact Correspondence.Ends.bind hhome fun _ _ _ => hvalue

/-- Calls of twins end alike. -/
theorem callWith_twins (h : Evaluates ρ known states)
    (hbound : BoundCall.Twins ρ known states bound bound') {f f' : Function} (hf : f.Kin ρ f')
    (args : List Value) :
    (keeping states).Runs Eq (f.callWith bound args) (f'.callWith bound' args) := by
  intro w w' hw
  have hhome := home_twins h hf w w' hw
  rw [callWith, callWith]
  rw [Run.bind_apply, Run.bind_apply, Run.get_apply, Run.get_apply] at hhome ⊢
  dsimp only at hhome ⊢
  refine Correspondence.Ends.bind hhome fun ns ns' hns => ?_
  rw [hns]
  exact callAt_twins h hbound _ _ hf args

end Function

theorem Callable.callWith_twins (h : Evaluates ρ known states) {bound bound' : BoundCall}
    (hbound : BoundCall.Twins ρ known states bound bound') {c c' : Callable} (hknown : known c)
    (hc : c.Twin ρ c') (args : List Value) :
    (keeping states).Runs Eq (c.callWith bound args) (c'.callWith bound' args) := by
  cases hc with
  | function hf => exact Function.callWith_twins h hbound hf.toKin args
  | gateway hg => exact Function.callWith_twins h hbound hg.toKin args
  | artifact ha =>
      rw [callWith, callWith, ha.call]
      exact .ofExcept _
  | native n => exact .ofOutcome _
  | bound d hg hall => exact hbound _ _ _ _ _ d args hknown hg hall

end Graft
