import Graft.Convert
import Graft.Proofs.Depth
import Graft.Proofs.Lowering

/-!
# Linked artifacts

The artifact of a function does what the function does, whatever it calls: each callee was compiled
before it is linked, and an artifact that is kept for a function does what that function does. The
functions are told apart by their numbers.
-/

namespace Graft

open Filter (atTop)

variable {σ : Type} {R : Fault → Fault → Prop}

/-! ## Functions -/

theorem Definition.value_yields {d : Definition} {scope : Scope σ} {s : σ} {fuel : Nat}
    {steps : Steps}
    (h : Simulates R (Compile.layout d) s (d.body.value scope fuel) (Steps.value fuel steps))
    {info : ArtifactInfo} (hd : info.definition = d) {args : List Value}
    (hargs : args.length = d.params.length) :
    Run.Yields R s (d.value scope fuel args)
      (Artifact.call fuel (.mk info (Compile.layout d).length steps) args) := by
  have hlen : args.length = info.definition.params.length := by rw [hd, hargs]
  rw [Artifact.call, if_neg (not_not_intro hlen), Run.Yields, Definition.value, Run.bind_apply]
  obtain ⟨v, l, r, hx, hy, -⟩ | ⟨e, f, hx, hy, ha⟩ := (h _ _ (Slots.Hold.start hargs)).cases
  · dsimp only [StateT.run]
    rw [hx, hy]
    exact ⟨rfl, rfl⟩
  · dsimp only [StateT.run]
    rw [hx, hy]
    exact ⟨ha, rfl⟩

/-- What a definition reads from outside and calls is among the names. -/
structure Definition.Within (d : Definition) (N : Names) : Prop where
  uses : N.Within d.body.subterms
  stores : ∀ n ∈ d.body.stored, N.reads n

theorem Definition.body_admitted {c : Compile.Context} {d : Definition} {N : Names}
    (hl : c.layout = Compile.layout d) (uses : N.Within d.body.subterms) :
    d.body.Admitted c N d.body.stored where
  binds n hn := by
    rw [hl, Compile.mem_layout]
    refine .inr (.inl (Ordered.mem_ofList.mpr ?_))
    exact List.mem_append_left _ (List.mem_append_right _ hn)
  stores p hp := by
    cases p with
    | var m span =>
        rw [Place.Admitted, hl, Compile.mem_layout]
        refine .inr (.inl (Ordered.mem_ofList.mpr (List.mem_append_right _ ?_)))
        exact List.mem_filterMap.mpr ⟨_, hp, rfl⟩
    | discard span => trivial
    | index base i span =>
        have hstored : base.text ∈ d.body.stored := List.mem_filterMap.mpr ⟨_, hp, rfl⟩
        rw [Place.Admitted, hl, Compile.mem_layout]
        exact ⟨.inr (.inr (Ordered.mem_ofList.mpr hstored)), hstored⟩
  uses := uses

/-- The context in which the body of a function is compiled. -/
def Compile.Context.ofFunction (env : Linker) (callee : Function → Compile Artifact)
    (f : Function) :
    Compile.Context where
  layout := Compile.layout f.definition
  capture? name := Dictionary.get? name f.captures
  global? := env.lookup f.home
  link := Compile.linkName env callee f

/-- A function is compiled while its namespace lives, from the code that its body is lowered to. -/
theorem Compile.compileUnit_eq_ok {env : Linker} {callee : Function → Compile Artifact}
    {f : Function} {a : Artifact} {st st' : Compile.State}
    (h : Compile.compileUnit env callee f st = .ok (a, st')) :
    env.isLive f.home = true ∧ ∃ steps callees st₁,
      f.definition.body.lower (.ofFunction env callee f) [] st = .ok ((steps, callees), st₁) ∧
      st' = { st₁ with nextId := st₁.nextId + 1 } ∧
      a = .mk
        { id := st₁.nextId, definition := f.definition, callees,
          fingerprint := .ofArtifact f.fingerprint callees }
        (Compile.layout f.definition).length steps := by
  simp only [Compile.compileUnit] at h
  by_cases hlive : env.isLive f.home = true
  · rw [if_pos hlive, Compile.bind_apply] at h
    dsimp only [StateT.run] at h
    split at h
    · next r st₁ hl =>
        cases h
        exact ⟨hlive, r.1, r.2, st₁, hl, rfl, rfl⟩
    · cases h
  · rw [if_neg hlive] at h
    cases h

/-- The artifact of a function does what its definition does under the scopes that it fits. -/
theorem Compile.compileUnit_ensures {env : Linker} {callee : Function → Compile Artifact}
    {f : Function} {scope : Nat → Scope σ} {s : σ} {fuel : Nat} {inv : Compile.State → Prop}
    [Fault.Congruence R] {N : Names} (uses : N.Within f.definition.body.subterms)
    (fits : env.isLive f.home = true →
      (Compile.Context.ofFunction env callee f).Fits scope R s fuel inv N f.definition.body.stored)
    (hinv : ∀ st n, inv st → inv { st with nextId := n }) :
    Compile.Ensures inv (Compile.compileUnit env callee f) fun a =>
      env.isLive f.home = true ∧ a.info.definition = f.definition ∧
        ∀ᶠ d in atTop, ∀ args : List Value, args.length = f.arity →
          Run.Yields R s (f.definition.value (scope d) fuel args) (a.call fuel args) := by
  intro st a st' h hi
  obtain ⟨hlive, steps, callees, st₁, hl, rfl, rfl⟩ := Compile.compileUnit_eq_ok h
  obtain ⟨hi₁, hrun⟩ := f.definition.body.lower_simulates (fits hlive)
    (Definition.body_admitted rfl uses) [] st steps callees st₁ hl hi
  refine ⟨hinv _ _ hi₁, hlive, rfl, ?_⟩
  filter_upwards [hrun] with d hd args hargs
  exact Definition.value_yields hd.2 rfl hargs

/-! ## Calls that are linked -/

namespace Compile.Context

variable {env : Linker} {compile : Function → Compile Artifact} {f : Function} {w : World}

/-- What a function reads from outside is what its code was compiled with, if the bindings of
constants are the same. -/
theorem reads_ofFunction {name : String} (span : Span)
    (h : ∀ v, env.lookup f.home name = some (.constant v) ↔
      w.lookup f.home name = some (.constant v))
    (call : Callable → List Value → Act Value) :
    Run.Yields Fault.Alike w ((f.scope call).outer name span)
      ((ofFunction env compile f).outerValue name span) := by
  rw [Run.Yields, Function.scope_outer_apply, outerValue, outer?]
  dsimp only [ofFunction]
  cases Dictionary.get? name f.captures with
  | some v => exact ⟨rfl, rfl⟩
  | none =>
      dsimp only
      split
      · next v hv =>
          rw [(h v).mpr hv]
          exact ⟨rfl, rfl⟩
      all_goals
        next hw =>
          have hne : ∀ v, env.lookup f.home name ≠ some (.constant v) := by
            intro v hv
            rw [(h v).mp hv] at hw
            cases hw
          split
          · next v hv =>
              split at hv
              · next u hu => exact absurd hu (hne u)
              · cases hv
          · exact ⟨trivial, rfl⟩

/-- As far as reports do not count, it does not matter where a name stands. -/
theorem yields_outerValue {c : Context} {x : Run σ Value} {s : σ} {name : String} {span : Span}
    (h : Run.Yields Fault.Alike s x (c.outerValue name span)) (span' : Span) :
    Run.Yields Fault.Alike s x (c.outerValue name span') := by
  rw [outerValue] at h ⊢
  cases hv : c.outer? name with
  | some v =>
      rw [hv] at h
      exact h
  | none =>
      rw [hv] at h
      exact ⟨agreeUpTo_alike.mpr (h.agree.trans (y := .error _) trivial), h.2⟩

/-- A context fits scopes that call bare names as they are linked, and library functions as such. -/
theorem fits_of_links {c : Context} {scope : Nat → Scope σ} {s : σ} {fuel : Nat}
    {inv : Compile.State → Prop} [Fault.Congruence R] {N : Names} {stored : List String}
    (reads : ∀ d name span, N.reads name → name ∈ c.layout ∨ (c.outer? name).isSome →
      Run.Yields R s ((scope d).outer name span) (c.outerValue name span))
    (stores : ∀ d name span span', name ∈ stored →
      Run.Yields R s ((scope d).outer name span) (c.outerValue name span'))
    (names : ∀ name span, N.calls ⟨name, []⟩ →
      Compile.Ensures inv (c.link name span) fun t =>
        ∀ᶠ d in atTop, ∀ args,
          Run.Yields R s ((scope d).call ⟨name, []⟩ args span) (t.run fuel args))
    (paths : ∀ d p args span, p.single? = none → (scope d).call p args span = do
      let n ← Run.ofOutcome (Calls.member? p span)
      Run.ofOutcome (n.call args)) :
    c.Fits scope R s fuel inv N stored where
  reads := reads
  stores := stores
  links p span hp := by
    rw [target]
    cases hs : p.single? with
    | none =>
        refine (Lower.Ensures.ofOutcome _).bind fun n hn => .pure (.of_forall fun d args => ?_)
        rw [paths d p args span hs, hn]
        exact .ofOutcome _
    | some name =>
        obtain rfl := Path.single?_eq_some.mp hs
        refine (Lower.Ensures.lift (names name span hp)).bind fun t ht => ?_
        exact (Lower.Ensures.record _ _).bind fun _ _ => .pure ht

end Compile.Context

/-- What a bare name can be linked to: what is bound to it, or the artifact of a function that is
bound to it, or else a builtin. -/
theorem Compile.linkName_ensures {env : Linker} {callee : Function → Compile Artifact}
    {f : Function}
    {name : String} {inv : State → Prop} {post : Target → Prop}
    (builtin : env.lookup f.home name = none → ∀ n, Native.builtin? name = some n →
      post (.native n))
    (native : ∀ n, env.lookup f.home name = some (.callable (.native n)) → post (.native n))
    (artifact : ∀ a, env.lookup f.home name = some (.callable (.artifact a)) → post (.artifact a))
    (function : ∀ c g, env.lookup f.home name = some (.callable c) → c.plain? = some g →
      Ensures inv (callee g) fun a => post (.artifact a)) (span : Span) :
    Ensures inv (linkName env callee f name span) post := by
  have compiled : ∀ c g, env.lookup f.home name = some (.callable c) → c.plain? = some g →
      Ensures inv (tryCatch (do return Target.artifact (← callee g)) fun e =>
          throw (e.map fun d => d.withNote ("while compiling `" ++ f.name ++ "`"))) post :=
    fun c g hl hg => .tryThrow ((function c g hl hg).bind fun a ha => .pure ha) _
  rw [linkName]
  rcases hl : env.lookup f.home name with _ | v | c
  · dsimp only
    cases hb : Native.builtin? name with
    | none => exact .throw _ _
    | some n => exact .pure (builtin hl n hb)
  · exact .throw _ _
  · cases c with
    | function g => exact compiled _ g hl rfl
    | gateway g => exact compiled _ g.function hl rfl
    | artifact a => exact .pure (artifact a hl)
    | native n => exact .pure (native n hl)
    | bound i g overrides d => exact .throw _ _

namespace Function

/-- How a function is run when so many levels of nesting are left. -/
abbrev Runner := Nat → Function → List Value → Act Value

/-- How callables are called goes with how functions are run. -/
structure Calling (run : Runner) (called : Nat → Callable → List Value → Act Value) : Prop where
  plain : ∀ {d c g args}, c.plain? = some g → called d c args = run d g args
  native : ∀ {d n args}, called d (.native n) args = Run.ofOutcome (n.call args)
  artifact : ∀ {d a args}, called d (.artifact a) args = Run.ofExcept (a.call ampleFuel args)

theorem calling_callee (bound : BoundCall) (limit : Nat) :
    Calling (callAt bound limit) (callee bound limit) where
  plain {d c g args} hc := by
    cases c with
    | function f =>
        obtain rfl := Option.some.inj hc
        rfl
    | gateway h =>
        obtain rfl := Option.some.inj hc
        rfl
    | artifact a => cases hc
    | native n => cases hc
    | bound i h overrides digest => cases hc
  native := rfl
  artifact := rfl

/-- From some depth on, runs of a function, whose namespace is there, give what calls of the artifact
give. -/
structure RealizedBy (R : Fault → Fault → Prop) (run : Runner) (w : World) (f : Function)
    (a : Artifact) : Prop where
  live : (w.namespace? f.home).isSome
  yields : ∀ᶠ d in atTop, ∀ args, Run.Yields R w (run d f args) (a.call ampleFuel args)

/-- An artifact that does what the body of a function does, and reports a wrong number of arguments as
the function does, realizes the function. -/
theorem realizedBy_of_value {run : Runner} {w : World} {f : Function} {a : Artifact}
    {scope : Nat → Scope World}
    (hrun : ∀ d args, run (d + 1) f args =
      if args.length ≠ f.arity then Run.fail (f.definition.wrongArity args.length)
      else (do
        let _ ← Run.ofOutcome ((← get).home f)
        f.definition.value (scope d) ampleFuel args))
    (live : (w.namespace? f.home).isSome)
    (hd : a.info.definition.params = f.definition.params)
    (hwrong : ∀ given, R (.report (f.definition.wrongArity given))
      (.report (a.info.definition.wrongArity given)))
    (h : ∀ᶠ d in atTop, ∀ args : List Value, args.length = f.arity →
      Run.Yields R w (f.definition.value (scope d) ampleFuel args) (a.call ampleFuel args)) :
    f.RealizedBy R run w a := by
  obtain ⟨n, hn⟩ := Filter.eventually_atTop.mp h
  refine ⟨live, Filter.eventually_atTop.mpr ⟨n + 1, fun d hle args => ?_⟩⟩
  obtain ⟨d, rfl⟩ : ∃ m, d = m + 1 := ⟨d - 1, by omega⟩
  rw [hrun]
  by_cases hargs : args.length ≠ f.arity
  · have hcall : a.call ampleFuel args =
        .error (.report (a.info.definition.wrongArity args.length)) := by
      obtain ⟨info, count, steps⟩ := a
      rw [Artifact.call, if_pos (by rwa [show info.definition.params = _ from hd])]
      rfl
    rw [if_pos hargs, hcall]
    exact ⟨hwrong _, rfl⟩
  · rw [if_neg hargs]
    obtain ⟨ns, hns⟩ := Option.isSome_iff_exists.mp live
    have hhome : w.home f = .ok ns := by rw [World.home, hns]
    rw [Run.Yields, Run.bind_apply, Run.get_apply]
    dsimp only
    rw [hhome, Run.bind_apply, Run.ofOutcome_apply]
    exact hn d (by omega) args (not_not.mp hargs)

end Function

/-! ## Functions that call functions -/

/-- What compilation finds for a name is what the run finds, and a function that is found is in
sight; or it finds an artifact for a function that the run finds. -/
inductive Linker.Serves (env : Linker) (R : Fault → Fault → Prop) (run : Function.Runner)
    (v : World) (sight : Function → Prop) (id : NamespaceId) (name : String) : Prop
  | same : env.lookup id name = v.lookup id name →
      (∀ c g, v.lookup id name = some (.callable c) → c.plain? = some g → sight g) →
      Serves env R run v sight id name
  | replaced {c g a} : v.lookup id name = some (.callable c) → c.plain? = some g →
      env.lookup id name = some (.callable (.artifact a)) → g.RealizedBy R run v a →
      Serves env R run v sight id name

/-- Compilation finds, for the functions in sight, the names that they use bound as the run finds
them. -/
structure Linker.Faithful (env : Linker) (run : Function.Runner) (v : World)
    (sight : Function → Prop) : Prop where
  live : ∀ id, env.isLive id = true → (v.namespace? id).isSome
  numbered : ∀ f g, sight f → sight g → f.id = g.id → f = g
  names : ∀ f, sight f → env.isLive f.home = true → ∃ N, f.definition.Within N ∧
    (∀ n, N.reads n → ∀ c,
      env.lookup f.home n = some (.constant c) ↔ v.lookup f.home n = some (.constant c)) ∧
    ∀ n, N.calls ⟨n, []⟩ → env.Serves Fault.Alike run v sight f.home n

namespace Compile

variable {bound : BoundCall} {limit : Nat} {env : Linker} {v : World} {sight : Function → Prop}

/-- What is kept for a function that is in sight realizes it. -/
def Kept (R : Fault → Fault → Prop) (run : Function.Runner) (v : World)
    (sight : Function → Prop) (st : State) : Prop :=
  ∀ entry ∈ st.done, ∃ g, sight g ∧ g.id = entry.1 ∧ g.RealizedBy R run v entry.2

theorem function_apply (env : Linker) (fuel : Nat) (active : List (Nat × String)) (f : Function)
    (st : State) :
    function env fuel active f st =
      match st.done.find? fun entry => entry.1 = f.id with
      | some (_, a) => .ok (a, st)
      | none =>
        if active.any fun entry => entry.1 = f.id then .error (.report (cycle active f))
        else
          match fuel with
          | 0 => .error .exhausted
          | fuel + 1 =>
            match compileUnit env (function env fuel (active ++ [(f.id, f.name)])) f st with
            | .ok (a, st) => .ok (a, { st with done := (f.id, a) :: st.done })
            | .error e => .error e := by
  have hget : ∀ k : State → Compile Artifact, (get >>= k) st = k st st := fun _ => rfl
  rw [function.eq_def, hget]
  rcases st.done.find? _ with _ | ⟨i, a⟩
  · dsimp only
    by_cases hactive : (active.any fun entry => entry.1 = f.id) = true
    · rw [if_pos hactive, if_pos hactive]
      rfl
    · rw [if_neg hactive, if_neg hactive]
      cases fuel with
      | zero => rfl
      | succ fuel =>
          dsimp only
          rw [bind_apply]
          cases compileUnit env (function env fuel (active ++ [(f.id, f.name)])) f st with
          | error e => rfl
          | ok p => rfl
  · rfl

/-- The artifact of a function was kept for it, or is what its unit was compiled to and is kept from
then on. -/
theorem function_eq_ok {fuel : Nat} {active : List (Nat × String)} {g : Function} {st st' : State}
    {a : Artifact} (h : function env fuel active g st = .ok (a, st')) :
    (∃ entry, (st.done.find? fun entry => entry.1 = g.id) = some entry ∧ a = entry.2 ∧ st' = st) ∨
    (st.done.find? fun entry => entry.1 = g.id) = none ∧
      ¬ (active.any fun entry => entry.1 = g.id) = true ∧
      ∃ n st₁, fuel = n + 1 ∧
        compileUnit env (function env n (active ++ [(g.id, g.name)])) g st = .ok (a, st₁) ∧
        st' = { st₁ with done := (g.id, a) :: st₁.done } := by
  rw [function_apply] at h
  cases hfind : st.done.find? fun entry => entry.1 = g.id with
  | some entry =>
      rw [hfind] at h
      cases h
      exact .inl ⟨entry, rfl, rfl, rfl⟩
  | none =>
      rw [hfind] at h
      dsimp only at h
      split at h
      · cases h
      · next hactive =>
          cases fuel with
          | zero => cases h
          | succ n =>
              dsimp only at h
              split at h
              · next b st₁ hb =>
                  cases h
                  exact .inr ⟨rfl, hactive, n, st₁, rfl, hb, rfl⟩
              · cases h

/-- Every artifact that is kept has the property of the number that it is kept for. -/
def Retains (P : Nat → Artifact → Prop) (st : State) : Prop :=
  ∀ entry ∈ st.done, P entry.1 entry.2

/-- What is kept, and what is made of a function in sight, has the property if a unit in sight is
compiled to what has it wherever its callees are. -/
theorem function_retains {P : Nat → Artifact → Prop}
    (hunit : ∀ n active g, sight g →
      (∀ h, sight h → Ensures (Retains P) (function env n active h) (P h.id)) →
      Ensures (Retains P) (compileUnit env (function env n active) g) (P g.id))
    (fuel : Nat) (active : List (Nat × String)) (g : Function) (hg : sight g) :
    Ensures (Retains P) (function env fuel active g) (P g.id) := by
  induction fuel using Nat.strong_induction_on generalizing active g with
  | _ fuel ih =>
      intro st a st' h hi
      obtain ⟨entry, hfind, rfl, rfl⟩ | ⟨-, -, n, st₁, rfl, hb, rfl⟩ := function_eq_ok h
      · have hid : entry.1 = g.id := by simpa using List.find?_some hfind
        exact ⟨hi, hid ▸ hi entry (List.mem_of_find?_eq_some hfind)⟩
      · obtain ⟨hi₁, ha⟩ := hunit n _ g hg (ih n n.lt_succ_self _) st a st₁ hb hi
        refine ⟨fun entry hentry => ?_, ha⟩
        rcases List.mem_cons.mp hentry with rfl | hentry
        · exact ha
        · exact hi₁ entry hentry

/-- A name that is served is linked to what a call of it gives. -/
theorem linkName_ensures_of_serves [Fault.Congruence R] {run : Function.Runner}
    {called : Nat → Callable → List Value → Act Value} (hcalled : Function.Calling run called)
    {callee : Function → Compile Artifact} {inv : State → Prop} {f : Function} {name : String}
    (hcallee : ∀ g, sight g → Ensures inv (callee g) (g.RealizedBy R run v))
    (hs : env.Serves R run v sight f.home name) (span : Span) :
    Ensures inv (linkName env callee f name span) fun t =>
      ∀ᶠ d in atTop, ∀ args,
        Run.Yields R v ((f.scope (called d)).call ⟨name, []⟩ args span) (t.run ampleFuel args) := by
  have hcall := fun d args => Function.scope_call_apply f (called d) name args span v
  -- A function that is bound to the name is called as the name is.
  have function : ∀ c g a, v.lookup f.home name = some (.callable c) → c.plain? = some g →
      g.RealizedBy R run v a →
      ∀ᶠ d in atTop, ∀ args,
        Run.Yields R v ((f.scope (called d)).call ⟨name, []⟩ args span) (a.call ampleFuel args) := by
    intro c g a hl hg ha
    filter_upwards [ha.yields] with d hd args
    rw [Run.Yields, hcall, hl]
    dsimp only
    rw [hcalled.plain hg]
    exact hd args
  cases hs with
  | same hsame hsight =>
      refine linkName_ensures (fun hl n hn => ?_) (fun n hl => ?_) (fun a hl => ?_)
        (fun c g hl hg => ?_) span
      all_goals rw [hsame] at hl
      · refine .of_forall fun d args => ?_
        rw [Run.Yields, hcall, hl]
        dsimp only
        rw [hn]
        exact ⟨.refl _, rfl⟩
      · refine .of_forall fun d args => ?_
        rw [Run.Yields, hcall, hl]
        dsimp only
        rw [hcalled.native]
        exact Run.Yields.ofOutcome _
      · refine .of_forall fun d args => ?_
        rw [Run.Yields, hcall, hl]
        dsimp only
        rw [hcalled.artifact]
        exact Run.Yields.ofExcept _
      · exact (hcallee g (hsight c g hl hg)).mono fun a ha => function c g a hl hg ha
  | replaced hv hg henv ha =>
      refine linkName_ensures (fun hl => ?_) (fun n hl => ?_) (fun a' hl => ?_)
        (fun c g hl hp => ?_) span
      all_goals rw [henv] at hl
      · cases hl
      · cases hl
      · cases hl
        exact function _ _ _ hv hg ha
      · cases hl
        cases hp

/-- A unit is realized by its artifact, if the functions that it calls are. -/
theorem compileUnit_realizes {inv : State → Prop} {callee : Function → Compile Artifact}
    (faithful : env.Faithful (Function.callAt bound limit) v sight)
    (hinv : ∀ st n, inv st → inv { st with nextId := n }) {g : Function} (hg : sight g)
    (hcallee : ∀ h, sight h →
      Ensures inv (callee h) (h.RealizedBy Fault.Alike (Function.callAt bound limit) v)) :
    Ensures inv (compileUnit env callee g) (g.RealizedBy Fault.Alike (Function.callAt bound limit) v) := by
  intro st a st' h hi
  obtain ⟨N, hN, hreads, hcalls⟩ := faithful.names g hg (compileUnit_eq_ok h).1
  have reads : ∀ d name span, N.reads name → Run.Yields Fault.Alike v
      ((g.scope (Function.callee bound limit d)).outer name span)
      ((Context.ofFunction env callee g).outerValue name span) :=
    fun d name span hn => Context.reads_ofFunction span (hreads name hn) _
  have fits : (Context.ofFunction env callee g).Fits
      (fun d => g.scope (Function.callee bound limit d)) Fault.Alike v ampleFuel inv N
      g.definition.body.stored :=
    Context.fits_of_links
      (fun d name span hn _ => reads d name span hn)
      (fun d name span span' hn => Context.yields_outerValue (reads d name span (hN.stores _ hn)) span')
      (fun name span hn => linkName_ensures_of_serves (Function.calling_callee bound limit)
        hcallee (hcalls name hn) span)
      (fun d p args span hp => by simp only [Function.scope, hp])
  obtain ⟨hi', hlive, hd, hvalue⟩ := compileUnit_ensures hN.uses (fun _ => fits) hinv st a st' h hi
  exact ⟨hi', Function.realizedBy_of_value (fun d args => Function.callAt_succ d g args)
    (faithful.live g.home hlive) (by rw [hd]) (fun _ => trivial) hvalue⟩

/-- The artifact realizes a function in sight that has the number. -/
def Realized (R : Fault → Fault → Prop) (run : Function.Runner) (v : World)
    (sight : Function → Prop) (i : Nat) (a : Artifact) : Prop :=
  ∃ g, sight g ∧ g.id = i ∧ g.RealizedBy R run v a

theorem Realized.realizedBy {run : Function.Runner}
    (numbered : ∀ f g, sight f → sight g → f.id = g.id → f = g) {g : Function} (hg : sight g)
    {a : Artifact} (h : Realized R run v sight g.id a) : g.RealizedBy R run v a := by
  obtain ⟨g', hg', hsame, hreal⟩ := h
  exact numbered g' g hg' hg hsame ▸ hreal

/-- A compiled function is realized by its artifact, if each unit is as soon as its callees are. -/
theorem function_realizes {run : Function.Runner}
    (numbered : ∀ f g, sight f → sight g → f.id = g.id → f = g)
    (hunit : ∀ callee g, sight g →
      (∀ h, sight h → Ensures (Kept R run v sight) (callee h) (h.RealizedBy R run v)) →
      Ensures (Kept R run v sight) (compileUnit env callee g) (g.RealizedBy R run v))
    (fuel : Nat) (active : List (Nat × String)) (g : Function) (hg : sight g) :
    Ensures (Kept R run v sight) (function env fuel active g) (g.RealizedBy R run v) := by
  have hretains : Ensures (Retains (Realized R run v sight)) (function env fuel active g)
      (Realized R run v sight g.id) := by
    refine function_retains (fun n active g hg hcallee => ?_) fuel active g hg
    have hcalls := fun h hh => (hcallee h hh).mono fun a => Realized.realizedBy numbered hh
    exact (hunit _ g hg hcalls).mono fun a ha => ⟨g, hg, rfl, ha⟩
  exact hretains.mono fun a => Realized.realizedBy numbered hg

/-- A compiled function is realized by its artifact, as far as reports do not count. -/
theorem function_ensures (faithful : env.Faithful (Function.callAt bound limit) v sight)
    (fuel : Nat) (active : List (Nat × String)) (g : Function) (hg : sight g) :
    Ensures (Kept Fault.Alike (Function.callAt bound limit) v sight) (function env fuel active g)
      (g.RealizedBy Fault.Alike (Function.callAt bound limit) v) :=
  function_realizes faithful.numbered
    (fun _ _ hg hcallee => compileUnit_realizes faithful (fun _ _ hst => hst) hg hcallee)
    fuel active g hg

end Compile

/-! ## Compilation against the namespaces -/

/-- A name is bound to the function, or to a gateway of it. -/
def World.Binds (w : World) (f : Function) : Prop :=
  ∃ id name c, w.lookup id name = some (.callable c) ∧ c.plain? = some f

/-- No two functions, among `f` and those that names are bound to, have one number. -/
def World.Numbered (w : World) (f : Function) : Prop :=
  ∀ g h, g = f ∨ w.Binds g → h = f ∨ w.Binds h → g.id = h.id → g = h

/-- Every namespace is still there, with the bindings that it had. -/
def World.Keeps (w v : World) : Prop :=
  ∀ id, (w.namespace? id).isSome →
    (v.namespace? id).isSome ∧ ∀ name, v.lookup id name = w.lookup id name

/-- Functions that call one another, no two of which have one number. -/
structure World.Closed (w : World) (sight : Function → Prop) : Prop where
  callees : ∀ f, sight f → ∀ n c g, f.definition.body.Calls ⟨n, []⟩ →
    w.lookup f.home n = some (.callable c) → c.plain? = some g → sight g
  numbered : ∀ f g, sight f → sight g → f.id = g.id → f = g

/-- What a function calls is found as it was. -/
theorem World.Keeps.serves {w v : World} {sight : Function → Prop} (keeps : w.Keeps v)
    (closed : w.Closed sight) (R : Fault → Fault → Prop) (run : Function.Runner) {f : Function}
    (hf : sight f) (hlive : w.linker.isLive f.home = true) {n : String}
    (hn : f.definition.body.Calls ⟨n, []⟩) : w.linker.Serves R run v sight f.home n := by
  obtain ⟨-, kept⟩ := keeps f.home hlive
  refine .same (kept n).symm fun c g hl hc => ?_
  rw [kept] at hl
  exact closed.callees f hf n c g hn hl hc

theorem World.Keeps.faithful {w v : World} {sight : Function → Prop} (keeps : w.Keeps v)
    (closed : w.Closed sight) (run : Function.Runner) : w.linker.Faithful run v sight where
  live id h := (keeps id h).1
  numbered := closed.numbered
  names f hf hlive := by
    obtain ⟨-, kept⟩ := keeps f.home hlive
    refine ⟨⟨Names.all.reads, fun p => Names.all.calls p ∧ f.definition.body.Calls p⟩,
      ⟨Block.within_calls (Names.within_all _), fun _ _ => trivial⟩, fun n _ c => ?_,
      fun n hn => keeps.serves closed _ run hf hlive hn.2⟩
    rw [kept]
    rfl

namespace Linker

variable {env : Linker} {nextId n : Nat} {f : Function} {a : Artifact}

theorem compile_eq (env : Linker) (nextId : Nat) (f : Function) :
    env.compile nextId f =
      (Compile.function env (env.bound + 1) [] f { nextId }).map fun r => (r.1, r.2.nextId) := by
  simp only [Linker.compile, StateT.run, bind, Except.bind]
  rcases Compile.function _ _ _ _ _ with _ | _ <;> rfl

theorem function_of_compile (h : env.compile nextId f = .ok (a, n)) :
    ∃ st, Compile.function env (env.bound + 1) [] f { nextId } = .ok (a, st) ∧ n = st.nextId := by
  rw [compile_eq] at h
  rcases hf : Compile.function env (env.bound + 1) [] f { nextId } with e | ⟨b, st⟩
  · rw [hf] at h
    cases h
  · rw [hf] at h
    cases h
    exact ⟨st, rfl, rfl⟩

/-- A compilation starts with the function itself. -/
theorem compile_eq_compileUnit (env : Linker) (nextId : Nat) (f : Function) :
    env.compile nextId f =
      (Compile.compileUnit env (Compile.function env env.bound [(f.id, f.name)]) f
        { nextId }).map fun r => (r.1, r.2.nextId) := by
  rw [compile_eq, Compile.function_apply]
  simp only [List.find?_nil, List.any_nil, Bool.false_eq_true, if_false, List.nil_append]
  rcases Compile.compileUnit env _ f _ with _ | _ <;> rfl

theorem unit_of_compile (h : env.compile nextId f = .ok (a, n)) :
    ∃ st, Compile.compileUnit env (Compile.function env env.bound [(f.id, f.name)]) f
      { nextId } = .ok (a, st) ∧ n = st.nextId := by
  rw [compile_eq_compileUnit] at h
  rcases hunit : Compile.compileUnit env (Compile.function env env.bound [(f.id, f.name)]) f
      { nextId } with e | ⟨b, st⟩
  · rw [hunit] at h
    cases h
  · rw [hunit] at h
    cases h
    exact ⟨st, rfl, rfl⟩

end Linker

namespace Function

variable {w w' v : World} {f : Function} {a : Artifact}

theorem compile_apply (f : Function) (w : World) :
    f.compile w =
      match w.linker.compile w.nextId f with
      | .ok (a, nextId) => (.ok a, { w with nextId })
      | .error e => (.error e, w) := by
  rw [compile, Run.bind_apply, Run.get_apply]
  dsimp only
  rw [Run.bind_apply, Run.ofExcept_apply]
  rcases w.linker.compile w.nextId f with _ | _ <;> rfl

theorem compile_eq_ok (h : f.compile w = (.ok a, w')) :
    ∃ st, Compile.function w.linker (w.bindingCount + 1) [] f { nextId := w.nextId } = .ok (a, st) ∧
      w' = { w with nextId := st.nextId } := by
  rw [compile_apply] at h
  rcases hf : w.linker.compile w.nextId f with e | ⟨b, n⟩
  · rw [hf] at h
    cases h
  · rw [hf] at h
    cases h
    obtain ⟨st, hst, rfl⟩ := Linker.function_of_compile hf
    exact ⟨st, hst, rfl⟩

/-- The artifact of a function realizes it as long as the bindings stay. -/
theorem compile_realizes {sight : Function → Prop} (closed : w.Closed sight) (hf : sight f)
    (h : f.compile w = (.ok a, w')) (keeps : w.Keeps v) (bound : BoundCall) (limit : Nat) :
    f.RealizedBy Fault.Alike (callAt bound limit) v a := by
  obtain ⟨st, hst, -⟩ := compile_eq_ok h
  exact (Compile.function_ensures (keeps.faithful closed _) _ _ f hf _ a st hst
    fun _ hm => absurd hm List.not_mem_nil).2

/-- The call of the function ends because calls are nested deeper than its namespace allows. -/
def ExceedsLimit (f : Function) (args : List Value) (w : World) : Prop :=
  ∃ ns e, w.namespace? f.home = some ns ∧ ((Callable.function f).call args w).1 = .error e ∧
    e.TooDeep ns.maxRecursion

/-- A call of a function that is realized gives what the artifact gives, unless calls are nested
deeper than the namespace allows. -/
theorem RealizedBy.callWith_agrees {bound : BoundCall}
    (h : ∀ limit, f.RealizedBy R (callAt bound limit) v a) (args : List Value)
    (within : ∀ ns e, v.namespace? f.home = some ns → (f.callWith bound args v).1 = .error e →
      ¬ e.TooDeep ns.maxRecursion) :
    AgreeUpTo R (f.callWith bound args v).1 (a.call ampleFuel args) := by
  obtain ⟨ns, hns⟩ := Option.isSome_iff_exists.mp (h 0).live
  have hcall : f.callWith bound args v = f.callAt bound ns.maxRecursion ns.maxRecursion args v := by
    have hhome : v.home f = .ok ns := by rw [World.home, hns]
    rw [callWith, Run.bind_apply, Run.get_apply]
    dsimp only
    rw [hhome, Run.bind_apply, Run.ofOutcome_apply]
    rfl
  obtain ⟨n, hn⟩ := Filter.eventually_atTop.mp (h ns.maxRecursion).yields
  have hdeep : (Correspondence.deeper ns.maxRecursion).Runs Eq
      (callAt bound ns.maxRecursion ns.maxRecursion f args)
      (callAt bound ns.maxRecursion (max ns.maxRecursion n) f args) :=
    callAt_deeper (Nat.le_max_left ns.maxRecursion n) f args
  rcases Correspondence.deeper_eq hdeep v with ⟨e, he, hlimit⟩ | heq
  · exact absurd hlimit (within ns e hns (by rw [hcall, he]))
  · rw [hcall, heq]
    exact (hn _ (Nat.le_max_right ns.maxRecursion n) args).1

theorem RealizedBy.call_agrees (h : ∀ bound limit, f.RealizedBy R (callAt bound limit) v a)
    (args : List Value) (within : ¬ f.ExceedsLimit args v) :
    AgreeUpTo R ((Callable.function f).call args v).1 (a.call ampleFuel args) :=
  RealizedBy.callWith_agrees (h _) args fun ns e hns he hdeep => within ⟨ns, e, hns, he, hdeep⟩

/-- Compiled code agrees with the interpreter: as long as the bindings stay, a call of the artifact
gives a value exactly when the call of the function gives it, and fails exactly when it fails, unless
calls are nested too deep for the interpreter. -/
theorem compile_agrees (numbered : w.Numbered f) (h : f.compile w = (.ok a, w'))
    (keeps : w.Keeps v) (args : List Value) (within : ¬ f.ExceedsLimit args v) :
    Agree ((Callable.function f).call args v).1 (a.call ampleFuel args) := by
  have closed : w.Closed fun g => g = f ∨ w.Binds g :=
    ⟨fun g _ n c h _ hl hc => .inr ⟨g.home, n, c, hl, hc⟩, numbered⟩
  have realized := compile_realizes closed (.inl rfl) h keeps
  exact RealizedBy.call_agrees realized args within

/-- The function `fn not(x) { !x }` of namespace 1. -/
def negation : Function :=
  .build 2
    { markers := [], name := ⟨"not", .dummy⟩, params := [⟨"x", .dummy⟩],
      body := .mk [] (some (.unary .not (.var "x" .dummy) .dummy)) .dummy }
    .interactive 1 []

/-- The function `fn f(x) { not(x) }` of namespace 1. -/
def negationCaller : Function :=
  .build 3
    { markers := [], name := ⟨"f", .dummy⟩, params := [⟨"x", .dummy⟩],
      body := .mk [] (some (.call ⟨"not", []⟩ .dummy [.var "x" .dummy] .dummy)) .dummy }
    .interactive 1 []

/-- A world whose namespace 1 binds `not`. -/
def negationWorld : World :=
  { nextId := 4,
    namespaces := [(1, { name := "m", globals := [("not", .callable (.function negation))] })] }

theorem negationWorld_binds {g : Function} (h : negationWorld.Binds g) : g = negation := by
  obtain ⟨id, name, c, hl, hc⟩ := h
  have hcallable : c = .function negation := by
    simp only [World.lookup, World.namespace?, negationWorld, List.find?] at hl
    split at hl
    · simp only [Option.map_some, Option.bind_some, Namespace.get?, Dictionary.get?] at hl
      split at hl
      · cases hl
        rfl
      · cases hl
    · cases hl
  rw [hcallable] at hc
  exact (Option.some.inj hc).symm

theorem compile_agrees_negationCaller :
    ∃ a w', negationCaller.compile negationWorld = (.ok a, w') ∧
      Agree ((Callable.function negationCaller).call [.bool true] negationWorld).1
        (a.call ampleFuel [.bool true]) := by
  have hok : (negationCaller.compile negationWorld).1.isOk = true := by decide +kernel
  rcases h : negationCaller.compile negationWorld with ⟨e | a, w'⟩
  · rw [h] at hok
    cases hok
  · refine ⟨a, w', rfl, Function.compile_agrees ?_ h ?_ _ ?_⟩
    · rintro g g' (rfl | hg) (rfl | hg') hid
      · rfl
      · rw [negationWorld_binds hg'] at hid
        cases hid
      · rw [negationWorld_binds hg] at hid
        cases hid
      · rw [negationWorld_binds hg, negationWorld_binds hg']
    · exact fun id hlive => ⟨hlive, fun _ => rfl⟩
    · rintro ⟨ns, e, -, he, -⟩
      have hv : ((Callable.function negationCaller).call [.bool true] negationWorld).1 =
        .ok (.bool false) := by rfl
      rw [hv] at he
      cases he

end Function

end Graft
